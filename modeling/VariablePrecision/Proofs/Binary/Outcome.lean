/-
  VariablePrecision.Proofs.Binary.Outcome

  What rounding under a policy leaves, kind by kind.

  Infinities, zeros and values that are no number stay as they are.  A subnormal value is
  rounded to the one quantum below the normal range (`round_of_subnormal`).  A normal value
  keeps as many bits as the policy asks for (`round_of_bound`), unless an absolute bound is
  above it: then it vanishes (`round_of_far_below`) or becomes the bound
  (`round_of_just_below`).

  The last section says what such a rounding ends in.  From a normal value it is an
  infinity, a zero or a value that is `Settled`: a multiple of the quantum that belongs to
  it.  Within the binade that is the quantum of the rounding; at its end, and where the
  bound has taken the place of the value, the outcome is a power of two, which every
  quantum of its binade divides.
-/

import VariablePrecision.Proofs.Binary.Stable

namespace VariablePrecision

/-- How many bits behind the leading one are kept at an exponent. -/
def ErrorPolicy.keptAt (policy : ErrorPolicy) (f : Format) (precision : Nat) (e : Int) : Nat :=
  (policy.kept f ⟨precision, f.exponentBits⟩ e).toNat

/-- How many bits are kept behind the place of the least normal values, below these. -/
def ErrorPolicy.keptSubnormal (policy : ErrorPolicy) (f : Format) (precision : Nat) : Nat :=
  policy.keptBelow ⟨precision, f.exponentBits⟩

namespace Binary

variable {f : Format} {x : Binary f} {policy : ErrorPolicy} {precision : Nat}

/-! ## Kinds of finite values -/

theorem category_eq_normal_iff :
    x.category = .normal ↔ x.isFinite ∧ x.biasedExponent ≠ 0 := by
  constructor
  · intro h
    have hpow := f.two_pow_exponentBits
    have hlt := x.biasedExponent_lt
    unfold category at h
    split at h
    · split at h <;> contradiction
    · next hzero =>
      split at h
      · split at h <;> contradiction
      · next htop =>
        have hmagnitude := (Nat.div_lt_iff_lt_mul (Nat.two_pow_pos f.mantissaBits)).1
          (show x.biasedExponent < 2 * f.bias + 1 by omega)
        rw [Nat.add_mul, Nat.one_mul, ← f.infinityMagnitude_eq] at hmagnitude
        exact ⟨by simpa [isFinite] using hmagnitude, hzero⟩
  · rintro ⟨hx, hb⟩
    exact category_eq_normal hx hb

/-- Finite values are normal from the least normal value on. -/
theorem category_eq_normal_iff_le (hx : x.isFinite) :
    x.category = .normal ↔ 2 ^ f.mantissaBits ≤ x.absUnits := by
  have hunit := f.unitExponent_add_one
  rw [category_eq_normal_iff, ← le_exponent_iff (Nat.le_refl _), exponent]
  constructor
  · rintro ⟨-, hb⟩
    omega
  · intro h
    exact ⟨hx, by omega⟩

theorem of_category_eq_subnormal (h : x.category = .subnormal) :
    x.isFinite ∧ x.biasedExponent = 0 := by
  unfold category at h
  split at h
  · next hzero =>
    refine ⟨isFinite_iff.2 ?_, hzero⟩
    exact Nat.lt_of_lt_of_le (absUnits_lt_of_biasedExponent hzero)
      (Nat.pow_le_pow_right Nat.two_pos (by rw [Format.unitExponent]; omega))
  · split at h
    · split at h <;> contradiction
    · contradiction

/-- Subnormal values are those with an empty exponent field, but for zero. -/
theorem category_eq_subnormal_iff :
    x.category = .subnormal ↔ x.biasedExponent = 0 ∧ x.isZero = false := by
  rw [isZero_eq_false_iff, category]
  split
  · next hb =>
    rw [absUnits, if_pos hb]
    split
    · next hm => exact iff_of_false (by decide) fun h => h.2 hm
    · next hm => exact iff_of_true rfl ⟨hb, hm⟩
  · next hb =>
    refine iff_of_false ?_ fun h => hb h.1
    split_ifs <;> decide

theorem category_zero (s : Bool) : (zero f s).category = .zero := by
  cases f <;> cases s <;> rfl

theorem category_infinity (s : Bool) : (infinity f s).category = .infinite := by
  cases f <;> cases s <;> rfl

/-! ## Rounding by kind -/

theorem round_zero (s : Bool) : (zero f s).round precision policy = zero f s := by
  rw [round, category_zero]

theorem round_infinity (s : Bool) : (infinity f s).round precision policy = infinity f s := by
  rw [round, category_infinity]

theorem round_of_subnormal (hp : precision ≤ f.mantissaBits) (hx : x.category = .subnormal) :
    x.round precision policy =
      x.roundToQuantum (1 - (f.bias : Int) - policy.keptSubnormal f precision) := by
  have hkept : policy.keptSubnormal f precision ≤ precision := keptBelow_le _ policy
  have hdepth : quantumDepth (policy.keptSubnormal f precision) =
      policy.keptSubnormal f precision :=
    quantumDepth_eq (Nat.le_trans hkept (Nat.le_trans hp f.mantissaBits_le))
  rw [round, hx]
  dsimp only
  rw [roundSubnormal, if_pos (of_category_eq_subnormal hx).1, roundDenormal]
  show x.roundToQuantum (_ - quantumDepth (policy.keptSubnormal f precision)) = _
  rw [hdepth]

/-- A normal value that is not below an absolute bound. -/
theorem round_of_bound (hx : x.category = .normal)
    (hbound : policy.mode = .relative ∨ policy.absoluteExponent ≤ x.exponent) :
    x.round precision policy = x.roundNormal (policy.keptAt f precision x.exponent) :=
  round_eq_roundNormal (t := ⟨precision, f.exponentBits⟩) hx hbound

theorem keptAt_le (hp : precision ≤ f.mantissaBits) {e : Int}
    (hbound : policy.mode = .relative ∨ policy.absoluteExponent ≤ e) :
    policy.keptAt f precision e ≤ f.mantissaBits := by
  have hkept := kept_bounds (t := ⟨precision, f.exponentBits⟩) hp hbound
  rw [ErrorPolicy.keptAt]
  omega

/-- A normal value below half an absolute bound. -/
theorem round_of_far_below (hx : x.category = .normal) (hmode : policy.mode ≠ .relative)
    (hbound : x.exponent + 2 ≤ policy.absoluteExponent) :
    x.round precision policy = zero f x.negative := by
  have habsolute : policy.boundsAbsolute = true := by
    unfold ErrorPolicy.boundsAbsolute
    cases h : policy.mode <;> simp_all
  rw [round, hx]
  dsimp only
  rw [if_pos habsolute, roundAbsolute, if_pos (by omega)]

/-- A normal value from half an absolute bound up to it. -/
theorem round_of_just_below (hx : x.category = .normal) (hmode : policy.mode ≠ .relative)
    (hbound : x.exponent + 1 = policy.absoluteExponent) :
    x.round precision policy = (exp2 f policy.absoluteExponent).withSign x.negative := by
  have habsolute : policy.boundsAbsolute = true := by
    unfold ErrorPolicy.boundsAbsolute
    cases h : policy.mode <;> simp_all
  rw [round, hx]
  dsimp only
  rw [if_pos habsolute, roundAbsolute, if_neg (by omega), if_pos (by omega)]

@[simp] theorem negative_roundSubnormal (x : Binary f) (emin : Int) (precision : Nat)
    (policy : ErrorPolicy) :
    (x.roundSubnormal emin precision policy).negative = x.negative := by
  unfold roundSubnormal roundDenormal
  split_ifs <;> simp

@[simp] theorem negative_round (x : Binary f) (precision : Nat) (policy : ErrorPolicy) :
    (x.round precision policy).negative = x.negative := by
  unfold round roundAbsolute roundNormal
  dsimp only
  split
  case h_5 => split_ifs <;> simp [withSign]
  all_goals simp

/-! ## Outcomes -/

/-- Multiples of the quantum are kept. -/
theorem roundToQuantum_of_dvd (hx : x.isFinite) {quantum : Int} {q : Nat}
    (hq : (q : Int) = quantum + f.unitExponent) (hdvd : 2 ^ q ∣ x.absUnits) :
    x.roundToQuantum quantum = x := by
  rw [roundToQuantum_eq_nearest hx hq, Grid.nearestEven_two_pow_of_dvd hdvd, nearest_absUnits hx]

/-- Rounding a value of at most `2 ^ e` units is exact or too large, if the format has all multiples
    of the quantum up to there. -/
theorem roundToQuantum_outcome (hx : x.isFinite) {quantum : Int} {q e : Nat}
    (hq : (q : Int) = quantum + f.unitExponent) (hle : x.absUnits ≤ 2 ^ e) (hqe : q ≤ e)
    (he : e ≤ q + f.mantissaBits + 1) :
    f.unitBound ≤ nearestEven x.absUnits (2 ^ q) * 2 ^ q ∧
        x.roundToQuantum quantum = infinity f x.negative ∨
      (x.roundToQuantum quantum).isFinite ∧
        (x.roundToQuantum quantum).absUnits = nearestEven x.absUnits (2 ^ q) * 2 ^ q := by
  have hmem : f.grid.Mem (nearestEven x.absUnits (2 ^ q) * 2 ^ q) :=
    Grid.mem_of_dvd (Nat.zero_le _) (Nat.dvd_mul_left _ _) (Grid.nearestEven_two_pow_le hqe hle) he
  have hround := Grid.round_one_of_mem hmem
  rw [roundToQuantum_eq_nearest hx hq]
  rcases Nat.lt_or_ge (nearestEven x.absUnits (2 ^ q) * 2 ^ q) f.unitBound with hlt | hge
  · right
    rw [← hround] at hlt
    exact ⟨isFinite_nearest Nat.one_pos hlt, by rw [absUnits_nearest Nat.one_pos hlt, hround]⟩
  · exact .inl ⟨hge, nearest_eq_infinity Nat.one_pos (by rwa [hround])⟩

variable {k : Nat}

/-- The quantum of a normal value that keeps `k` bits behind the leading one. -/
theorem quantum_of_normal (hx : x.category = .normal) (hk : k ≤ f.mantissaBits) :
    ((x.absUnits.log2 - k : Nat) : Int) = x.exponent - quantumDepth k + f.unitExponent := by
  obtain ⟨hfinite, hb⟩ := category_eq_normal_iff.1 hx
  have hlog := log2_absUnits hb
  have hmantissa := Grid.le_log2_of_le ((category_eq_normal_iff_le hfinite).1 hx)
  rw [quantumDepth_eq (Nat.le_trans hk f.mantissaBits_le)]
  omega

theorem roundNormal_of_dvd (hx : x.category = .normal) (hk : k ≤ f.mantissaBits)
    (hdvd : 2 ^ (x.absUnits.log2 - k) ∣ x.absUnits) : x.roundNormal k = x :=
  roundToQuantum_of_dvd (category_eq_normal_iff.1 hx).1 (quantum_of_normal hx hk) hdvd

/-- A rounded normal value is infinite, or in the same binade and a multiple of the quantum there,
    or at the start of the next binade. -/
theorem roundNormal_outcome (hx : x.category = .normal) (hk : k ≤ f.mantissaBits) :
    x.roundNormal k = infinity f x.negative ∨
      (x.roundNormal k).category = .normal ∧
        ((x.roundNormal k).exponent = x.exponent ∧
            2 ^ ((x.roundNormal k).absUnits.log2 - k) ∣ (x.roundNormal k).absUnits ∨
          (x.roundNormal k).exponent = x.exponent + 1 ∧
            ∃ e, (x.roundNormal k).absUnits = 2 ^ e) := by
  obtain ⟨hfinite, hb⟩ := category_eq_normal_iff.1 hx
  have hlog := log2_absUnits hb
  have hmantissa := (category_eq_normal_iff_le hfinite).1 hx
  have hle := Grid.le_log2_of_le hmantissa
  have hpos := Nat.two_pow_pos f.mantissaBits
  have hlow : 2 ^ x.absUnits.log2 ≤ nearestEven x.absUnits (2 ^ (x.absUnits.log2 - k)) *
      2 ^ (x.absUnits.log2 - k) :=
    Grid.two_pow_le_nearestEven (by omega) (Nat.log2_self_le (by omega))
  have hupp : nearestEven x.absUnits (2 ^ (x.absUnits.log2 - k)) *
      2 ^ (x.absUnits.log2 - k) ≤ 2 ^ (x.absUnits.log2 + 1) :=
    Grid.nearestEven_two_pow_le (by omega) (Nat.le_of_lt Nat.lt_log2_self)
  have hdvd : 2 ^ (x.absUnits.log2 - k) ∣ nearestEven x.absUnits (2 ^ (x.absUnits.log2 - k)) *
      2 ^ (x.absUnits.log2 - k) := Nat.dvd_mul_left _ _
  rcases roundToQuantum_outcome hfinite (e := x.absUnits.log2 + 1) (quantum_of_normal hx hk)
    (Nat.le_of_lt Nat.lt_log2_self) (by omega) (by omega) with ⟨_, hinf⟩ | ⟨hy, hunits⟩
  · exact .inl hinf
  · right
    rw [← hunits] at hlow hupp hdvd
    -- from here on the outcome matters only as a finite value between the ends of the binade
    rw [roundNormal]
    generalize x.roundToQuantum (x.exponent - quantumDepth k) = y at *
    have hnormal : y.category = .normal := (category_eq_normal_iff_le hy).2
      (Nat.le_trans (Nat.pow_le_pow_right Nat.two_pos hle) hlow)
    have hylog := log2_absUnits (category_eq_normal_iff.1 hnormal).2
    refine ⟨hnormal, ?_⟩
    rcases Nat.lt_or_eq_of_le hupp with hlt | heq
    · have hsame : y.absUnits.log2 = x.absUnits.log2 :=
        Nat.le_antisymm (Grid.log2_le_of_lt hlt) (Grid.le_log2_of_le hlow)
      exact .inl ⟨by omega, by rwa [hsame]⟩
    · rw [heq, Nat.log2_two_pow] at hylog
      exact .inr ⟨by omega, _, heq⟩

/-- A power of two that is the next one above the exponent of a normal value: it is a normal value,
    or the first power of two that is too large. -/
theorem exp2_outcome (s : Bool) {e : Int} (hlow : 2 - (f.bias : Int) ≤ e) (hupp : e ≤ f.bias + 1) :
    (exp2 f e).withSign s = infinity f s ∨
      ((exp2 f e).withSign s).category = .normal ∧ ((exp2 f e).withSign s).exponent = e ∧
        ∃ n, ((exp2 f e).withSign s).absUnits = 2 ^ n := by
  have hunit := f.unitExponent_add_one
  by_cases htop : e ≤ f.bias
  · right
    obtain ⟨n, hn⟩ : ∃ n : Nat, (n : Int) = e + f.unitExponent :=
      ⟨(e + f.unitExponent).toNat, by omega⟩
    obtain ⟨hfinite, hunits⟩ : ((exp2 f e).withSign s).isFinite ∧
        ((exp2 f e).withSign s).absUnits = 2 ^ n := exp2_eq_exact hn htop
    generalize (exp2 f e).withSign s = y at *
    have hnormal : y.category = .normal := (category_eq_normal_iff_le hfinite).2 (by
      rw [hunits]
      exact Nat.pow_le_pow_right Nat.two_pos (by omega))
    have hlog := log2_absUnits (category_eq_normal_iff.1 hnormal).2
    rw [hunits, Nat.log2_two_pow] at hlog
    exact ⟨hnormal, by omega, n, hunits⟩
  · left
    rw [exp2, if_pos (by rw [f.two_pow_exponentBits_int]; omega)]
    rfl

/-- A normal value that rounding has nothing to do with: no absolute bound is above it, and it is a
    multiple of its own quantum. -/
structure Settled (precision : Nat) (policy : ErrorPolicy) (y : Binary f) : Prop where
  normal : y.category = .normal
  bound : policy.mode = .relative ∨ policy.absoluteExponent ≤ y.exponent
  dvd : 2 ^ (y.absUnits.log2 - policy.keptAt f precision y.exponent) ∣ y.absUnits

theorem Settled.round_eq {y : Binary f} (hp : precision ≤ f.mantissaBits)
    (hy : y.Settled precision policy) : y.round precision policy = y := by
  rw [round_of_bound hy.normal hy.bound]
  exact roundNormal_of_dvd hy.normal (keptAt_le hp hy.bound) hy.dvd

/-- Powers of two are settled from the bound on. -/
theorem settled_of_two_pow {y : Binary f} {e : Nat} (hy : y.category = .normal)
    (hbound : policy.mode = .relative ∨ policy.absoluteExponent ≤ y.exponent)
    (he : y.absUnits = 2 ^ e) : y.Settled precision policy := by
  refine ⟨hy, hbound, ?_⟩
  rw [he, Nat.log2_two_pow]
  exact Nat.pow_dvd_pow 2 (by omega)

/-- A rounded normal value is infinite, or zero, or settled at an exponent that is no smaller. -/
theorem round_normal_outcome (hp : precision ≤ f.mantissaBits) (hx : x.category = .normal)
    (policy : ErrorPolicy) :
    x.round precision policy = infinity f x.negative ∨
      x.round precision policy = zero f x.negative ∨
      x.exponent ≤ (x.round precision policy).exponent ∧
        (x.round precision policy).Settled precision policy := by
  obtain ⟨hfinite, hb⟩ := category_eq_normal_iff.1 hx
  have hle := biasedExponent_le hfinite
  have hexponent : x.exponent = x.biasedExponent - f.bias := rfl
  by_cases hbound : policy.mode = .relative ∨ policy.absoluteExponent ≤ x.exponent
  · rw [round_of_bound hx hbound]
    rcases roundNormal_outcome hx (keptAt_le hp hbound) with
      hinf | ⟨hy, ⟨hsame, hdvd⟩ | ⟨hnext, e, he⟩⟩
    · exact .inl hinf
    · -- in the binade of the value as many bits are kept as there
      exact .inr (.inr ⟨by omega, hy, by rwa [hsame], by rwa [hsame]⟩)
    · exact .inr (.inr ⟨by omega, settled_of_two_pow hy (hbound.imp_right fun _ => by omega) he⟩)
  · obtain ⟨hmode, _⟩ := not_or.1 hbound
    by_cases hfar : x.exponent + 2 ≤ policy.absoluteExponent
    · exact .inr (.inl (round_of_far_below hx hmode hfar))
    · rw [round_of_just_below hx hmode (by omega)]
      rcases exp2_outcome x.negative (f := f) (e := policy.absoluteExponent) (by omega) (by omega)
        with hinf | ⟨hy, hsame, e, he⟩
      · exact .inl hinf
      · exact .inr (.inr ⟨by omega, settled_of_two_pow hy (.inr (by omega)) he⟩)

/-- A rounded subnormal value is at most the least normal value and a multiple of the quantum. -/
theorem round_subnormal_outcome (policy : ErrorPolicy) (hp : precision ≤ f.mantissaBits)
    (hx : x.category = .subnormal) :
    (x.round precision policy).isFinite ∧
      (x.round precision policy).absUnits ≤ 2 ^ f.mantissaBits ∧
      2 ^ (f.mantissaBits - policy.keptSubnormal f precision) ∣
        (x.round precision policy).absUnits := by
  obtain ⟨hfinite, hb⟩ := of_category_eq_subnormal hx
  have hunit := f.unitExponent_add_one
  have hle := Nat.le_of_lt (absUnits_lt_of_biasedExponent hb)
  have hkept : policy.keptSubnormal f precision ≤ precision := keptBelow_le _ policy
  have hupp : nearestEven x.absUnits (2 ^ (f.mantissaBits - policy.keptSubnormal f precision)) *
      2 ^ (f.mantissaBits - policy.keptSubnormal f precision) ≤ 2 ^ f.mantissaBits :=
    Grid.nearestEven_two_pow_le (by omega) hle
  have hbias := f.bias_pos
  have hbound : 2 ^ f.mantissaBits < f.unitBound :=
    Nat.pow_lt_pow_right Nat.one_lt_two (by omega)
  have hquantum : ((f.mantissaBits - policy.keptSubnormal f precision : Nat) : Int) =
      1 - (f.bias : Int) - policy.keptSubnormal f precision + f.unitExponent := by omega
  rw [round_of_subnormal hp hx]
  rcases roundToQuantum_outcome hfinite hquantum hle (by omega) (by omega) with
    ⟨hinf, _⟩ | ⟨hy, hunits⟩
  · omega
  · exact ⟨hy, by rwa [hunits], by rw [hunits]; exact Nat.dvd_mul_left _ _⟩

/-- A subnormal value that is rounded to a normal one becomes the least of these. -/
theorem round_subnormal_eq_least (hp : precision ≤ f.mantissaBits)
    (hx : x.category = .subnormal) (hy : (x.round precision policy).category = .normal) :
    (x.round precision policy).absUnits = 2 ^ f.mantissaBits ∧
      (x.round precision policy).exponent = 1 - (f.bias : Int) := by
  obtain ⟨hfinite, hle, _⟩ := round_subnormal_outcome policy hp hx
  have hge := (category_eq_normal_iff_le hfinite).1 hy
  have hunits := Nat.le_antisymm hle hge
  have hlog := log2_absUnits (category_eq_normal_iff.1 hy).2
  have hunit := f.unitExponent_add_one
  rw [hunits, Nat.log2_two_pow] at hlog
  exact ⟨hunits, by omega⟩

end Binary

end VariablePrecision
