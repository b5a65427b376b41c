/-
  VariablePrecision.Proofs.Binary.FixedPoint

  Rounding under a bound on the absolute error is rounding to fixed point.

  The quantum of a normal value is the greater one of the bound and the last place that its
  precision leaves (`ErrorPolicy.quantumAt`).  The definition comes to it in three cases, by
  the place of the value against the bound:

    from the bound on     as many bits are kept as the quantum asks for;
    just below the bound  the value becomes the bound, the nearer one of its two neighbours;
    further below         zero is the nearest multiple.

  The middle case has one exception, the value at half the bound: it is half way between zero,
  the even multiple, and the bound, and it goes to the bound.
-/

import VariablePrecision.Proofs.Binary.Outcome
import VariablePrecision.Proofs.Target.Rounds

namespace VariablePrecision

/-! ## Multiples of a quantum -/

/-- The multiple of `2 ^ q` nearest to `r` is `k * 2 ^ q`, and `k` is even if another one is as
    near. -/
structure IsNearestMultiple (q : ℤ) (r : ℚ) (k : ℤ) : Prop where
  le : ∀ j : ℤ, |r - k * 2 ^ q| ≤ |r - j * 2 ^ q|
  even : ∀ j : ℤ, j ≠ k → |r - j * 2 ^ q| = |r - k * 2 ^ q| → Even k

namespace IsNearestMultiple

variable {q k : ℤ} {r : ℚ}

/-- A multiple that is at most half a quantum away, and less than that if it is odd. -/
theorem of_half (hle : |r / 2 ^ q - k| ≤ 1 / 2) (heven : |r / 2 ^ q - k| = 1 / 2 → Even k) :
    IsNearestMultiple q r k := by
  have hq : (0 : ℚ) < 2 ^ q := by positivity
  -- distances are counted in quanta
  have hdist : ∀ j : ℤ, |r - j * 2 ^ q| = |r / 2 ^ q - j| * 2 ^ q := by
    intro j
    rw [← abs_of_pos hq, ← abs_mul, abs_of_pos hq, sub_mul, div_mul_cancel₀ _ hq.ne']
  refine ⟨fun j => ?_, fun j hj htie => ?_⟩
  · rw [hdist, hdist]
    exact mul_le_mul_of_nonneg_right (Target.abs_sub_le_of_half hle j) hq.le
  · rw [hdist, hdist] at htie
    exact heven (Target.eq_half_of_tie hle hj (mul_right_cancel₀ hq.ne' htie))

/-- A multiple is nearest to itself. -/
theorem of_eq (h : r = k * 2 ^ q) : IsNearestMultiple q r k := by
  have hq : (2 : ℚ) ^ q ≠ 0 := (zpow_pos (by norm_num) q).ne'
  have hzero : |r / 2 ^ q - k| = 0 := by rw [h, mul_div_cancel_right₀ _ hq, sub_self, abs_zero]
  refine of_half (by rw [hzero]; norm_num) fun hhalf => ?_
  rw [hzero] at hhalf
  norm_num at hhalf

theorem neg (h : IsNearestMultiple q r k) : IsNearestMultiple q (-r) (-k) := by
  have hdist : ∀ j : ℤ, |-r - j * 2 ^ q| = |r - (-j : ℤ) * 2 ^ q| := by
    intro j
    rw [← abs_neg]
    congr 1
    push_cast
    ring
  refine ⟨fun j => ?_, fun j hj htie => ?_⟩
  · rw [hdist, hdist, neg_neg]
    exact h.le (-j)
  · rw [hdist, hdist, neg_neg] at htie
    exact (h.even (-j) (by omega) htie).neg

end IsNearestMultiple

namespace Binary

variable {f : Format} {x y : Binary f} {r : ℚ}

/-- The value is the number `r`, or an infinity if `r` is too large for the format. -/
structure Represents (y : Binary f) (r : ℚ) : Prop where
  infinite : 2 ^ ((f.bias : ℤ) + 1) ≤ |r| → y.isInfinite
  finite : |r| < 2 ^ ((f.bias : ℤ) + 1) → y.isFinite ∧ y.toRat = r

theorem unitBound_mul_unit (f : Format) :
    (f.unitBound : ℚ) * 2 ^ (-(f.unitExponent : ℤ)) = 2 ^ ((f.bias : ℤ) + 1) := by
  rw [Format.unitBound, Target.two_pow_mul_unit]
  congr 1
  omega

/-- Multiples of `2 ^ k` units are multiples of the number that these stand for. -/
theorem mul_two_pow_mul_unit (n : Nat) {q : ℤ} {k : Nat} (hk : (k : ℤ) = q + f.unitExponent) :
    ((n * 2 ^ k : Nat) : ℚ) * 2 ^ (-(f.unitExponent : ℤ)) = n * 2 ^ q := by
  rw [Nat.cast_mul, mul_assoc, Target.two_pow_mul_unit, hk, add_sub_cancel_right]

/-- Members of the grid of the format are its numbers, but for the bound on their size. -/
theorem represents_nearest {n : Nat} (hn : f.grid.Mem n) (s : Bool) :
    (nearest f s n 1).Represents (scaled f s n) := by
  have hround := Grid.round_one_of_mem hn
  have hunit : (0 : ℚ) < 2 ^ (-(f.unitExponent : ℤ)) := by positivity
  have habs : |scaled f s n| = n * 2 ^ (-(f.unitExponent : ℤ)) := abs_scaled s (by positivity)
  refine ⟨fun hbig => ?_, fun hsmall => ?_⟩
  · rw [habs, ← unitBound_mul_unit, mul_le_mul_iff_left₀ hunit, Nat.cast_le] at hbig
    rw [nearest_eq_infinity Nat.one_pos (by rwa [hround])]
    exact isInfinite_infinity
  · rw [habs, ← unitBound_mul_unit, mul_lt_mul_iff_left₀ hunit, Nat.cast_lt] at hsmall
    rw [← hround] at hsmall
    refine ⟨isFinite_nearest Nat.one_pos hsmall, ?_⟩
    rw [toRat_eq_scaled, negative_nearest, absUnits_nearest Nat.one_pos hsmall, hround]

/-! ## Rounding to a quantum -/

/-- A short number that is rounded to a quantum stays short. -/
theorem mem_nearestEven_two_pow {n : Nat} (hn : f.grid.Mem n) (k : Nat) :
    f.grid.Mem (nearestEven n (2 ^ k) * 2 ^ k) := by
  obtain ⟨c, hc, hnc⟩ := hn.exists_mul
  rcases Nat.le_total k (f.grid.depth n) with hle | hle
  · -- the quantum is no coarser than the last place of the number
    rwa [Grid.nearestEven_two_pow_of_dvd (Nat.dvd_trans (Nat.pow_dvd_pow 2 hle) hn)]
  · have hupp := Grid.nearestEven_two_pow_le (n := n) (Nat.le_add_right k (f.mantissaBits + 1)) (by
      calc n = c * 2 ^ f.grid.depth n := hnc
        _ ≤ 2 ^ (f.mantissaBits + 1) * 2 ^ k :=
            Nat.mul_le_mul hc.le (Nat.pow_le_pow_right Nat.two_pos hle)
        _ = 2 ^ (k + (f.mantissaBits + 1)) := by rw [← Nat.pow_add, Nat.add_comm])
    exact Grid.mem_of_dvd (Nat.zero_le _) (Nat.dvd_mul_left _ _) hupp (by simp; omega)

/-- Counted in units, the nearest multiple of a quantum is a rounded ratio. -/
theorem isNearestMultiple_units (n : Nat) {q : ℤ} {k : Nat} (hk : (k : ℤ) = q + f.unitExponent) :
    IsNearestMultiple q (n * 2 ^ (-(f.unitExponent : ℤ))) (nearestEven n (2 ^ k) : Nat) := by
  have hratio : (n : ℚ) * 2 ^ (-(f.unitExponent : ℤ)) / 2 ^ q = n / ((2 ^ k : Nat) : ℚ) := by
    rw [Target.cast_two_pow, hk, zpow_add₀ (by norm_num), zpow_neg]
    field_simp
  apply IsNearestMultiple.of_half
  · rw [hratio]
    exact Target.abs_div_sub_nearestEven_le (Nat.two_pow_pos k)
  · rw [hratio]
    intro hhalf
    exact_mod_cast Target.even_nearestEven_of_half (Nat.two_pow_pos k) hhalf

/-- Rounding to a quantum gives the nearest multiple of it. -/
theorem roundToQuantum_represents (hx : x.isFinite) {q : ℤ} {k : Nat}
    (hk : (k : ℤ) = q + f.unitExponent) :
    ∃ n : ℤ, IsNearestMultiple q x.toRat n ∧ (x.roundToQuantum q).Represents (n * 2 ^ q) := by
  have hmem := mem_nearestEven_two_pow x.mem_absUnits k
  have hnearest := isNearestMultiple_units x.absUnits hk
  have hrep := represents_nearest hmem x.negative
  rw [← roundToQuantum_eq_nearest hx hk] at hrep
  have hsize : ((nearestEven x.absUnits (2 ^ k) * 2 ^ k : Nat) : ℚ) * 2 ^ (-(f.unitExponent : ℤ)) =
      ((nearestEven x.absUnits (2 ^ k) : Nat) : ℤ) * 2 ^ q := by
    rw [mul_two_pow_mul_unit _ hk, Int.cast_natCast]
  rw [toRat_eq_scaled]
  unfold scaled at hrep ⊢
  cases hsign : x.negative with
  | false =>
    refine ⟨(nearestEven x.absUnits (2 ^ k) : Nat), by simpa using hnearest, ?_⟩
    simpa only [hsign, hsize, if_neg Bool.false_ne_true] using hrep
  | true =>
    refine ⟨-(nearestEven x.absUnits (2 ^ k) : Nat), by simpa using hnearest.neg, ?_⟩
    simpa only [hsign, hsize, if_pos, neg_mul, Int.cast_neg] using hrep

/-! ## Normal values -/

/-- A normal value lies between two powers of two, by its exponent. -/
theorem abs_toRat_of_normal (hx : x.category = .normal) :
    2 ^ x.exponent ≤ |x.toRat| ∧ |x.toRat| < 2 ^ (x.exponent + 1) := by
  obtain ⟨hfinite, hb⟩ := category_eq_normal_iff.1 hx
  have hne : x.absUnits ≠ 0 := by
    have := (category_eq_normal_iff_le hfinite).1 hx
    have := Nat.two_pow_pos f.mantissaBits
    omega
  have hunit : (0 : ℚ) < 2 ^ (-(f.unitExponent : ℤ)) := by positivity
  have hlow := Target.two_pow_mul_unit x.absUnits.log2 f.unitExponent
  have hupp := Target.two_pow_mul_unit (x.absUnits.log2 + 1) f.unitExponent
  have hlog := log2_absUnits hb
  rw [show ((x.absUnits.log2 : Nat) : ℤ) - f.unitExponent = x.exponent by omega] at hlow
  rw [show ((x.absUnits.log2 + 1 : Nat) : ℤ) - f.unitExponent = x.exponent + 1 by omega] at hupp
  rw [abs_toRat, ← hlow, ← hupp]
  constructor
  · exact mul_le_mul_of_nonneg_right (by exact_mod_cast Nat.log2_self_le hne) hunit.le
  · exact mul_lt_mul_of_pos_right (by exact_mod_cast Nat.lt_log2_self) hunit

/-- A number with a sign is the nearest multiple if its size is. -/
theorem isNearestMultiple_toRat {q k : ℤ} (h : IsNearestMultiple q |x.toRat| k) :
    IsNearestMultiple q x.toRat (if x.negative then -k else k) := by
  have habs := abs_toRat x
  have hscaled := toRat_eq_scaled x
  unfold scaled at hscaled
  cases hsign : x.negative with
  | false =>
    rw [hsign, if_neg Bool.false_ne_true, ← habs] at hscaled
    rwa [if_neg Bool.false_ne_true, hscaled]
  | true =>
    rw [hsign, if_pos rfl, neg_mul, ← habs] at hscaled
    rw [if_pos rfl, hscaled]
    exact h.neg

/-- The powers of two of the normal range, and the first one that is too large. -/
theorem represents_exp2 (s : Bool) {e : ℤ} (hlow : 2 - (f.bias : ℤ) ≤ e) (hupp : e ≤ f.bias + 1) :
    ((exp2 f e).withSign s).Represents (if s then -2 ^ e else 2 ^ e) := by
  have hunit := f.unitExponent_add_one
  have habs : |if s then -(2 : ℚ) ^ e else 2 ^ e| = 2 ^ e := by
    have : (0 : ℚ) < 2 ^ e := by positivity
    cases s
    · exact abs_of_pos this
    · rw [if_pos rfl, abs_neg, abs_of_pos this]
  refine ⟨fun hbig => ?_, fun hsmall => ?_⟩
  · rw [habs, zpow_le_zpow_iff_right₀ (by norm_num)] at hbig
    rw [exp2, if_pos (by rw [f.two_pow_exponentBits_int]; omega)]
    exact isInfinite_infinity
  · rw [habs, zpow_lt_zpow_iff_right₀ (by norm_num)] at hsmall
    obtain ⟨n, hn⟩ : ∃ n : Nat, (n : ℤ) = e + f.unitExponent :=
      ⟨(e + f.unitExponent).toNat, by omega⟩
    obtain ⟨hfinite, hunits⟩ : ((exp2 f e).withSign s).isFinite ∧
        ((exp2 f e).withSign s).absUnits = 2 ^ n := exp2_eq_exact hn (by omega)
    refine ⟨hfinite, ?_⟩
    have hpow := Target.two_pow_mul_unit n f.unitExponent
    rw [hn, add_sub_cancel_right] at hpow
    rw [toRat_eq_scaled, hunits]
    unfold scaled
    cases s
    · simpa [withSign] using hpow
    · simpa [withSign] using hpow

end Binary

/-! ## Rounding under a policy -/

/-- The exponent of the quantum of a normal value of exponent `e`: its last place under the
    precision, but no less than an absolute bound. -/
def ErrorPolicy.quantumAt (policy : ErrorPolicy) (f : Format) (precision : Nat) (e : ℤ) : ℤ :=
  match policy.mode with
  | .relative => e - precision
  | .absolute => max policy.absoluteExponent (e - f.mantissaBits)
  | .combined => max policy.absoluteExponent (e - precision)

namespace Binary

variable {f : Format} {x : Binary f} {policy : ErrorPolicy} {precision : Nat}

/-- From the bound on, the bits that are kept end at the quantum. -/
theorem quantumAt_of_bound {e : ℤ}
    (hbound : policy.mode = .relative ∨ policy.absoluteExponent ≤ e) :
    policy.quantumAt f precision e = e - policy.keptAt f precision e := by
  unfold ErrorPolicy.quantumAt ErrorPolicy.keptAt ErrorPolicy.kept
  cases hmode : policy.mode with
  | relative =>
    dsimp only
    omega
  | absolute | combined =>
    have ha := hbound.resolve_left (by simp [hmode])
    dsimp only
    omega

/-- Below the bound, the bound is the quantum. -/
theorem quantumAt_of_lt {e : ℤ} (hmode : policy.mode ≠ .relative)
    (hbound : e < policy.absoluteExponent) :
    policy.quantumAt f precision e = policy.absoluteExponent := by
  unfold ErrorPolicy.quantumAt
  cases h : policy.mode with
  | relative => exact absurd h hmode
  | absolute | combined =>
    dsimp only
    omega

theorem round_represents_of_bound (hp : precision ≤ f.mantissaBits) (hx : x.category = .normal)
    (hbound : policy.mode = .relative ∨ policy.absoluteExponent ≤ x.exponent) :
    ∃ k : ℤ, IsNearestMultiple (policy.quantumAt f precision x.exponent) x.toRat k ∧
      (x.round precision policy).Represents (k * 2 ^ policy.quantumAt f precision x.exponent) := by
  have hkept := keptAt_le hp hbound
  have hquantum := quantum_of_normal hx hkept
  rw [quantumDepth_eq (Nat.le_trans hkept f.mantissaBits_le)] at hquantum
  rw [round_of_bound hx hbound, quantumAt_of_bound hbound, roundNormal,
    quantumDepth_eq (Nat.le_trans hkept f.mantissaBits_le)]
  exact roundToQuantum_represents (category_eq_normal_iff.1 hx).1 hquantum

theorem round_represents_of_far_below (precision : Nat) (hx : x.category = .normal)
    (hmode : policy.mode ≠ .relative) (hbound : x.exponent + 2 ≤ policy.absoluteExponent) :
    IsNearestMultiple policy.absoluteExponent x.toRat 0 ∧
      (x.round precision policy).Represents 0 := by
  have hbounds := abs_toRat_of_normal hx
  have hpow : (0 : ℚ) < 2 ^ policy.absoluteExponent := by positivity
  have hhalf : |x.toRat| / 2 ^ policy.absoluteExponent < 1 / 2 := by
    rw [div_lt_iff₀ hpow]
    calc |x.toRat| < 2 ^ (x.exponent + 1) := hbounds.2
      _ ≤ 2 ^ (policy.absoluteExponent - 1) := zpow_le_zpow_right₀ (by norm_num) (by omega)
      _ = 1 / 2 * 2 ^ policy.absoluteExponent := by
        rw [zpow_sub₀ (by norm_num), zpow_one]
        ring
  have hdist : |x.toRat / 2 ^ policy.absoluteExponent - (0 : ℤ)| < 1 / 2 := by
    rwa [Int.cast_zero, sub_zero, abs_div, abs_of_pos hpow]
  refine ⟨.of_half hdist.le fun h => absurd h hdist.ne, ?_⟩
  rw [round_of_far_below hx hmode hbound]
  have hzero := represents_nearest (f := f) (Grid.mem_zero _) x.negative
  rw [nearest_zero_eq_zero] at hzero
  simpa [scaled] using hzero

theorem represents_of_just_below (precision : Nat) (hx : x.category = .normal)
    (hmode : policy.mode ≠ .relative) (hbound : x.exponent + 1 = policy.absoluteExponent) :
    (x.round precision policy).Represents
      (if x.negative then -2 ^ policy.absoluteExponent else 2 ^ policy.absoluteExponent) := by
  have hfinite := (category_eq_normal_iff.1 hx).1
  have hb := (category_eq_normal_iff.1 hx).2
  have hle := biasedExponent_le hfinite
  have hexponent : x.exponent = x.biasedExponent - f.bias := rfl
  rw [round_of_just_below hx hmode hbound]
  exact represents_exp2 x.negative (by omega) (by omega)

/-- From half the bound up to it, all but the half itself is nearer to the bound than to zero. -/
theorem isNearestMultiple_of_just_below (hx : x.category = .normal)
    (hbound : x.exponent + 1 = policy.absoluteExponent)
    (hne : |x.toRat| ≠ 2 ^ (policy.absoluteExponent - 1)) :
    IsNearestMultiple policy.absoluteExponent |x.toRat| 1 := by
  obtain ⟨hlow, hupp⟩ := abs_toRat_of_normal hx
  have hpow : (0 : ℚ) < 2 ^ policy.absoluteExponent := by positivity
  have hstart : (2 : ℚ) ^ x.exponent = 1 / 2 * 2 ^ policy.absoluteExponent := by
    rw [show x.exponent = policy.absoluteExponent - 1 by omega, zpow_sub₀ (by norm_num), zpow_one]
    ring
  rw [show policy.absoluteExponent - 1 = x.exponent by omega] at hne
  have hlt := lt_of_le_of_ne hlow hne.symm
  rw [hstart, ← lt_div_iff₀ hpow] at hlt
  rw [hbound, ← div_lt_one hpow] at hupp
  have hdist : |(|x.toRat| / 2 ^ policy.absoluteExponent) - (1 : ℤ)| < 1 / 2 := by
    rw [Int.cast_one, abs_lt]
    constructor <;> linarith
  exact .of_half hdist.le fun h => absurd h hdist.ne

/-- A normal value is rounded to the nearest multiple of its quantum, ties to even, and keeps its
    sign.  The one exception is half an absolute bound, which goes to the bound. -/
theorem round_nearest_multiple (hp : precision ≤ f.mantissaBits) (hx : x.category = .normal)
    (policy : ErrorPolicy) :
    (x.round precision policy).negative = x.negative ∧
      ((policy.boundsAbsolute = true → |x.toRat| ≠ 2 ^ (policy.absoluteExponent - 1)) →
        ∃ k : ℤ, IsNearestMultiple (policy.quantumAt f precision x.exponent) x.toRat k ∧
          (x.round precision policy).Represents
            (k * 2 ^ policy.quantumAt f precision x.exponent)) ∧
      (policy.boundsAbsolute = true → |x.toRat| = 2 ^ (policy.absoluteExponent - 1) →
        (x.round precision policy).Represents
          (if x.negative then -2 ^ policy.absoluteExponent else 2 ^ policy.absoluteExponent)) := by
  have hmode : policy.boundsAbsolute = true ↔ policy.mode ≠ .relative := by
    unfold ErrorPolicy.boundsAbsolute
    cases policy.mode <;> simp
  obtain ⟨hlow, hupp⟩ := abs_toRat_of_normal hx
  rw [hmode]
  refine ⟨negative_round x precision policy, fun hne => ?_, fun habsolute heq => ?_⟩
  · by_cases hbound : policy.mode = .relative ∨ policy.absoluteExponent ≤ x.exponent
    · exact round_represents_of_bound hp hx hbound
    obtain ⟨habsolute, habove⟩ := not_or.1 hbound
    rw [quantumAt_of_lt habsolute (by omega)]
    by_cases hfar : x.exponent + 2 ≤ policy.absoluteExponent
    · obtain ⟨hnearest, hrep⟩ := round_represents_of_far_below precision hx habsolute hfar
      exact ⟨0, hnearest, by simpa using hrep⟩
    · have hnearest := isNearestMultiple_of_just_below hx (by omega) (hne habsolute)
      refine ⟨_, isNearestMultiple_toRat hnearest, ?_⟩
      have hrep := represents_of_just_below precision hx habsolute (by omega)
      cases hsign : x.negative <;> simpa [hsign] using hrep
  · -- half the bound is the start of the binade below it
    rw [heq, zpow_le_zpow_iff_right₀ (by norm_num)] at hlow
    rw [heq, zpow_lt_zpow_iff_right₀ (by norm_num)] at hupp
    exact represents_of_just_below precision hx habsolute (by omega)

/-- Under an absolute bound of `2 ^ -20`, three quarters of the bound go to the bound, the nearest
    multiple of it, and so does half the bound, which is no nearer to it than to zero. -/
theorem round_nearest_multiple_just_below :
    10 ≤ Format.mantissaBits .binary64 ∧
      (ofBits .binary64 0xbea8000000000000).category = .normal ∧
      (ofBits .binary64 0xbea8000000000000).round 10 ⟨.absolute, -20⟩ =
        ofBits .binary64 0xbeb0000000000000 ∧
      (∃ k : ℤ, IsNearestMultiple (-20) (ofBits .binary64 0xbea8000000000000).toRat k ∧
        (ofBits .binary64 0xbeb0000000000000).Represents (k * 2 ^ (-20 : ℤ))) ∧
      (ofBits .binary64 0x3ea0000000000000).category = .normal ∧
      (ofBits .binary64 0x3ea0000000000000).round 10 ⟨.absolute, -20⟩ =
        ofBits .binary64 0x3eb0000000000000 ∧
      (ofBits .binary64 0x3eb0000000000000).Represents (2 ^ (-20 : ℤ)) := by
  have hprecision : 10 ≤ Format.mantissaBits .binary64 := by decide
  have hthree : (ofBits .binary64 0xbea8000000000000).category = .normal := by decide +kernel
  have hthree' : (ofBits .binary64 0xbea8000000000000).round 10 ⟨.absolute, -20⟩ =
      ofBits .binary64 0xbeb0000000000000 := by decide +kernel
  have hhalf : (ofBits .binary64 0x3ea0000000000000).category = .normal := by decide +kernel
  have hhalf' : (ofBits .binary64 0x3ea0000000000000).round 10 ⟨.absolute, -20⟩ =
      ofBits .binary64 0x3eb0000000000000 := by decide +kernel
  have hunits : (ofBits .binary64 0xbea8000000000000).absUnits = 3 * 2 ^ 1052 := by
    decide +kernel
  have hunits' : (ofBits .binary64 0x3ea0000000000000).absUnits = 2 ^ 1053 := by decide +kernel
  have hsize : |(ofBits .binary64 0xbea8000000000000).toRat| = 3 * 2 ^ (-22 : ℤ) := by
    rw [abs_toRat, hunits, Nat.cast_mul, mul_assoc, Target.two_pow_mul_unit]
    rfl
  have hsize' : |(ofBits .binary64 0x3ea0000000000000).toRat| = 2 ^ (-21 : ℤ) := by
    rw [abs_toRat, hunits', Target.two_pow_mul_unit]
    rfl
  have hnearest := (round_nearest_multiple hprecision hthree ⟨.absolute, -20⟩).2.1
    (fun _ => by rw [hsize]; norm_num)
  have hexcept := (round_nearest_multiple hprecision hhalf ⟨.absolute, -20⟩).2.2 rfl
    (by rw [hsize']; norm_num)
  rw [hthree'] at hnearest
  rw [hhalf'] at hexcept
  exact ⟨hprecision, hthree, hthree', hnearest, hhalf, hhalf', hexcept⟩

end Binary

end VariablePrecision
