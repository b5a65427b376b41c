/-
  VariablePrecision.Proofs.Binary.Stable

  Values that the target holds are left alone.

  Clamping a value rounds it to a quantum that depends on its exponent, on the target
  and on the policy.  The outcome is a multiple of that quantum, in the same binade or
  at the start of the next one, and there the quantum is no coarser than the outcome
  itself.  Hence clamping the outcome again finds nothing to round: on the same side
  (`clamp_clamp`), and as an operand where it was a result
  (`clamp_operand_clamp_result`).

  Two things could spoil this.  An operand below the normal range may be flushed though
  no result was, and an absolute bound above the normal range is rounded to differently
  on its two sides; `Context.Steady` excludes both.
-/

import VariablePrecision.Proofs.Binary.Clamp

namespace VariablePrecision

/-- Operands are flushed only if results are, and an absolute error is bounded below the normal
    range only. -/
structure Context.Steady (ctx : Context) (t : Target) : Prop where
  flushes : ctx.daz = true → ctx.ftz = true
  bound : ctx.policy.mode = .relative ∨ ctx.policy.absoluteExponent ≤ t.emin

/-- How many bits behind the leading one are kept at an exponent of the normal range. -/
def ErrorPolicy.kept (policy : ErrorPolicy) (f : Format) (t : Target) (e : Int) : Int :=
  match policy.mode with
  | .relative => t.precision
  | .absolute => min (e - policy.absoluteExponent) f.mantissaBits
  | .combined => min (e - policy.absoluteExponent) t.precision

/-- How many bits are kept behind the place of the least normal values, below these. -/
def ErrorPolicy.keptBelow (policy : ErrorPolicy) (t : Target) : Nat :=
  if policy.boundsAbsolute then min policy.absoluteExponent.natAbs t.precision else t.precision

namespace Binary

variable {f : Format} {x : Binary f} {t : Target} {ctx : Context} {policy : ErrorPolicy}

/-- The exponent, in units, of the quantum that a value is rounded to. -/
def quantum (x : Binary f) (t : Target) (policy : ErrorPolicy) : Nat :=
  ((if x.exponent < t.emin then t.emin - policy.keptBelow t
    else x.exponent - policy.kept f t x.exponent) + f.unitExponent).toNat

/-! ## The quantum -/

/-- Where an absolute bound is not above the value, no more than all bits are kept. -/
theorem kept_bounds (ht : t.precision ≤ f.mantissaBits) {e : Int}
    (hbound : policy.mode = .relative ∨ policy.absoluteExponent ≤ e) :
    0 ≤ policy.kept f t e ∧ policy.kept f t e ≤ f.mantissaBits := by
  unfold ErrorPolicy.kept
  cases hmode : policy.mode with
  | relative => constructor <;> dsimp only <;> omega
  | absolute =>
    have ha := hbound.resolve_left (by simp [hmode])
    constructor <;> dsimp only <;> omega
  | combined =>
    have ha := hbound.resolve_left (by simp [hmode])
    constructor <;> dsimp only <;> omega

/-- A bound below the normal range is below every value of it. -/
theorem bound_of_le (hbound : policy.mode = .relative ∨ policy.absoluteExponent ≤ t.emin)
    {e : Int} (he : t.emin ≤ e) : policy.mode = .relative ∨ policy.absoluteExponent ≤ e :=
  hbound.imp_right fun ha => Int.le_trans ha he

theorem keptBelow_le (t : Target) (policy : ErrorPolicy) :
    policy.keptBelow t ≤ t.precision := by
  unfold ErrorPolicy.keptBelow
  split <;> omega

theorem quantum_of_lt (ht : t.Valid f) (he : x.exponent < t.emin) (policy : ErrorPolicy) :
    (x.quantum t policy : Int) = t.emin - policy.keptBelow t + f.unitExponent := by
  have hkept := keptBelow_le t policy
  have hprecision := ht.precision_le
  have hemax := ht.emax_le_bias
  have hunit := f.unitExponent_add_one
  have hemin : t.emin = 1 - t.emax := rfl
  rw [quantum, if_pos he]
  omega

theorem quantum_of_le (ht : t.Valid f)
    (hbound : policy.mode = .relative ∨ policy.absoluteExponent ≤ t.emin)
    (he : t.emin ≤ x.exponent) :
    (x.quantum t policy : Int) = x.exponent - policy.kept f t x.exponent + f.unitExponent := by
  have hkept := kept_bounds ht.precision_le (bound_of_le hbound he)
  have hemax := ht.emax_le_bias
  have hunit := f.unitExponent_add_one
  have hemin : t.emin = 1 - t.emax := rfl
  rw [quantum, if_neg (by omega)]
  omega

/-! ## The two roundings -/

theorem roundSubnormal_eq_nearest (ht : t.Valid f) (hx : x.isFinite) (he : x.exponent < t.emin) :
    x.roundSubnormal t.emin t.precision policy = nearest f x.negative
      (nearestEven x.absUnits (2 ^ x.quantum t policy) * 2 ^ x.quantum t policy) 1 := by
  have hdepth : quantumDepth (policy.keptBelow t) = policy.keptBelow t :=
    quantumDepth_eq (Nat.le_trans (keptBelow_le t policy)
      (Nat.le_trans ht.precision_le f.mantissaBits_le))
  have hquantum := quantum_of_lt ht he policy
  rw [roundSubnormal, if_pos hx, roundDenormal]
  change x.roundToQuantum (t.emin - quantumDepth (policy.keptBelow t)) = _
  rw [hdepth]
  exact roundToQuantum_eq_nearest hx (by omega)

/-- A normal value that an absolute bound is not above keeps as many bits as the bound asks for,
    and at least its leading one. -/
theorem round_eq_roundNormal (hx : x.category = .normal)
    (hbound : policy.mode = .relative ∨ policy.absoluteExponent ≤ x.exponent) :
    x.round t.precision policy = x.roundNormal (policy.kept f t x.exponent).toNat := by
  unfold round ErrorPolicy.kept ErrorPolicy.boundsAbsolute
  rw [hx]
  cases hmode : policy.mode with
  | relative => simp
  | absolute =>
    have ha := hbound.resolve_left (by simp [hmode])
    have habove : ¬ x.exponent - policy.absoluteExponent ≤ -2 := by omega
    have habove' : ¬ x.exponent - policy.absoluteExponent = -1 := by omega
    simp [roundAbsolute, habove, habove', hmode]
  | combined =>
    have ha := hbound.resolve_left (by simp [hmode])
    have habove : ¬ x.exponent - policy.absoluteExponent ≤ -2 := by omega
    have habove' : ¬ x.exponent - policy.absoluteExponent = -1 := by omega
    simp [roundAbsolute, habove, habove', hmode]

theorem round_eq_nearest (ht : t.Valid f)
    (hbound : policy.mode = .relative ∨ policy.absoluteExponent ≤ t.emin) (hx : x.isFinite)
    (he : t.emin ≤ x.exponent) :
    x.round t.precision policy = nearest f x.negative
      (nearestEven x.absUnits (2 ^ x.quantum t policy) * 2 ^ x.quantum t policy) 1 := by
  have hkept := kept_bounds ht.precision_le (bound_of_le hbound he)
  have hdepth : quantumDepth (policy.kept f t x.exponent).toNat =
      (policy.kept f t x.exponent).toNat :=
    quantumDepth_eq (by have := f.mantissaBits_le; omega)
  have hquantum := quantum_of_le ht hbound he
  have hcategory := category_eq_normal hx (biasedExponent_ne_zero ht he)
  rw [round_eq_roundNormal hcategory (bound_of_le hbound he), roundNormal, hdepth]
  exact roundToQuantum_eq_nearest hx (by omega)

/-! ## The outcome -/

/-- The units of the outcome, before its range is looked at. -/
def rounded (x : Binary f) (t : Target) (policy : ErrorPolicy) : Nat :=
  nearestEven x.absUnits (2 ^ x.quantum t policy) * 2 ^ x.quantum t policy

theorem dvd_rounded (x : Binary f) (t : Target) (policy : ErrorPolicy) :
    2 ^ x.quantum t policy ∣ x.rounded t policy :=
  Nat.dvd_mul_left _ _

theorem rounded_of_dvd (h : 2 ^ x.quantum t policy ∣ x.absUnits) :
    x.rounded t policy = x.absUnits :=
  Grid.nearestEven_two_pow_of_dvd h

/-- The exponent, in units, of the least normal values of a target. -/
theorem emin_units (ht : t.Valid f) :
    (((t.grid f).lowest + t.precision : Nat) : Int) = t.emin + f.unitExponent := by
  have hlow := ht.lowest_eq
  have hemin : t.emin = 1 - t.emax := rfl
  omega

/-- Below the normal range the outcome is at most the least normal value. -/
theorem rounded_le_of_lt (ht : t.Valid f) (he : x.exponent < t.emin) (policy : ErrorPolicy) :
    x.rounded t policy ≤ 2 ^ ((t.grid f).lowest + t.precision) := by
  have hlt := mt (emin_le_exponent_iff (x := x) ht).2 (by omega)
  have hquantum := quantum_of_lt ht he policy
  have hunits := emin_units ht
  exact Grid.nearestEven_two_pow_le (by omega) (by omega)

/-- In the normal range the outcome is between the two ends of the binade. -/
theorem rounded_bounds (ht : t.Valid f)
    (hbound : policy.mode = .relative ∨ policy.absoluteExponent ≤ t.emin)
    (he : t.emin ≤ x.exponent) :
    2 ^ x.absUnits.log2 ≤ x.rounded t policy ∧ x.rounded t policy ≤ 2 ^ (x.absUnits.log2 + 1) := by
  have hlog := log2_absUnits (biasedExponent_ne_zero ht he)
  have hkept := kept_bounds ht.precision_le (bound_of_le hbound he)
  have hquantum := quantum_of_le ht hbound he
  have hpos : x.absUnits ≠ 0 := by
    have := (emin_le_exponent_iff (x := x) ht).1 he
    have := Nat.two_pow_pos ((t.grid f).lowest + t.precision)
    omega
  exact ⟨Grid.two_pow_le_nearestEven (by omega) (Nat.log2_self_le hpos),
    Grid.nearestEven_two_pow_le (by omega) (Nat.le_of_lt Nat.lt_log2_self)⟩

/-- The outcome of a value of the normal range is in the normal range. -/
theorem le_rounded (ht : t.Valid f)
    (hbound : policy.mode = .relative ∨ policy.absoluteExponent ≤ t.emin)
    (he : t.emin ≤ x.exponent) :
    2 ^ ((t.grid f).lowest + t.precision) ≤ x.rounded t policy := by
  have hlog := Grid.le_log2_of_le ((emin_le_exponent_iff ht).1 he)
  exact Nat.le_trans (Nat.pow_le_pow_right Nat.two_pos hlog) (rounded_bounds ht hbound he).1

/-- The native format has the outcome of a value below the normal range. -/
theorem mem_rounded_of_lt (ht : t.Valid f) (he : x.exponent < t.emin) (policy : ErrorPolicy) :
    f.grid.Mem (x.rounded t policy) := by
  have hprecision := ht.precision_le
  have hquantum := quantum_of_lt ht he policy
  have hkept := keptBelow_le t policy
  have hunits := emin_units ht
  exact Grid.mem_of_dvd (Nat.zero_le _) (dvd_rounded x t policy) (rounded_le_of_lt ht he policy)
    (by rw [Format.grid_precision]; omega)

/-- The outcome is a number of units that the native format has. -/
theorem mem_rounded (ht : t.Valid f)
    (hbound : policy.mode = .relative ∨ policy.absoluteExponent ≤ t.emin) :
    f.grid.Mem (x.rounded t policy) := by
  by_cases he : x.exponent < t.emin
  · exact mem_rounded_of_lt ht he policy
  · have he' : t.emin ≤ x.exponent := by omega
    have hlog := log2_absUnits (biasedExponent_ne_zero ht he')
    have hquantum := quantum_of_le ht hbound he'
    have hkept := kept_bounds ht.precision_le (bound_of_le hbound he')
    exact Grid.mem_of_dvd (Nat.zero_le _) (dvd_rounded x t policy)
      (rounded_bounds ht hbound he').2 (by rw [Format.grid_precision]; omega)

/-! ## Clamping -/

/-- Clamping a value of the range that is not flushed. -/
theorem clamp_eq_rounded {side : Side} (ht : t.Valid f)
    (hbound : ctx.policy.mode = .relative ∨ ctx.policy.absoluteExponent ≤ t.emin)
    (hx : x.isFinite) (hz : x.isZero = false) (hmax : x.exponent ≤ t.emax)
    (hflush : ¬ (x.exponent < t.emin ∧ ctx.flushes side)) :
    x.clamp side t ctx =
      if 2 ^ (t.top f + 1) ≤ x.rounded t ctx.policy then infinity f x.negative
      else nearest f x.negative (x.rounded t ctx.policy) 1 := by
  have hcarry := nearest_of_carry (s := x.negative) ht
    (Grid.round_one_of_mem (mem_rounded (x := x) ht hbound))
  have hrounded : (if x.exponent < t.emin then x.roundSubnormal t.emin t.precision ctx.policy
      else x.round t.precision ctx.policy) =
        nearest f x.negative (x.rounded t ctx.policy) 1 := by
    by_cases he : x.exponent < t.emin
    · rw [if_pos he, roundSubnormal_eq_nearest ht hx he, rounded]
    · rw [if_neg he, round_eq_nearest ht hbound hx (by omega), rounded]
  unfold clamp
  rw [if_neg (by simp [hx, hz]), if_neg (by omega), if_neg hflush]
  dsimp only
  rw [hrounded, hcarry]

/-- A value that is neither flushed nor carried beyond the range becomes its outcome. -/
theorem absUnits_clamp {side : Side} (ht : t.Valid f)
    (hbound : ctx.policy.mode = .relative ∨ ctx.policy.absoluteExponent ≤ t.emin)
    (hx : x.isFinite) (hz : x.isZero = false) (hmax : x.exponent ≤ t.emax)
    (hflush : ¬ (x.exponent < t.emin ∧ ctx.flushes side))
    (hlt : x.rounded t ctx.policy < 2 ^ (t.top f + 1)) :
    (x.clamp side t ctx).isFinite ∧ (x.clamp side t ctx).absUnits = x.rounded t ctx.policy := by
  have hround := Grid.round_one_of_mem (mem_rounded (x := x) ht hbound)
  have htop := ht.top_lt
  rw [clamp_eq_rounded ht hbound hx hz hmax hflush, if_neg (by omega)]
  exact ⟨isFinite_nearest Nat.one_pos (by rw [hround]; omega), by
    rw [absUnits_nearest Nat.one_pos (by rw [hround]; omega), hround]⟩

/-- Multiples of their quantum are left alone. -/
theorem clamp_of_dvd {side : Side} (ht : t.Valid f)
    (hbound : ctx.policy.mode = .relative ∨ ctx.policy.absoluteExponent ≤ t.emin)
    (hx : x.isFinite) (hmax : x.exponent ≤ t.emax)
    (hflush : ¬ (x.exponent < t.emin ∧ ctx.flushes side))
    (hdvd : 2 ^ x.quantum t ctx.policy ∣ x.absUnits) : x.clamp side t ctx = x := by
  cases hz : x.isZero with
  | true => exact clamp_of_special (.inr hz)
  | false =>
    have hlt := mt (emax_lt_exponent_iff (x := x) ht).2 (by omega)
    rw [clamp_eq_rounded ht hbound hx hz hmax hflush, rounded_of_dvd hdvd, if_neg hlt,
      nearest_absUnits hx]

/-! ## Clamping again -/

/-- Where a binade starts, the value is a multiple of its own quantum. -/
theorem quantum_dvd_two_pow (ht : t.Valid f)
    (hbound : policy.mode = .relative ∨ policy.absoluteExponent ≤ t.emin) {e : Nat}
    (hx : x.absUnits = 2 ^ e) (he : (t.grid f).lowest + t.precision ≤ e) :
    2 ^ x.quantum t policy ∣ x.absUnits := by
  have hexp : t.emin ≤ x.exponent := by
    rw [emin_le_exponent_iff ht, hx]
    exact Nat.pow_le_pow_right Nat.two_pos he
  have hlog := log2_absUnits (biasedExponent_ne_zero ht hexp)
  rw [hx, Nat.log2_two_pow] at hlog
  have hkept := kept_bounds ht.precision_le (bound_of_le hbound hexp)
  have hquantum := quantum_of_le ht hbound hexp
  rw [hx]
  exact Nat.pow_dvd_pow 2 (by omega)

/-- The outcome of a rounding is a multiple of its own quantum. -/
theorem quantum_dvd_of_rounded {y : Binary f} (ht : t.Valid f)
    (hbound : policy.mode = .relative ∨ policy.absoluteExponent ≤ t.emin)
    (hy : y.absUnits = x.rounded t policy) : 2 ^ y.quantum t policy ∣ y.absUnits := by
  have hdvd := dvd_rounded x t policy
  rw [← hy] at hdvd
  by_cases he : x.exponent < t.emin
  · have hle := rounded_le_of_lt ht he policy
    rw [← hy] at hle
    rcases Nat.lt_or_eq_of_le hle with hlt | heq
    · -- still below the normal range, where there is one quantum
      have hye : y.exponent < t.emin := by
        have := mt (emin_le_exponent_iff (x := y) ht).1 (by omega)
        omega
      have hsame : y.quantum t policy = x.quantum t policy := by
        rw [quantum, quantum, if_pos he, if_pos hye]
      rwa [hsame]
    · exact quantum_dvd_two_pow ht hbound heq (Nat.le_refl _)
  · have he' : t.emin ≤ x.exponent := by omega
    obtain ⟨hge, hle⟩ := rounded_bounds ht hbound he'
    have hlog := log2_absUnits (biasedExponent_ne_zero ht he')
    have hlow := Grid.le_log2_of_le ((emin_le_exponent_iff ht).1 he')
    rw [← hy] at hge hle
    rcases Nat.lt_or_eq_of_le hle with hlt | heq
    · -- still in the binade, with its quantum
      have hylog : y.absUnits.log2 = x.absUnits.log2 :=
        Nat.le_antisymm (Grid.log2_le_of_lt hlt) (Grid.le_log2_of_le hge)
      have hye : t.emin ≤ y.exponent := by
        rw [emin_le_exponent_iff ht, hy]
        exact le_rounded ht hbound he'
      have hlog' := log2_absUnits (biasedExponent_ne_zero ht hye)
      have hsame : y.quantum t policy = x.quantum t policy := by
        rw [quantum, quantum, show y.exponent = x.exponent by omega]
      rwa [hsame]
    · exact quantum_dvd_two_pow ht hbound heq (by omega)

/-- Clamping leaves a clamped value alone, on every side that flushes values only if the first side
    does. -/
theorem clamp_clamp_of_flushes (ht : t.Valid f) (side side' : Side)
    (hbound : ctx.policy.mode = .relative ∨ ctx.policy.absoluteExponent ≤ t.emin)
    (hflushes : ctx.flushes side' → ctx.flushes side) (x : Binary f) :
    (x.clamp side t ctx).clamp side' t ctx = x.clamp side t ctx := by
  -- infinities, zeros and values that are no number pass through, on both sides
  by_cases hspecial : x.isFinite = false ∨ x.isZero = true
  · rw [clamp_of_special hspecial, clamp_of_special hspecial]
  obtain ⟨hx, hz⟩ : x.isFinite = true ∧ x.isZero = false := by simpa using hspecial
  by_cases hover : t.emax < x.exponent
  · rw [clamp_of_emax_lt hx hz hover]
    exact clamp_infinity
  by_cases hflush : x.exponent < t.emin ∧ ctx.flushes side
  · rw [clamp_of_flushes ht hx hz hflush]
    exact clamp_zero
  by_cases hcarry : 2 ^ (t.top f + 1) ≤ x.rounded t ctx.policy
  · rw [clamp_eq_rounded ht hbound hx hz (by omega) hflush, if_pos hcarry]
    exact clamp_infinity
  -- the outcome is a value of the format, so only its own quantum matters from here on
  obtain ⟨hy, hunits⟩ := absUnits_clamp ht hbound hx hz (by omega) hflush (by omega)
  generalize x.clamp side t ctx = y at hy hunits ⊢
  have hmax : y.exponent ≤ t.emax := by
    have := mt (emax_lt_exponent_iff (x := y) ht).1 (by omega)
    omega
  refine clamp_of_dvd ht hbound hy hmax ?_ (quantum_dvd_of_rounded ht hbound hunits)
  rintro ⟨hye, hflush'⟩
  -- a value that is flushed now was below the normal range before, and not flushed
  refine hflush ⟨?_, hflushes hflush'⟩
  by_contra he
  have hle := le_rounded (x := x) ht hbound (by omega)
  rw [← hunits, ← emin_le_exponent_iff ht] at hle
  omega

/-- A clamped result is left alone as an operand. -/
theorem clamp_operand_clamp_result (ht : t.Valid f) (hctx : ctx.Steady t) (x : Binary f) :
    (x.clamp .result t ctx).clamp .operand t ctx = x.clamp .result t ctx :=
  clamp_clamp_of_flushes ht .result .operand hctx.bound hctx.flushes x

/-- Clamping is a projection. -/
theorem clamp_clamp (ht : t.Valid f) (side : Side) (ctx : Context)
    (hbound : ctx.policy.mode = .relative ∨ ctx.policy.absoluteExponent ≤ t.emin)
    (x : Binary f) : (x.clamp side t ctx).clamp side t ctx = x.clamp side t ctx :=
  clamp_clamp_of_flushes ht side side hbound id x

/-- With the least normal value as absolute bound, the value just below it is rounded to it as a
    subnormal value of the target and is kept then as a normal one. -/
theorem clamp_clamp_least_normal :
    Target.Valid .binary32 ⟨10, 5⟩ ∧ (-14 : Int) ≤ Target.emin ⟨10, 5⟩ ∧
      (ofBits .binary32 0x387fffff).clamp .result ⟨10, 5⟩ { policy := ⟨.combined, -14⟩ } =
        ofBits .binary32 0x38800000 ∧
      (ofBits .binary32 0x38800000).clamp .result ⟨10, 5⟩ { policy := ⟨.combined, -14⟩ } =
        ofBits .binary32 0x38800000 := by
  have ht : Target.Valid .binary32 ⟨10, 5⟩ := ⟨by decide, by decide, by decide, by decide⟩
  have hbound : (-14 : Int) ≤ Target.emin ⟨10, 5⟩ := by decide
  have honce : (ofBits .binary32 0x387fffff).clamp .result ⟨10, 5⟩
      { policy := ⟨.combined, -14⟩ } = ofBits .binary32 0x38800000 := by decide +kernel
  have htwice := clamp_clamp ht .result { policy := ⟨.combined, -14⟩ } (.inr hbound)
    (ofBits .binary32 0x387fffff)
  rw [honce] at htwice
  exact ⟨ht, hbound, honce, htwice⟩

end Binary

end VariablePrecision
