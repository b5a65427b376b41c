/-
  VariablePrecision.Proofs.Binary.Monotone

  Clamping keeps the order of values.

  The order of values is that of their signed numbers of units, where an infinity counts as
  the first number of units that is too large (`ole_iff`).  Clamping keeps the sign, so that
  only sizes have to be compared (`absUnits_clamp_mono`).

  Below the normal range of the target, and in each binade of that range, there is one
  quantum, and rounding to one quantum keeps the order.  From one of these pieces to the
  next the order is kept because no rounding passes the end of its piece (`rounded_mono`).
-/

import VariablePrecision.Predicate
import VariablePrecision.Proofs.Binary.Containment

namespace VariablePrecision.Binary

variable {f : Format} {x y : Binary f} {t : Target} {ctx : Context} {policy : ErrorPolicy}

/-! ## The order of values -/

theorem rank_le_rank_iff : x.rank ≤ y.rank ↔ x.units ≤ y.units := by
  have hle : ∀ {x y : Binary f}, x.absUnits ≤ y.absUnits ↔ x.magnitude ≤ y.magnitude :=
    f.unitsAt_strictMono.le_iff_le
  have hzero : ∀ {x : Binary f}, x.absUnits = 0 ↔ x.magnitude = 0 := fun {x} => by
    rw [← isZero_iff, isZero, decide_eq_true_eq]
  have hxy := hle (x := x) (y := y)
  have hyx := hle (x := y) (y := x)
  have hx := hzero (x := x)
  have hy := hzero (x := y)
  unfold rank units
  cases x.negative <;> cases y.negative <;>
    simp only [Bool.false_eq_true, if_false, if_true] <;> omega

/-- One value is at most another one if both are numbers and their units are so. -/
theorem ole_iff :
    Predicate.ole.evaluate x y = true ↔
      x.isNaN = false ∧ y.isNaN = false ∧ x.units ≤ y.units := by
  rw [← rank_le_rank_iff, Predicate.evaluate, compare]
  cases hx : x.isNaN with
  | true => simp [Predicate.accepts]
  | false =>
    cases hy : y.isNaN with
    | true => simp [Predicate.accepts]
    | false =>
      rcases lt_trichotomy x.rank y.rank with h | h | h
      · simp [Predicate.accepts, compare_lt_iff_lt.2 h, h.le]
      · simp [Predicate.accepts, h]
      · simp [Predicate.accepts, compare_gt_iff_gt.2 h, h]

/-! ## Rounding -/

theorem rounded_mono_of_quantum (hq : x.quantum t policy = y.quantum t policy)
    (h : x.absUnits ≤ y.absUnits) : x.rounded t policy ≤ y.rounded t policy := by
  have hpos := Nat.two_pow_pos (y.quantum t policy)
  rw [rounded, rounded, hq]
  exact Nat.mul_le_mul_right _ (nearestEven_mono hpos hpos (Nat.mul_le_mul_right _ h))

/-- Greater sizes have greater outcomes. -/
theorem rounded_mono (ht : t.Valid f)
    (hbound : policy.mode = .relative ∨ policy.absoluteExponent ≤ t.emin)
    (h : x.absUnits ≤ y.absUnits) : x.rounded t policy ≤ y.rounded t policy := by
  have hexponent := exponent_mono h
  by_cases hy : y.exponent < t.emin
  · -- both are below the normal range, where there is one quantum
    have hx : x.exponent < t.emin := by omega
    exact rounded_mono_of_quantum (by rw [quantum, quantum, if_pos hx, if_pos hy]) h
  have hy' : t.emin ≤ y.exponent := by omega
  by_cases hx : x.exponent < t.emin
  · exact Nat.le_trans (rounded_le_of_lt ht hx policy) (le_rounded ht hbound hy')
  have hx' : t.emin ≤ x.exponent := by omega
  rcases Int.lt_or_eq_of_le hexponent with hlt | heq
  · -- the binade of `x` ends where that of `y` starts, or before
    have hlogx := log2_absUnits (biasedExponent_ne_zero ht hx')
    have hlogy := log2_absUnits (biasedExponent_ne_zero ht hy')
    calc x.rounded t policy ≤ 2 ^ (x.absUnits.log2 + 1) := (rounded_bounds ht hbound hx').2
      _ ≤ 2 ^ y.absUnits.log2 := Nat.pow_le_pow_right Nat.two_pos (by omega)
      _ ≤ y.rounded t policy := (rounded_bounds ht hbound hy').1
  · exact rounded_mono_of_quantum (by rw [quantum, quantum, heq]) h

/-! ## Clamping -/

/-- Greater sizes are clamped to greater sizes. -/
theorem absUnits_clamp_mono (ht : t.Valid f)
    (hbound : ctx.policy.mode = .relative ∨ ctx.policy.absoluteExponent ≤ t.emin) (side : Side)
    (hx : x.isNaN = false) (hy : y.isNaN = false) (h : x.absUnits ≤ y.absUnits) :
    (x.clamp side t ctx).absUnits ≤ (y.clamp side t ctx).absUnits := by
  have hle : (x.clamp side t ctx).absUnits ≤ f.unitBound :=
    absUnits_le_unitBound (by rwa [isNaN_clamp ht])
  have hexponent := exponent_mono h
  cases hyfinite : y.isFinite with
  | false =>
    have hinf := isInfinite_of_isFinite_eq_false hyfinite hy
    rwa [clamp_of_special (.inl hyfinite), absUnits_of_isInfinite hinf]
  | true =>
  have hxfinite : x.isFinite := isFinite_iff.2 (Nat.lt_of_le_of_lt h (isFinite_iff.1 hyfinite))
  cases hxz : x.isZero with
  | true =>
    rw [clamp_of_special (.inr hxz), isZero_iff.1 hxz]
    exact Nat.zero_le _
  | false =>
  have hyz : y.isZero = false := by
    rw [isZero_eq_false_iff] at hxz ⊢
    omega
  by_cases hover : t.emax < y.exponent
  · rwa [clamp_of_emax_lt hyfinite hyz hover, absUnits_of_isInfinite isInfinite_infinity]
  by_cases hflush : x.exponent < t.emin ∧ ctx.flushes side
  · rw [clamp_of_flushes ht hxfinite hxz hflush, absUnits_zero]
    exact Nat.zero_le _
  -- both are rounded; a carry of `x` beyond the range is one of `y`
  have hflush' : ¬ (y.exponent < t.emin ∧ ctx.flushes side) :=
    fun hy => hflush ⟨by omega, hy.2⟩
  have hrounded := rounded_mono ht hbound h
  by_cases hcarry : 2 ^ (t.top f + 1) ≤ y.rounded t ctx.policy
  · rwa [clamp_eq_rounded ht hbound hyfinite hyz (by omega) hflush', if_pos hcarry,
      absUnits_of_isInfinite isInfinite_infinity]
  · rw [(absUnits_clamp ht hbound hxfinite hxz (by omega) hflush (by omega)).2,
      (absUnits_clamp ht hbound hyfinite hyz (by omega) hflush' (by omega)).2]
    exact hrounded

/-- Clamping never reorders values. -/
theorem clamp_mono (ht : t.Valid f) (side : Side) (ctx : Context)
    (hbound : ctx.policy.mode = .relative ∨ ctx.policy.absoluteExponent ≤ t.emin)
    (h : Predicate.ole.evaluate x y = true) :
    Predicate.ole.evaluate (x.clamp side t ctx) (y.clamp side t ctx) = true := by
  obtain ⟨hx, hy, hunits⟩ := ole_iff.1 h
  have hxy := absUnits_clamp_mono ht hbound side hx hy
  have hyx := absUnits_clamp_mono ht hbound side hy hx
  rw [ole_iff, isNaN_clamp ht, isNaN_clamp ht]
  refine ⟨hx, hy, ?_⟩
  revert hunits
  unfold units
  rw [negative_clamp, negative_clamp]
  cases x.negative <;> cases y.negative <;>
    simp only [Bool.false_eq_true, if_false, if_true] <;> intro hunits
  · have := hxy (by omega)
    omega
  · -- a positive value is at most a negative one if both are zeros
    have hzero : ∀ z : Binary f, z.absUnits = 0 → (z.clamp side t ctx).absUnits = 0 :=
      fun z hz => by rwa [clamp_of_special (.inr (isZero_iff.2 hz))]
    rw [hzero x (by omega), hzero y (by omega)]
    omega
  · omega
  · have := hyx (by omega)
    omega

/-- The greatest value below the normal range of the target and the least value above its start are
    both rounded to the start, where the absolute bound is. -/
theorem clamp_mono_least_normal :
    Target.Valid .binary32 ⟨10, 5⟩ ∧ (-14 : Int) ≤ Target.emin ⟨10, 5⟩ ∧
      Predicate.ole.evaluate (ofBits .binary32 0x387fffff) (ofBits .binary32 0x38800001) = true ∧
      (ofBits .binary32 0x387fffff).clamp .result ⟨10, 5⟩ { policy := ⟨.absolute, -14⟩ } =
        ofBits .binary32 0x38800000 ∧
      (ofBits .binary32 0x38800001).clamp .result ⟨10, 5⟩ { policy := ⟨.absolute, -14⟩ } =
        ofBits .binary32 0x38800000 ∧
      Predicate.ole.evaluate (ofBits .binary32 0x38800000) (ofBits .binary32 0x38800000) =
        true := by
  have ht : Target.Valid .binary32 ⟨10, 5⟩ := ⟨by decide, by decide, by decide, by decide⟩
  have hbound : (-14 : Int) ≤ Target.emin ⟨10, 5⟩ := by decide
  have hle : Predicate.ole.evaluate (ofBits .binary32 0x387fffff) (ofBits .binary32 0x38800001) =
      true := by decide +kernel
  have hbelow : (ofBits .binary32 0x387fffff).clamp .result ⟨10, 5⟩
      { policy := ⟨.absolute, -14⟩ } = ofBits .binary32 0x38800000 := by decide +kernel
  have habove : (ofBits .binary32 0x38800001).clamp .result ⟨10, 5⟩
      { policy := ⟨.absolute, -14⟩ } = ofBits .binary32 0x38800000 := by decide +kernel
  have hmono := clamp_mono ht .result { policy := ⟨.absolute, -14⟩ } (.inr hbound) hle
  rw [hbelow, habove] at hmono
  exact ⟨ht, hbound, hle, hbelow, habove, hmono⟩

end VariablePrecision.Binary
