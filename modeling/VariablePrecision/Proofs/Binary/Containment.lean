/-
  VariablePrecision.Proofs.Binary.Containment

  What clamping can leave, under every policy.

  Clamping rounds first and looks at the range of the outcome then.  `Target.Admits` says
  which numbers of units a rounding can end in, before the upper end of the range is looked
  at: `admits_rounded_of_lt` for values below the normal range, `admits_round` for those of
  the normal range.  `clamp_outcome` puts the two together with the values that are not
  rounded at all.

  The last section says the same with rational numbers (`Contained`): the size of a clamped
  value, and the quantum that it is a multiple of.
-/

import VariablePrecision.Proofs.Binary.Outcome
import VariablePrecision.Proofs.Target.Rounds

namespace VariablePrecision

/-- Unless only the absolute error is bounded, no more bits are kept than asked for. -/
theorem ErrorPolicy.keptAt_le_precision {policy : ErrorPolicy} (h : policy.mode ≠ .absolute)
    (f : Format) (precision : Nat) (e : Int) : policy.keptAt f precision e ≤ precision := by
  unfold keptAt kept
  cases hmode : policy.mode with
  | relative => simp
  | absolute => exact absurd hmode h
  | combined =>
    dsimp only
    omega

/-- A number of units that rounding to a target can end in, before the upper end of the range is
    looked at. -/
structure Target.Admits (f : Format) (t : Target) (ctx : Context) (side : Side) (n : Nat) :
    Prop where
  /-- Below the normal range the number is a multiple of the least one. -/
  dvd : n < 2 ^ ((t.grid f).lowest + t.precision) → 2 ^ (t.grid f).lowest ∣ n
  /-- Where the relative error is bounded, the number has no more bits than the target. -/
  mem : ctx.policy.mode ≠ .absolute → (t.grid f).Mem n
  /-- Where values below the normal range are flushed, none is left there. -/
  normal : ctx.flushes side → n ≠ 0 → 2 ^ ((t.grid f).lowest + t.precision) ≤ n

namespace Binary

variable {f : Format} {x y : Binary f} {t : Target} {ctx : Context} {side : Side}

/-! ## Rounding -/

theorem admits_zero : t.Admits f ctx side 0 :=
  ⟨fun _ => Nat.dvd_zero _, fun _ => Grid.mem_zero _, fun _ h => absurd rfl h⟩

/-- Below the normal range of a target there is one quantum, which is no finer than the least number
    of the target. -/
theorem admits_rounded_of_lt (ht : t.Valid f) (he : x.exponent < t.emin)
    (hflush : ¬ ctx.flushes side) : t.Admits f ctx side (x.rounded t ctx.policy) := by
  have hkept := keptBelow_le t ctx.policy
  have hquantum := quantum_of_lt ht he ctx.policy
  have hunits := emin_units ht
  have hdvd : 2 ^ (t.grid f).lowest ∣ x.rounded t ctx.policy :=
    Nat.dvd_trans (Nat.pow_dvd_pow 2 (by omega)) (dvd_rounded x t ctx.policy)
  refine ⟨fun _ => hdvd, fun _ => ?_, fun h => absurd h hflush⟩
  exact Grid.mem_of_dvd (Nat.le_refl _) hdvd (rounded_le_of_lt ht he ctx.policy)
    (by rw [Target.grid_precision]; omega)

/-- A settled value of the normal range keeps at most as many bits as the target has, unless only
    the absolute error is bounded. -/
theorem Settled.admits (ht : t.Valid f) (hy : y.Settled t.precision ctx.policy)
    (he : t.emin ≤ y.exponent) : t.Admits f ctx side y.absUnits := by
  have hlow := (emin_le_exponent_iff ht).1 he
  have hlog := Grid.le_log2_of_le hlow
  refine ⟨fun h => by omega, fun hmode => ?_, fun _ _ => hlow⟩
  have hkept := ErrorPolicy.keptAt_le_precision hmode f t.precision y.exponent
  refine Nat.dvd_trans (Nat.pow_dvd_pow 2 (Grid.depth_le_iff.2 ?_)) hy.dvd
  rw [Target.grid_precision]
  omega

/-- Values below the normal range of a target are rounded to finite ones. -/
theorem absUnits_roundSubnormal (ht : t.Valid f) (hx : x.isFinite) (he : x.exponent < t.emin)
    (policy : ErrorPolicy) :
    (x.roundSubnormal t.emin t.precision policy).isFinite ∧
      (x.roundSubnormal t.emin t.precision policy).absUnits = x.rounded t policy := by
  have hround := Grid.round_one_of_mem (mem_rounded_of_lt (x := x) ht he policy)
  have hle := rounded_le_of_lt ht he policy
  have hbound : 2 ^ ((t.grid f).lowest + t.precision) < f.unitBound :=
    Nat.lt_of_lt_of_le (Nat.pow_lt_pow_right Nat.one_lt_two
      (Nat.lt_succ_of_le ht.lowest_add_precision_le)) ht.top_lt
  rw [roundSubnormal_eq_nearest ht hx he, ← rounded]
  exact ⟨isFinite_nearest Nat.one_pos (by omega), by
    rw [absUnits_nearest Nat.one_pos (by omega), hround]⟩

/-- Values of the normal range of a target are rounded to an infinity, to zero or within the normal
    range. -/
theorem admits_round (ht : t.Valid f) (hx : x.isFinite) (he : t.emin ≤ x.exponent)
    (side : Side) (ctx : Context) :
    x.round t.precision ctx.policy = infinity f x.negative ∨
      (x.round t.precision ctx.policy).isFinite ∧
        t.Admits f ctx side (x.round t.precision ctx.policy).absUnits := by
  have hnormal := category_eq_normal hx (biasedExponent_ne_zero ht he)
  rcases round_normal_outcome ht.precision_le hnormal ctx.policy with hinf | hzero | ⟨hle, hy⟩
  · exact .inl hinf
  · right
    rw [hzero, absUnits_zero]
    exact ⟨isFinite_zero, admits_zero⟩
  · exact .inr ⟨(category_eq_normal_iff.1 hy.normal).1, hy.admits ht (by omega)⟩

/-! ## Clamping -/

@[simp] theorem negative_clamp (x : Binary f) (side : Side) (t : Target) (ctx : Context) :
    (x.clamp side t ctx).negative = x.negative := by
  unfold clamp
  dsimp only
  split_ifs <;> simp

/-- A clamped value is infinite, or a finite value of the range that the target admits. -/
theorem clamp_outcome (ht : t.Valid f) (hx : x.isFinite) (side : Side) (ctx : Context) :
    x.clamp side t ctx = infinity f x.negative ∨
      (x.clamp side t ctx).isFinite ∧ (x.clamp side t ctx).absUnits < 2 ^ (t.top f + 1) ∧
        t.Admits f ctx side (x.clamp side t ctx).absUnits := by
  have hpos := Nat.two_pow_pos (t.top f + 1)
  by_cases hz : x.isZero = true
  · rw [clamp_of_special (.inr hz), isZero_iff.1 hz]
    exact .inr ⟨hx, hpos, admits_zero⟩
  rw [Bool.not_eq_true] at hz
  by_cases hover : t.emax < x.exponent
  · exact .inl (clamp_of_emax_lt hx hz hover)
  by_cases hflush : x.exponent < t.emin ∧ ctx.flushes side
  · rw [clamp_of_flushes ht hx hz hflush, absUnits_zero]
    exact .inr ⟨isFinite_zero, hpos, admits_zero⟩
  -- what is left is rounded, and its range is looked at afterwards
  have hrounded : ∀ y : Binary f, y = (if x.exponent < t.emin then
      x.roundSubnormal t.emin t.precision ctx.policy else x.round t.precision ctx.policy) →
      y = infinity f x.negative ∨ y.isFinite ∧ t.Admits f ctx side y.absUnits := by
    rintro y rfl
    split
    · next he =>
      obtain ⟨hfinite, hunits⟩ := absUnits_roundSubnormal ht hx he ctx.policy
      rw [hunits]
      exact .inr ⟨hfinite, admits_rounded_of_lt ht he fun h => hflush ⟨he, h⟩⟩
    · exact admits_round ht hx (by omega) side ctx
  rw [clamp, if_neg (by simp [hx, hz]), if_neg hover, if_neg hflush]
  dsimp only
  generalize (if x.exponent < t.emin then _ else _) = y at hrounded ⊢
  rcases hrounded y rfl with rfl | ⟨hfinite, hadmits⟩
  · simp
  · split
    · exact .inl rfl
    · next hcarry =>
      have hlt := mt (emax_lt_exponent_iff (x := y) ht).2 fun h => hcarry ⟨hfinite, h⟩
      exact .inr ⟨hfinite, by omega, hadmits⟩

/-- Clamping makes no value that is no number. -/
@[simp] theorem isNaN_clamp (ht : t.Valid f) (x : Binary f) (side : Side) (ctx : Context) :
    (x.clamp side t ctx).isNaN = x.isNaN := by
  by_cases hx : x.isFinite
  · rw [isNaN_eq_false hx]
    rcases clamp_outcome ht hx side ctx with hinf | ⟨hfinite, -, -⟩
    · rw [hinf, isNaN_infinity]
    · exact isNaN_eq_false hfinite
  · rw [clamp_of_special (.inl (by simpa using hx))]

/-! ## The range in numbers -/

/-- Sizes are compared with powers of two as units are. -/
theorem two_pow_le_abs_toRat_iff {e : ℤ} {n : Nat} (hn : (n : ℤ) = e + f.unitExponent) :
    2 ^ e ≤ |x.toRat| ↔ 2 ^ n ≤ x.absUnits := by
  have hunit : (0 : ℚ) < 2 ^ (-(f.unitExponent : ℤ)) := by positivity
  rw [abs_toRat, show e = (n : ℤ) - f.unitExponent by omega, ← Target.two_pow_mul_unit,
    mul_le_mul_iff_left₀ hunit, Nat.cast_le]

/-- Multiples of a power of two of units are multiples of the number that it stands for. -/
theorem exists_eq_mul_two_pow {e : ℤ} {n : Nat} (hn : (n : ℤ) = e + f.unitExponent)
    (hdvd : 2 ^ n ∣ x.absUnits) : ∃ k : ℤ, x.toRat = k * 2 ^ e := by
  rw [← natAbs_units, ← Int.natCast_dvd] at hdvd
  obtain ⟨k, hk⟩ := hdvd
  refine ⟨k, ?_⟩
  rw [toRat, hk, show e = (n : ℤ) - f.unitExponent by omega, ← Target.two_pow_mul_unit]
  push_cast
  ring

theorem holds_toRat (ht : t.Valid f) (hmem : (t.grid f).Mem x.absUnits)
    (hlt : x.absUnits < 2 ^ (t.top f + 1)) : t.Holds x.toRat := by
  have hholds := ht.holds_of_mem hmem hlt
  rw [toRat_eq_scaled]
  cases x.negative
  · simpa [scaled] using hholds
  · rw [scaled_true]
    simpa [scaled] using hholds.neg

/-- What a target can hold in the place of the value `x`. -/
structure Contained (t : Target) (ctx : Context) (side : Side) (x y : Binary f) : Prop where
  /-- The sign is kept, also on zero and on infinity. -/
  negative : y.negative = x.negative
  /-- What is neither zero nor infinite lies between the least subnormal number and the end of the
      last binade. -/
  range : y.isZero ∨ y.isInfinite ∨
    y.isFinite ∧ 2 ^ (t.emin - t.precision) ≤ |y.toRat| ∧ |y.toRat| < 2 ^ (t.emax + 1)
  /-- Where values below the normal range are flushed, none is left there. -/
  normal : ctx.flushes side → y.isFinite → y.isZero = false → 2 ^ t.emin ≤ |y.toRat|
  /-- Where the relative error is bounded, finite values are numbers of the target. -/
  holds : ctx.policy.mode ≠ .absolute → y.isFinite → t.Holds y.toRat
  /-- Where only the absolute error is bounded, they are so below the normal range. -/
  subnormal : ctx.policy.mode = .absolute → y.isFinite → |y.toRat| < 2 ^ t.emin →
    ∃ k : ℤ, y.toRat = k * 2 ^ (t.emin - t.precision)

theorem contained_of_isInfinite (hs : y.negative = x.negative) (hy : y.isInfinite) :
    Contained t ctx side x y := by
  have hfinite := isFinite_eq_false hy
  exact ⟨hs, .inr (.inl hy), fun _ h => by simp [hfinite] at h, fun _ h => by simp [hfinite] at h,
    fun _ h => by simp [hfinite] at h⟩

/-- Finite values of the range that the target admits. -/
theorem contained_of_admits (ht : t.Valid f) (hs : y.negative = x.negative) (hy : y.isFinite)
    (hlt : y.absUnits < 2 ^ (t.top f + 1)) (hadmits : t.Admits f ctx side y.absUnits) :
    Contained t ctx side x y := by
  have hlow := ht.lowest_eq
  have hemin : t.emin = 1 - t.emax := rfl
  have htop := ht.top_eq
  have hleast : ((t.grid f).lowest : ℤ) = t.emin - t.precision + f.unitExponent := by omega
  have hnormal := emin_units ht
  have hend : ((t.top f + 1 : Nat) : ℤ) = t.emax + 1 + f.unitExponent := by omega
  refine ⟨hs, ?_, fun hflush _ hz => ?_, fun hmode _ => ?_, fun _ _ hbelow => ?_⟩
  · by_cases hz : y.isZero
    · exact .inl hz
    rw [isZero_iff] at hz
    refine .inr (.inr ⟨hy, ?_, ?_⟩)
    · -- a number below the normal range is a multiple of the least one
      rw [two_pow_le_abs_toRat_iff hleast]
      by_cases hbelow : y.absUnits < 2 ^ ((t.grid f).lowest + t.precision)
      · exact Nat.le_of_dvd (by omega) (hadmits.dvd hbelow)
      · have hpow : 2 ^ (t.grid f).lowest ≤ 2 ^ ((t.grid f).lowest + t.precision) :=
          Nat.pow_le_pow_right Nat.two_pos (Nat.le_add_right _ _)
        omega
    · rw [← not_le, two_pow_le_abs_toRat_iff hend]
      omega
  · rw [two_pow_le_abs_toRat_iff hnormal]
    exact hadmits.normal hflush (isZero_eq_false_iff.1 hz)
  · exact holds_toRat ht (hadmits.mem hmode) hlt
  · rw [← not_le, two_pow_le_abs_toRat_iff hnormal] at hbelow
    exact exists_eq_mul_two_pow hleast (hadmits.dvd (by omega))

/-- Clamping leaves what the target can hold, and keeps what is no number. -/
theorem clamp_contained (ht : t.Valid f) (x : Binary f) (side : Side) (ctx : Context) :
    (x.isNaN = true → x.clamp side t ctx = x) ∧
      (x.isNaN = false → Contained t ctx side x (x.clamp side t ctx)) := by
  cases hx : x.isFinite with
  | false =>
    rw [clamp_of_special (.inl hx)]
    exact ⟨fun _ => rfl, fun hn =>
      contained_of_isInfinite rfl (isInfinite_of_isFinite_eq_false hx hn)⟩
  | true =>
    refine ⟨fun hn => absurd hn (by simp [isNaN_eq_false hx]), fun _ => ?_⟩
    rcases clamp_outcome ht hx side ctx with hinf | ⟨hfinite, hlt, hadmits⟩
    · rw [hinf]
      exact contained_of_isInfinite rfl isInfinite_infinity
    · exact contained_of_admits ht (negative_clamp x side t ctx) hfinite hlt hadmits

/-- Just below an absolute bound that is above the normal range, a value becomes the bound, which is
    a number of the target. -/
theorem clamp_contained_just_below :
    Target.Valid .binary32 ⟨10, 5⟩ ∧ (ofBits .binary32 0xbdffffff).isNaN = false ∧
      (ofBits .binary32 0xbdffffff).clamp .operand ⟨10, 5⟩
          { policy := ⟨.combined, -3⟩, daz := true } = ofBits .binary32 0xbe000000 ∧
      Contained ⟨10, 5⟩ { policy := ⟨.combined, -3⟩, daz := true } .operand
        (ofBits .binary32 0xbdffffff) (ofBits .binary32 0xbe000000) := by
  have ht : Target.Valid .binary32 ⟨10, 5⟩ := ⟨by decide, by decide, by decide, by decide⟩
  have hnumber : (ofBits .binary32 0xbdffffff).isNaN = false := by decide
  have hclamp : (ofBits .binary32 0xbdffffff).clamp .operand ⟨10, 5⟩
      { policy := ⟨.combined, -3⟩, daz := true } = ofBits .binary32 0xbe000000 := by
    decide +kernel
  have hcontained := (clamp_contained ht (ofBits .binary32 0xbdffffff) .operand
    { policy := ⟨.combined, -3⟩, daz := true }).2 hnumber
  rw [hclamp] at hcontained
  exact ⟨ht, hnumber, hclamp, hcontained⟩

end Binary

end VariablePrecision
