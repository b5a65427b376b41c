/-
  VariablePrecision.Proofs.Binary.CorrectRounding

  Clamping a finite value under a relative error is rounding it correctly to the
  target: the result is the nearest number of the target, ties to even, and an
  infinity from the overflow bound on, and it keeps the sign, also on zero.

  The native operations round once as well; `apply_eq_nearest` writes the exact result
  of each as a ratio of units.
-/

import VariablePrecision.Operation
import VariablePrecision.Proofs.Binary.Clamp
import VariablePrecision.Proofs.Target.Rounds

namespace VariablePrecision

namespace Binary

variable {f : Format} {x y : Binary f} {t : Target}

/-! ## Clamping -/

/-- Clamping under a relative error rounds correctly to the target. -/
theorem clamp_relative_rounds (ht : t.Valid f) (hx : x.isFinite) (ctx : Context) (side : Side)
    (hmode : ctx.policy.mode = .relative) (hflush : ctx.flushes side = false) :
    (x.clamp side t ctx).negative = x.negative ∧ t.Rounds x.toRat (x.clamp side t ctx) := by
  have hpolicy : ctx.policy.boundsAbsolute = false := by
    unfold ErrorPolicy.boundsAbsolute
    rw [hmode]
  rw [clamp_eq_nearest ht hx hpolicy hflush]
  refine ⟨Target.negative_nearest, ?_⟩
  have hround := ht.rounds_nearest (a := x.absUnits) Nat.one_pos x.negative
  rwa [Nat.cast_one, div_one, ← toRat_eq_scaled] at hround

/-- With 10 bits of precision the value half way between 1 and its successor goes to 1. -/
theorem clamp_relative_rounds_half_way :
    Target.Valid .binary32 ⟨10, 5⟩ ∧ (ofBits .binary32 0x3f801000).isFinite ∧
      (ofBits .binary32 0x3f801000).clamp .result ⟨10, 5⟩ {} = ofBits .binary32 0x3f800000 ∧
      Target.Rounds ⟨10, 5⟩ (ofBits .binary32 0x3f801000).toRat
        (ofBits .binary32 0x3f800000) := by
  have ht : Target.Valid .binary32 ⟨10, 5⟩ := ⟨by decide, by decide, by decide, by decide⟩
  have hclamp : (ofBits .binary32 0x3f801000).clamp .result ⟨10, 5⟩ {} =
      ofBits .binary32 0x3f800000 := by decide +kernel
  have hround := clamp_relative_rounds (x := ofBits .binary32 0x3f801000) ht (by decide) {}
    .result rfl rfl
  rw [hclamp] at hround
  exact ⟨ht, by decide, hclamp, hround.2⟩

/-! ## The native operations -/

theorem scaled_natAbs (n : Int) (s : Bool) (hs : n ≠ 0 → (s ↔ n < 0)) :
    scaled f s ((n.natAbs : Nat) / (1 : Nat)) = n * 2 ^ (-(f.unitExponent : ℤ)) := by
  unfold scaled
  congr 1
  rw [Nat.cast_one, div_one, Nat.cast_natAbs]
  rcases lt_trichotomy n 0 with hneg | rfl | hpos
  · rw [if_pos ((hs hneg.ne).2 hneg), abs_of_neg hneg, Int.cast_neg, neg_neg]
  · simp
  · have hs' : s = false := by simpa using mt (hs hpos.ne').1 (by omega)
    rw [hs', if_neg (by decide), abs_of_pos hpos]

/-- The sum as one rounding; an exact zero is rounded with its own sign. -/
theorem add_eq_nearest (hx : x.isFinite) (hy : y.isFinite) :
    ∃ s : Bool, (x.units + y.units ≠ 0 → (s ↔ x.units + y.units < 0)) ∧
      x + y = nearest f s (x.units + y.units).natAbs 1 := by
  rw [add_eq_nearestSum hx hy]
  unfold nearestSum
  by_cases hzero : x.units + y.units = 0
  · refine ⟨x.negative && y.negative, fun h => absurd hzero h, ?_⟩
    rw [if_pos hzero, hzero, Int.natAbs_zero, nearest_zero_eq_zero]
  · exact ⟨decide (x.units + y.units < 0), fun _ => by simp, by rw [if_neg hzero]⟩

theorem toRat_add (x y : Binary f) :
    x.toRat + y.toRat = ((x.units + y.units : ℤ) : ℚ) * 2 ^ (-(f.unitExponent : ℤ)) := by
  unfold toRat
  push_cast
  ring

theorem toRat_mul (x y : Binary f) :
    x.toRat * y.toRat = scaled f (x.negative != y.negative)
      ((x.absUnits * y.absUnits : Nat) / (2 ^ f.unitExponent : Nat)) := by
  rw [toRat_eq_scaled, toRat_eq_scaled, Target.cast_two_pow]
  unfold scaled
  rw [zpow_neg]
  push_cast
  cases x.negative <;> cases y.negative <;> simp <;> ring

theorem toRat_div (x y : Binary f) :
    x.toRat / y.toRat = scaled f (x.negative != y.negative)
      ((x.absUnits * 2 ^ f.unitExponent : Nat) / (y.absUnits : Nat)) := by
  have hpow : (2 : ℚ) ^ (f.unitExponent : ℤ) ≠ 0 := (zpow_pos (by norm_num) _).ne'
  rw [toRat_eq_scaled, toRat_eq_scaled, Nat.cast_mul, Target.cast_two_pow]
  unfold scaled
  rw [zpow_neg]
  cases x.negative <;> cases y.negative <;> simp <;> field_simp

@[simp] theorem isFinite_neg : (-x).isFinite = x.isFinite := rfl

@[simp] theorem absUnits_neg : (-x).absUnits = x.absUnits := rfl

theorem toRat_neg (x : Binary f) : (-x).toRat = -x.toRat := by
  have hneg : (-x).negative = !x.negative := rfl
  rw [toRat_eq_scaled, toRat_eq_scaled, absUnits_neg, hneg]
  cases x.negative <;> simp [scaled]

/-! ## Native rounding -/

/-- A natural number is rounded correctly. -/
theorem rounds_ofNat (f : Format) (n : Nat) : (Target.native f).Rounds n (ofNat f n) := by
  have hround := (Target.native_valid f).rounds_nearest (a := n * 2 ^ f.unitExponent) Nat.one_pos
    false
  have hrat : scaled f false ((n * 2 ^ f.unitExponent : Nat) / (1 : Nat)) = n := by
    unfold scaled
    rw [if_neg (by decide), Nat.cast_one, div_one, Nat.cast_mul, mul_assoc,
      Target.two_pow_mul_unit, sub_self, zpow_zero, mul_one]
  rwa [hrat, Target.nearest_native Nat.one_pos] at hround

/-- A native quotient is the exact one, rounded once. -/
theorem rounds_div (hx : x.isFinite) (hy : y.isFinite) (hz : y.isZero = false) :
    (Target.native f).Rounds (x.toRat / y.toRat) (x / y) := by
  have hd : 0 < y.absUnits := Nat.pos_of_ne_zero (isZero_eq_false_iff.1 hz)
  have hround := (Target.native_valid f).rounds_nearest (a := x.absUnits * 2 ^ f.unitExponent) hd
    (x.negative != y.negative)
  rwa [Target.nearest_native hd, ← toRat_div, ← div_eq_nearest hx hy hz] at hround

/-- Natural numbers up to the last power of two of the format do not overflow. -/
theorem isFinite_ofNat {n : Nat} (hn : n ≤ 2 ^ f.bias) : (ofNat f n).isFinite := by
  have hround : f.grid.round (n * 2 ^ f.unitExponent) 1 ≤ 2 ^ (f.bias + f.unitExponent) := by
    refine Grid.round_le_two_pow Nat.one_pos (Nat.zero_le _) ?_
    rw [Nat.mul_one, Nat.pow_add]
    exact Nat.mul_le_mul_right _ hn
  have hbound : 2 ^ (f.bias + f.unitExponent) < f.unitBound :=
    Nat.pow_lt_pow_right Nat.one_lt_two (by omega)
  exact isFinite_nearest Nat.one_pos (by omega)

/-- Dividing by one or more does not overflow. -/
theorem isFinite_div (hx : x.isFinite) (hy : y.isFinite) (hone : 2 ^ f.unitExponent ≤ y.absUnits) :
    (x / y).isFinite := by
  have hd : 0 < y.absUnits := Nat.lt_of_lt_of_le (Nat.two_pow_pos _) hone
  have hz : y.isZero = false := isZero_eq_false_iff.2 hd.ne'
  rw [div_eq_nearest hx hy hz]
  apply isFinite_nearest hd
  calc f.grid.round (x.absUnits * 2 ^ f.unitExponent) y.absUnits ≤ x.absUnits :=
        Grid.round_le_of_mem x.mem_absUnits hd (Nat.mul_le_mul_left _ hone)
    _ < f.unitBound := isFinite_iff.1 hx

end Binary

end VariablePrecision
