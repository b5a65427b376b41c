/-
  VariablePrecision.Proofs.Analysis.Roundoff

  Which inexact operations the round-off statistics see.

  An operation is counted if the error computed for it is finite and not zero.  An exact
  operation never is; an inexact one is missed exactly where its error is out of reach of the
  scheme that computes it (`OutOfReach`):

    sums       the first step, `res - x`, overflows, which takes a second term of the greatest
               finite size (`absUnits_of_overflow`);
    products   the exact error is at most half the least positive value, to which all
               remainders are rounded;
    quotients  the remainder, rounded in this way, vanishes against the divisor.

  So it matters for a sum which of its terms comes second.
-/

import VariablePrecision.Proofs.Analysis.RoundingError
import VariablePrecision.Proofs.Binary.Precision

namespace VariablePrecision.Analysis

open Binary

variable {f : Format} {x y : Binary f}

/-- The error of the operation with the result `res` is lost to the scheme that computes it: its
    first step overflows, or its outcome is rounded to zero. -/
def OutOfReach : Operation → Binary f → Binary f → Binary f → Prop
  | .add, x, _, res => (Target.native f).overflowBound ≤ |res.toRat - x.toRat|
  | .sub, x, _, res => (Target.native f).overflowBound ≤ |res.toRat - x.toRat|
  | .mul, x, y, res => |x.toRat * y.toRat - res.toRat| ≤ f.halfUnit
  | .div, x, y, res => |(res.mulAdd y (-x)).toRat / y.toRat| ≤ f.halfUnit

/-- Finite errors are counted, but for zero. -/
theorem isSome_roundoff_iff {op : Operation} {res : Binary f} :
    (roundoff op x y res).isSome ↔
      (roundingError op x y res).isFinite ∧ (roundingError op x y res).isZero = false := by
  unfold roundoff
  dsimp only
  split
  · next h => simpa using h
  · next h => simpa using h

/-! ## Sums -/

/-- A difference is finite up to the overflow bound. -/
theorem isFinite_sub_iff_lt_overflowBound (hx : x.isFinite) (hy : y.isFinite) :
    (x - y).isFinite ↔ |x.toRat - y.toRat| < (Target.native f).overflowBound := by
  have hbound := (Target.native_valid f).overflowBound_le_iff (a := y.distance x) Nat.one_pos
  rw [Nat.cast_one, div_one, ← abs_toRat_sub, Target.grid_native,
    Target.two_pow_top_native] at hbound
  rw [isFinite_sub_iff, Grid.natAbs_roundInt]
  constructor
  · rintro ⟨-, -, hlt⟩
    exact not_le.1 (mt hbound.1 (not_le.2 hlt))
  · intro hlt
    exact ⟨hx, hy, not_le.1 (mt hbound.2 (not_le.2 hlt))⟩

/-- The first step of the two-sum scheme overflows only if the second term has the greatest finite
    size. -/
theorem absUnits_of_overflow (hx : x.isFinite) (hy : y.isFinite) (hres : (x + y).isFinite)
    (h : (Target.native f).overflowBound ≤ |(x + y).toRat - x.toRat|) :
    y.absUnits + 2 ^ (2 * f.bias - 1) = f.unitBound := by
  rw [← not_lt, ← isFinite_sub_iff_lt_overflowBound hres hx, isFinite_sub_iff] at h
  have hover : f.unitBound ≤ f.grid.round ((x + y).units - x.units).natAbs 1 := by
    rw [← Grid.natAbs_roundInt]
    exact not_lt.1 fun hlt => h ⟨hres, hx, hlt⟩
  -- rounding overflows from half a quantum below the bound on; the sum is off by half a quantum
  -- at most, which leaves only the last value for the second term
  rw [f.unitBound_eq, Grid.two_pow_le_round_iff Nat.one_pos (by simp), f.grid_precision,
    Nat.add_sub_cancel, Nat.one_mul, Nat.sub_mul, Nat.one_mul] at hover
  have hend : 2 ^ (f.mantissaBits + 2) * 2 ^ (2 * f.bias - 1) = 2 * f.unitBound := by
    rw [f.unitBound_eq, ← Nat.pow_add, ← Nat.pow_succ']
    congr 1
    omega
  have herror := two_mul_roundInt_error_le (units_add hres ▸ natAbs_units_lt hres)
  have hgap := natAbs_units_add_le hy
  rw [← units_add hres] at herror
  rw [natAbs_units] at hgap
  have hsize := natAbs_units y
  omega

/-- The two-sum scheme finds the error of an inexact sum, unless its first step overflows. -/
theorem sumError_ne_zero_iff (hx : x.isFinite) (hy : y.isFinite) (hres : (x + y).isFinite) :
    ((sumError x y (x + y)).isFinite ∧ (sumError x y (x + y)).isZero = false) ↔
      x.toRat + y.toRat ≠ (x + y).toRat ∧
        ¬ (Target.native f).overflowBound ≤ |(x + y).toRat - x.toRat| := by
  rw [not_le, ← isFinite_sub_iff_lt_overflowBound hres hx]
  constructor
  · rintro ⟨hfinite, hne⟩
    rw [← toRat_ne_zero_iff, toRat_sumError hx hy hres hfinite, sub_ne_zero] at hne
    exact ⟨hne, isFinite_part_of_isFinite_sumError hfinite⟩
  · rintro ⟨hne, hpart⟩
    have hfinite := (sumError_of_isFinite hx hy hres hpart).1
    refine ⟨hfinite, ?_⟩
    rwa [← toRat_ne_zero_iff, toRat_sumError hx hy hres hfinite, sub_ne_zero]

/-! ## Products and quotients -/

/-- Numbers that are this far apart are not the same. -/
theorem ne_of_halfUnit_lt {r s : ℚ} (h : ¬ |r - s| ≤ f.halfUnit) : r ≠ s := by
  have hpos := f.halfUnit_pos
  rintro rfl
  rw [sub_self, abs_zero] at h
  exact h hpos.le

/-- The fused operation finds the error of a product, unless it underflows. -/
theorem productError_ne_zero_iff (hx : x.isFinite) (hy : y.isFinite) (hres : (x * y).isFinite) :
    ((x.mulAdd y (-(x * y))).isFinite ∧ (x.mulAdd y (-(x * y))).isZero = false) ↔
      x.toRat * y.toRat ≠ (x * y).toRat ∧ ¬ |x.toRat * y.toRat - (x * y).toRat| ≤ f.halfUnit := by
  have hfinite := isFinite_product_remainder hx hy hres
  have hzero := isZero_mulAdd_iff hx hy (by rwa [isFinite_neg]) hfinite
  rw [toRat_neg, ← sub_eq_add_neg] at hzero
  rw [← Bool.not_eq_true, hzero]
  exact ⟨fun h => ⟨ne_of_halfUnit_lt h.2, h.2⟩, fun h => ⟨hfinite, h.2⟩⟩

/-- An exact quotient has no remainder. -/
theorem isZero_quotient_remainder (hx : x.isFinite) (hy : y.isFinite) (hz : y.isZero = false)
    (hres : (x / y).isFinite) (hexact : x.toRat / y.toRat = (x / y).toRat) :
    ((x / y).mulAdd y (-x)).isZero := by
  have hpos := f.halfUnit_pos
  rw [isZero_mulAdd_iff hres hy (by rwa [isFinite_neg]) (isFinite_quotient_remainder hx hy hz hres),
    toRat_neg, ← hexact, div_mul_cancel₀ _ (toRat_ne_zero_iff.2 hz), add_neg_cancel, abs_zero]
  exact hpos.le

/-- The error of a quotient is found unless its remainder vanishes against the divisor. -/
theorem quotientError_ne_zero_iff (hx : x.isFinite) (hy : y.isFinite) (hz : y.isZero = false)
    (hres : (x / y).isFinite) :
    ((-((x / y).mulAdd y (-x)) / y).isFinite ∧
        (-((x / y).mulAdd y (-x)) / y).isZero = false) ↔
      x.toRat / y.toRat ≠ (x / y).toRat ∧
        ¬ |((x / y).mulAdd y (-x)).toRat / y.toRat| ≤ f.halfUnit := by
  have hpos := f.halfUnit_pos
  have hremainder := isFinite_quotient_remainder hx hy hz hres
  have hfinite := isFinite_quotient_error hx hy hz hres
  have hzero := isZero_div_iff (by rwa [isFinite_neg]) hy hz hfinite
  rw [toRat_neg, neg_div, abs_neg] at hzero
  rw [← Bool.not_eq_true, hzero]
  refine ⟨fun h => ⟨fun hexact => h.2 ?_, h.2⟩, fun h => ⟨hfinite, h.2⟩⟩
  -- an exact quotient leaves nothing to be divided
  rw [toRat_eq_zero_iff.2 (isZero_quotient_remainder hx hy hz hres hexact), zero_div, abs_zero]
  exact hpos.le

/-! ## All operations -/

/-- An operation is counted by the round-off statistics exactly if it is inexact and its error is
    within reach. -/
theorem isSome_roundoff_iff_inexact (op : Operation) (hx : x.isFinite) (hy : y.isFinite)
    (hz : op = .div → y.isZero = false) (hres : (op.apply x y).isFinite) :
    (roundoff op x y (op.apply x y)).isSome ↔
      op.exact x.toRat y.toRat ≠ (op.apply x y).toRat ∧
        ¬ OutOfReach op x y (op.apply x y) := by
  rw [isSome_roundoff_iff]
  cases op with
  | add => exact sumError_ne_zero_iff hx hy hres
  | sub =>
    have hneg := sumError_ne_zero_iff (y := -y) hx (by rwa [isFinite_neg]) hres
    rwa [toRat_neg, ← sub_eq_add_neg] at hneg
  | mul => exact productError_ne_zero_iff hx hy hres
  | div => exact quotientError_ne_zero_iff hx hy (hz rfl) hres

/-- One third is counted with an error of the size of `2 ^ -56`. -/
theorem isSome_roundoff_iff_inexact_third :
    roundoff .div (.ofBits .binary64 0x3ff0000000000000) (.ofBits .binary64 0x4008000000000000)
        (.ofBits .binary64 0x3fd5555555555555) = some 56 ∧
      Binary.toRat (.ofBits .binary64 0x3ff0000000000000) /
          Binary.toRat (.ofBits .binary64 0x4008000000000000) ≠
        Binary.toRat (.ofBits .binary64 0x3fd5555555555555) ∧
      ¬ OutOfReach .div (.ofBits .binary64 0x3ff0000000000000)
        (.ofBits .binary64 0x4008000000000000) (.ofBits .binary64 0x3fd5555555555555) := by
  have hres : Operation.div.apply (.ofBits .binary64 0x3ff0000000000000)
      (.ofBits .binary64 0x4008000000000000) = Binary.ofBits .binary64 0x3fd5555555555555 := by
    decide +kernel
  have hbits : roundoff .div (.ofBits .binary64 0x3ff0000000000000)
      (.ofBits .binary64 0x4008000000000000) (.ofBits .binary64 0x3fd5555555555555) = some 56 := by
    decide +kernel
  have hiff := isSome_roundoff_iff_inexact .div
    (x := .ofBits .binary64 0x3ff0000000000000) (y := .ofBits .binary64 0x4008000000000000)
    (by decide) (by decide) (fun _ => by decide) (by rw [hres]; decide)
  rw [hres, hbits] at hiff
  exact ⟨hbits, hiff.1 rfl⟩

/-- A sum with the greatest finite value, whose error `-2 ^ 970` is missed: the result minus the
    first term overflows. -/
theorem roundoff_misses_inexact_sum :
    (Binary.ofBits .binary64 0xfca8000000000000).isFinite ∧
      (Binary.ofBits .binary64 0x7fefffffffffffff).isFinite ∧
      Operation.add.apply (.ofBits .binary64 0xfca8000000000000)
        (.ofBits .binary64 0x7fefffffffffffff) = Binary.ofBits .binary64 0x7feffffffffffffe ∧
      (Binary.ofBits .binary64 0x7feffffffffffffe).isFinite ∧
      ¬ ((roundoff .add (.ofBits .binary64 0xfca8000000000000)
            (.ofBits .binary64 0x7fefffffffffffff)
            (.ofBits .binary64 0x7feffffffffffffe)).isSome ↔
          Operation.add.exact (Binary.toRat (.ofBits .binary64 0xfca8000000000000))
              (Binary.toRat (.ofBits .binary64 0x7fefffffffffffff)) ≠
            Binary.toRat (.ofBits .binary64 0x7feffffffffffffe)) := by
  refine ⟨by decide, by decide, by decide +kernel, by decide, fun hiff => ?_⟩
  have hmissed : roundoff .add (.ofBits .binary64 0xfca8000000000000)
      (.ofBits .binary64 0x7fefffffffffffff) (.ofBits .binary64 0x7feffffffffffffe) = none := by
    decide +kernel
  have hunits : (Binary.ofBits .binary64 0xfca8000000000000).units +
      (Binary.ofBits .binary64 0x7fefffffffffffff).units ≠
        (Binary.ofBits .binary64 0x7feffffffffffffe).units := by decide +kernel
  rw [hmissed] at hiff
  exact absurd (hiff.2 (mt toRat_add_eq_iff.1 hunits)) (by decide)

end VariablePrecision.Analysis
