/-
  VariablePrecision.Proofs.Analysis.RoundingError

  The error that is recorded for an operation is the exact one, as far as there is a value for
  it.

    sums       the two-sum scheme is exact as soon as its first step, `res - x`, is finite;
               all later steps are then on the grid and have room (`sumError_of_isFinite`);
    products   the remainder of a product is one fused operation, and exact unless it has
               places below the least one of the format;
    quotients  so is the remainder of a quotient, which is then divided once more.
-/

import VariablePrecision.Analysis.Phenomena
import VariablePrecision.Proofs.Binary.Product
import VariablePrecision.Proofs.Emulator.SingleRounding
import VariablePrecision.Proofs.Emulator.Transparency

namespace VariablePrecision.Analysis

open Binary

variable {f : Format} {x y : Binary f}

/-! ## Sums -/

/-- If the first step of the two-sum scheme is finite, then all steps after it are exact. -/
theorem sumError_of_isFinite (hx : x.isFinite) (hy : y.isFinite) (hres : (x + y).isFinite)
    (hpart : (x + y - x).isFinite) :
    (sumError x y (x + y)).isFinite ∧
      (sumError x y (x + y)).units = x.units + y.units - (x + y).units := by
  have hr := units_add hres
  have hv := units_sub hpart
  have hp : 2 ≤ f.grid.precision := by cases f <;> decide
  obtain ⟨hxpart, hxrest, hyrest⟩ := Grid.twoSum_mem rfl hp (mem_units x) (mem_units y) hr hv
  have herror := Grid.mem_sum_error (mem_units x) (mem_units y)
  -- the two roundings so far are small against the gap above the greatest finite value
  have hfirst := two_mul_roundInt_error_le (hr ▸ natAbs_units_lt hres)
  have hsecond := two_mul_roundInt_error_le (hv ▸ natAbs_units_lt hpart)
  rw [← hr] at hfirst herror
  rw [← hv] at hsecond
  have hgap := natAbs_units_add_le hx
  have hroom := f.two_pow_lt_unitBound
  have hquantum := Nat.two_pow_pos (2 * f.bias - 1)
  obtain ⟨hpartFinite, hpartUnits⟩ := sub_exact hres hpart hxpart (by omega)
  rw [← hpartUnits] at hxrest
  obtain ⟨hxFinite, hxUnits⟩ := sub_exact hx hpartFinite hxrest (by omega)
  obtain ⟨hyFinite, hyUnits⟩ := sub_exact hy hpart hyrest (by omega)
  have hsum : (x - (x + y - (x + y - x))).units + (y - (x + y - x)).units =
      x.units + y.units - (x + y).units := by
    rw [hxUnits, hyUnits, hpartUnits]
    ring
  rw [← Int.natAbs_neg, Int.neg_sub, ← hsum] at herror
  rw [← hsum]
  exact add_exact hxFinite hyFinite herror (by omega)

/-- A finite error has gone through finite steps only. -/
theorem isFinite_part_of_isFinite_sumError {res : Binary f} (h : (sumError x y res).isFinite) :
    (res - x).isFinite :=
  (isFinite_of_isFinite_sub (isFinite_of_isFinite_add h).2).2

theorem toRat_sumError (hx : x.isFinite) (hy : y.isFinite) (hres : (x + y).isFinite)
    (h : (sumError x y (x + y)).isFinite) :
    (sumError x y (x + y)).toRat = x.toRat + y.toRat - (x + y).toRat := by
  have hunits := (sumError_of_isFinite hx hy hres (isFinite_part_of_isFinite_sumError h)).2
  unfold toRat
  rw [hunits]
  push_cast
  ring

/-- The error recorded for a finite sum or difference is exact whenever it is finite. -/
theorem roundingError_sum_exact (op : Operation) (hop : op = .add ∨ op = .sub) (hx : x.isFinite)
    (hy : y.isFinite) (hres : (op.apply x y).isFinite)
    (h : (roundingError op x y (op.apply x y)).isFinite) :
    (roundingError op x y (op.apply x y)).toRat =
      op.exact x.toRat y.toRat - (op.apply x y).toRat := by
  rcases hop with rfl | rfl
  · exact toRat_sumError hx hy hres h
  · -- a difference is the sum with the opposite of its second term
    have hneg := toRat_sumError (y := -y) hx (by rwa [isFinite_neg]) hres h
    rwa [toRat_neg, ← sub_eq_add_neg] at hneg

/-- All of a small second term is lost, and found again. -/
theorem roundingError_sum_exact_absorbed :
    roundingError .sub (.ofBits .binary64 0x3ff0000000000000) (.ofBits .binary64 0x3c30000000000000)
        (.ofBits .binary64 0x3ff0000000000000) = .ofBits .binary64 0xbc30000000000000 ∧
      Binary.toRat (.ofBits .binary64 0xbc30000000000000) =
        Binary.toRat (.ofBits .binary64 0x3ff0000000000000) -
            Binary.toRat (.ofBits .binary64 0x3c30000000000000) -
          Binary.toRat (.ofBits .binary64 0x3ff0000000000000) := by
  have hres : Operation.sub.apply (.ofBits .binary64 0x3ff0000000000000)
      (.ofBits .binary64 0x3c30000000000000) = Binary.ofBits .binary64 0x3ff0000000000000 := by
    decide +kernel
  have herror : roundingError .sub (.ofBits .binary64 0x3ff0000000000000)
      (.ofBits .binary64 0x3c30000000000000) (.ofBits .binary64 0x3ff0000000000000) =
      .ofBits .binary64 0xbc30000000000000 := by decide +kernel
  have hexact := roundingError_sum_exact .sub
    (x := .ofBits .binary64 0x3ff0000000000000) (y := .ofBits .binary64 0x3c30000000000000)
    (.inr rfl) (by decide) (by decide) (by rw [hres]; decide) (by rw [hres, herror]; decide)
  rw [hres, herror] at hexact
  exact ⟨herror, hexact⟩

/-! ## Products and quotients -/

/-- Dividing once more rounds correctly to the native format. -/
theorem rounds_neg_div (hx : x.isFinite) (hy : y.isFinite) (hz : y.isZero = false) :
    (Target.native f).Rounds (-x.toRat / y.toRat) (-x / y) := by
  rw [← toRat_neg]
  exact rounds_div (by rwa [isFinite_neg]) hy hz

/-- Away from underflow the error recorded for a product is exact, and the one recorded for a
    quotient is the exact error, rounded once.  The last places that count are those of the
    factors, and those of the quotient and the divisor. -/
theorem roundingError_product_quotient_exact (hx : x.isFinite) (hy : y.isFinite) :
    ((x * y).isFinite →
      1 - (f.bias : ℤ) - f.mantissaBits ≤ x.significand.2 + y.significand.2 →
        (roundingError .mul x y (x * y)).isFinite ∧
          (roundingError .mul x y (x * y)).toRat = x.toRat * y.toRat - (x * y).toRat) ∧
    (y.isZero = false → (x / y).isFinite →
      1 - (f.bias : ℤ) - f.mantissaBits ≤ (x / y).significand.2 + y.significand.2 →
        (((x / y).mulAdd y (-x)).isFinite ∧
          ((x / y).mulAdd y (-x)).toRat = (x / y).toRat * y.toRat - x.toRat) ∧
        (Target.native f).Rounds (x.toRat / y.toRat - (x / y).toRat)
          (roundingError .div x y (x / y))) := by
  refine ⟨fun hres hplaces => product_remainder_exact hx hy hres hplaces,
    fun hz hres hplaces => ?_⟩
  obtain ⟨hfinite, hexact⟩ := quotient_remainder_exact hx hy hz hres hplaces
  refine ⟨⟨hfinite, hexact⟩, ?_⟩
  have hround := rounds_neg_div hfinite hy hz
  have hne := toRat_ne_zero_iff.2 hz
  have hratio : x.toRat / y.toRat - (x / y).toRat =
      -((x / y).mulAdd y (-x)).toRat / y.toRat := by
    rw [hexact]
    field_simp
    ring
  rwa [hratio]

/-- The successor of one, times three and divided by three. -/
theorem roundingError_product_quotient_exact_three :
    Binary.toRat (.ofBits .binary64 0xbcb0000000000000) =
      Binary.toRat (.ofBits .binary64 0x3ff0000000000001) *
          Binary.toRat (.ofBits .binary64 0x4008000000000000) -
        Binary.toRat (.ofBits .binary64 0x4008000000000002) ∧
    Target.Rounds (.native .binary64)
      (Binary.toRat (.ofBits .binary64 0x3ff0000000000001) /
          Binary.toRat (.ofBits .binary64 0x4008000000000000) -
        Binary.toRat (.ofBits .binary64 0x3fd5555555555557))
      (.ofBits .binary64 0xbc75555555555555) := by
  have hproduct : Binary.ofBits .binary64 0x3ff0000000000001 *
      .ofBits .binary64 0x4008000000000000 = .ofBits .binary64 0x4008000000000002 := by
    decide +kernel
  have hquotient : Binary.ofBits .binary64 0x3ff0000000000001 /
      .ofBits .binary64 0x4008000000000000 = .ofBits .binary64 0x3fd5555555555557 := by
    decide +kernel
  have hmul : roundingError .mul (.ofBits .binary64 0x3ff0000000000001)
      (.ofBits .binary64 0x4008000000000000) (.ofBits .binary64 0x4008000000000002) =
      .ofBits .binary64 0xbcb0000000000000 := by decide +kernel
  have hdiv : roundingError .div (.ofBits .binary64 0x3ff0000000000001)
      (.ofBits .binary64 0x4008000000000000) (.ofBits .binary64 0x3fd5555555555557) =
      .ofBits .binary64 0xbc75555555555555 := by decide +kernel
  obtain ⟨hexact, hrounds⟩ := roundingError_product_quotient_exact
    (x := .ofBits .binary64 0x3ff0000000000001) (y := .ofBits .binary64 0x4008000000000000)
    (by decide) (by decide)
  rw [hproduct, hmul] at hexact
  rw [hquotient, hdiv] at hrounds
  exact ⟨(hexact (by decide) (by decide +kernel)).2,
    (hrounds (by decide) (by decide) (by decide +kernel)).2⟩

end VariablePrecision.Analysis
