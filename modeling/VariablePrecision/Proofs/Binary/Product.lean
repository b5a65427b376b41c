/-
  VariablePrecision.Proofs.Binary.Product

  Products and quotients of finite values as integers, and what is left of them.

  The fused operation gives the remainders `x * y - product` and `quotient * y - x`.  Counted
  in squares of the unit they are integers (`product_remainder`, `quotient_remainder`): up to
  its sign, each is the error of the one rounding, cleared of its denominator.

  If the last places of the factors of a product, or of the quotient and the divisor, are far
  enough up, then the remainders are on the grid and the fused operation is exact.
-/

import VariablePrecision.Proofs.Binary.Sum
import VariablePrecision.Proofs.Rounding.ErrorFree

namespace VariablePrecision

/-- Half of the least positive value of a format. -/
def Format.halfUnit (f : Format) : ℚ := 2 ^ (-(f.unitExponent : ℤ) - 1)

theorem Format.halfUnit_pos (f : Format) : 0 < f.halfUnit := by
  unfold halfUnit
  positivity

namespace Binary

variable {f : Format} {x y : Binary f}

/-! ## Signs -/

theorem negative_iff (hx : x.units ≠ 0) : x.negative = true ↔ x.units < 0 := by
  unfold units at hx ⊢
  cases hneg : x.negative with
  | false => simp
  | true =>
    rw [hneg, if_pos rfl] at hx
    rw [if_pos rfl]
    exact iff_of_true rfl (by omega)

theorem units_eq_sign_mul (x : Binary f) : x.units = x.units.sign * x.absUnits := by
  rw [← natAbs_units, Int.sign_mul_natAbs]

theorem negative_bne_iff (h : x.units * y.units ≠ 0) :
    (x.negative != y.negative) = true ↔ x.units * y.units < 0 := by
  have hx := left_ne_zero_of_mul h
  have hy := right_ne_zero_of_mul h
  rw [bne_iff_ne, ne_eq, ← Bool.coe_iff_coe, negative_iff hx, negative_iff hy]
  rcases lt_or_gt_of_ne hx with hx | hx <;> rcases lt_or_gt_of_ne hy with hy | hy
  · exact iff_of_false (by omega) (not_lt.2 (Int.mul_pos_of_neg_of_neg hx hy).le)
  · exact iff_of_true (by omega) (Int.mul_neg_of_neg_of_pos hx hy)
  · exact iff_of_true (by omega) (Int.mul_neg_of_pos_of_neg hx hy)
  · exact iff_of_false (by omega) (not_lt.2 (Int.mul_pos hx hy).le)

/-! ## Products -/

theorem units_mul (hx : x.isFinite) (hy : y.isFinite) (h : (x * y).isFinite) :
    (x * y).units = (x.units * y.units).sign *
      f.grid.round (x.units * y.units).natAbs (2 ^ f.unitExponent) := by
  have hd := Nat.two_pow_pos f.unitExponent
  have hsize : x.absUnits * y.absUnits = (x.units * y.units).natAbs := by
    rw [Int.natAbs_mul, natAbs_units, natAbs_units]
  rw [mul_eq_nearest hx hy, hsize] at h ⊢
  exact units_nearest hd negative_bne_iff Int.natAbs_eq_zero.2 ((isFinite_nearest_iff hd).1 h)

/-- What a rounded product leaves of the exact one. -/
theorem product_remainder (hx : x.isFinite) (hy : y.isFinite) (h : (x * y).isFinite) :
    x.units * y.units + (-(x * y)).units * (2 ^ f.unitExponent : Nat) =
      (x.units * y.units).sign * ((x.units * y.units).natAbs -
        (f.grid.round (x.units * y.units).natAbs (2 ^ f.unitExponent) *
          2 ^ f.unitExponent : Nat)) := by
  have hsign := Int.sign_mul_natAbs (x.units * y.units)
  rw [units_neg, units_mul hx hy h, Int.mul_sub, hsign]
  push_cast
  ring

/-! ## Quotients -/

theorem units_div (hx : x.isFinite) (hy : y.isFinite) (hz : y.isZero = false)
    (h : (x / y).isFinite) :
    (x / y).units = (x.units * y.units).sign *
      f.grid.round (x.absUnits * 2 ^ f.unitExponent) y.absUnits := by
  have hd : 0 < y.absUnits := Nat.pos_of_ne_zero (isZero_eq_false_iff.1 hz)
  rw [div_eq_nearest hx hy hz] at h ⊢
  refine units_nearest hd negative_bne_iff (fun hs => ?_) ((isFinite_nearest_iff hd).1 h)
  have hprod : x.absUnits * y.absUnits = 0 := by
    rw [← natAbs_units, ← natAbs_units, ← Int.natAbs_mul, hs, Int.natAbs_zero]
  rw [(Nat.mul_eq_zero.1 hprod).resolve_right hd.ne', Nat.zero_mul]

theorem absUnits_div (hx : x.isFinite) (hy : y.isFinite) (hz : y.isZero = false)
    (h : (x / y).isFinite) :
    (x / y).absUnits = f.grid.round (x.absUnits * 2 ^ f.unitExponent) y.absUnits := by
  have hd : 0 < y.absUnits := Nat.pos_of_ne_zero (isZero_eq_false_iff.1 hz)
  rw [div_eq_nearest hx hy hz] at h ⊢
  exact absUnits_nearest hd ((isFinite_nearest_iff hd).1 h)

/-- What a rounded quotient times the divisor misses of the dividend. -/
theorem quotient_remainder (hx : x.isFinite) (hy : y.isFinite) (hz : y.isZero = false)
    (h : (x / y).isFinite) :
    (x / y).units * y.units + (-x).units * (2 ^ f.unitExponent : Nat) =
      x.units.sign * ((f.grid.round (x.absUnits * 2 ^ f.unitExponent) y.absUnits *
        y.absUnits : Nat) - (x.absUnits * 2 ^ f.unitExponent : Nat)) := by
  have hsize : y.units.sign * y.units = y.absUnits := by
    rw [← natAbs_units, ← Int.abs_eq_natAbs, ← Int.sign_mul_self_eq_abs]
  have hdividend := units_eq_sign_mul x
  rw [units_div hx hy hz h, units_neg, Int.sign_mul]
  generalize f.grid.round (x.absUnits * 2 ^ f.unitExponent) y.absUnits = m
  push_cast
  calc x.units.sign * y.units.sign * m * y.units + -x.units * 2 ^ f.unitExponent
      = x.units.sign * m * (y.units.sign * y.units) - x.units * 2 ^ f.unitExponent := by ring
    _ = x.units.sign * m * y.absUnits - x.units.sign * x.absUnits * 2 ^ f.unitExponent := by
      rw [hsize, ← hdividend]
    _ = _ := by ring

/-! ## Exact remainders -/

/-- The significand of a normal value has its implicit bit. -/
theorem two_pow_le_significand (hx : x.biasedExponent ≠ 0) :
    2 ^ f.mantissaBits ≤ x.significand.1 := by
  unfold significand
  rw [if_neg hx]
  exact Nat.le_add_right _ _

/-- If the last places of the factors together are not below the least place of the format, then
    their product is a whole number of units, and at most twice as long as a value. -/
theorem exists_units_mul_eq
    (hplaces : 1 - (f.bias : ℤ) - f.mantissaBits ≤ x.significand.2 + y.significand.2) :
    ∃ (n : ℤ) (w : Nat), x.units * y.units = n * (2 ^ f.unitExponent : Nat) ∧
      2 ^ w ∣ n.natAbs ∧ n.natAbs < 2 ^ (w + 2 * (f.mantissaBits + 1)) := by
  obtain ⟨i, hi, -, hxunits, hxlt⟩ := significand_spec x
  obtain ⟨j, hj, -, hyunits, hylt⟩ := significand_spec y
  have hunit := f.unitExponent_add_one
  obtain ⟨w, hw⟩ : ∃ w, i + j = w + f.unitExponent := ⟨i + j - f.unitExponent, by omega⟩
  -- the last places of the factors make up for the denominator
  have hsize : (x.units * y.units).natAbs =
      x.significand.1 * y.significand.1 * 2 ^ w * 2 ^ f.unitExponent := by
    rw [Int.natAbs_mul, natAbs_units, natAbs_units, hxunits, hyunits,
      Nat.mul_assoc _ (2 ^ w), ← Nat.pow_add, ← hw, Nat.pow_add]
    ring
  obtain ⟨n, hn⟩ : ∃ n, x.units * y.units = n * (2 ^ f.unitExponent : Nat) :=
    exists_eq_mul_left_of_dvd (Int.natCast_dvd.2 (hsize ▸ Nat.dvd_mul_left _ _))
  have hnsize : n.natAbs = x.significand.1 * y.significand.1 * 2 ^ w := by
    rw [hn, Int.natAbs_mul, Int.natAbs_natCast] at hsize
    exact Nat.eq_of_mul_eq_mul_right (Nat.two_pow_pos _) hsize
  refine ⟨n, w, hn, hnsize ▸ Nat.dvd_mul_left _ _, ?_⟩
  calc n.natAbs = x.significand.1 * y.significand.1 * 2 ^ w := hnsize
    _ < 2 ^ (f.mantissaBits + 1) * 2 ^ (f.mantissaBits + 1) * 2 ^ w :=
        Nat.mul_lt_mul_of_pos_right (Nat.mul_lt_mul'' hxlt hylt) (Nat.two_pow_pos w)
    _ = 2 ^ (w + 2 * (f.mantissaBits + 1)) := by
        rw [← Nat.pow_add, ← Nat.pow_add]
        congr 1
        omega

/-- Such a product is rounded as an integer. -/
theorem units_mul_of_eq (hx : x.isFinite) (hy : y.isFinite) (h : (x * y).isFinite) {n : ℤ}
    (hn : x.units * y.units = n * (2 ^ f.unitExponent : Nat)) :
    (x * y).units = f.grid.roundInt n := by
  have hd := Nat.two_pow_pos f.unitExponent
  have hpos : ((2 ^ f.unitExponent : Nat) : ℤ).sign = 1 :=
    Int.sign_eq_one_of_pos (by exact_mod_cast hd)
  rw [units_mul hx hy h, hn, Grid.round_natAbs_mul n hd, Int.sign_mul, hpos, Int.mul_one,
    Grid.roundInt]

/-- What such a product leaves is a value, and the fused operation gives it. -/
theorem product_remainder_exact (hx : x.isFinite) (hy : y.isFinite) (h : (x * y).isFinite)
    (hplaces : 1 - (f.bias : ℤ) - f.mantissaBits ≤ x.significand.2 + y.significand.2) :
    (x.mulAdd y (-(x * y))).isFinite ∧
      (x.mulAdd y (-(x * y))).toRat = x.toRat * y.toRat - (x * y).toRat := by
  obtain ⟨n, w, hn, hdvd, hlt⟩ := exists_units_mul_eq hplaces
  have hproduct := units_mul_of_eq hx hy h hn
  have hmem := Grid.mem_product_error (g := f.grid) rfl hdvd hlt
  have herror := two_mul_roundInt_error_le (hproduct ▸ natAbs_units_lt h)
  have hroom := f.two_pow_lt_unitBound
  rw [sub_eq_add_neg, ← toRat_neg]
  refine mulAdd_exact hx hy h (n := n - f.grid.roundInt n) ?_ ?_ ?_
  · rw [hn, units_neg, hproduct]
    ring
  · rwa [← Int.natAbs_neg, Int.neg_sub]
  · omega

/-- What a quotient misses is at most the dividend. -/
theorem natAbs_quotient_remainder_le (hx : x.isFinite) (hy : y.isFinite) (hz : y.isZero = false)
    (h : (x / y).isFinite) :
    ((x / y).units * y.units + (-x).units * (2 ^ f.unitExponent : Nat)).natAbs ≤
      x.absUnits * 2 ^ f.unitExponent := by
  have hd : 0 < y.absUnits := Nat.pos_of_ne_zero (isZero_eq_false_iff.1 hz)
  have hround := Grid.round_mul_le_two_mul (g := f.grid) rfl (x.absUnits * 2 ^ f.unitExponent) hd
  rw [quotient_remainder hx hy hz h]
  refine Nat.le_trans (Grid.natAbs_sign_mul_le _ _) ?_
  omega

/-- If the last places of the quotient and the divisor together are not below the least place of
    the format, then what the quotient misses is a whole number of units, and a member. -/
theorem exists_quotient_remainder_eq (hx : x.isFinite) (hy : y.isFinite) (hz : y.isZero = false)
    (h : (x / y).isFinite)
    (hplaces : 1 - (f.bias : ℤ) - f.mantissaBits ≤ (x / y).significand.2 + y.significand.2) :
    ∃ n : ℤ, (x / y).units * y.units + (-x).units * (2 ^ f.unitExponent : Nat) =
      n * (2 ^ f.unitExponent : Nat) ∧ f.grid.Mem n.natAbs := by
  obtain ⟨j, hj, hjexp, hrunits, hrlt⟩ := significand_spec (x / y)
  obtain ⟨i, hi, hiexp, hcunits, hclt⟩ := significand_spec y
  have hunit := f.unitExponent_add_one
  have hbias := f.bias_pos
  have hbits : 0 < f.mantissaBits := by cases f <;> decide
  obtain ⟨w, hw⟩ : ∃ w, j + i = w + f.unitExponent := ⟨j + i - f.unitExponent, by omega⟩
  have hd : 0 < y.absUnits := Nat.pos_of_ne_zero (isZero_eq_false_iff.1 hz)
  have hc : 0 < y.significand.1 := Nat.pos_of_mul_pos_right (hcunits ▸ hd)
  -- one of the two is not subnormal
  have hlong : 2 ^ f.mantissaBits ≤ (x / y).significand.1 ∨
      2 ^ f.mantissaBits ≤ y.significand.1 := by
    rcases Nat.eq_zero_or_pos i with hi | hi
    · exact .inl (two_pow_le_significand (by omega))
    · exact .inr (two_pow_le_significand (by omega))
  have hround := absUnits_div hx hy hz h
  rw [hrunits, hcunits] at hround
  have hmem := Grid.mem_remainder (g := f.grid) rfl x.mem_absUnits hc hclt hrlt hlong hw hround.symm
  refine ⟨x.units.sign * (((x / y).significand.1 * (y.significand.1 * 2 ^ w) : Nat) -
    x.absUnits), ?_, Grid.mem_sign_mul _ hmem⟩
  have hprod : (x / y).significand.1 * 2 ^ j * (y.significand.1 * 2 ^ i) =
      (x / y).significand.1 * (y.significand.1 * 2 ^ w) * 2 ^ f.unitExponent := by
    calc (x / y).significand.1 * 2 ^ j * (y.significand.1 * 2 ^ i)
        = (x / y).significand.1 * y.significand.1 * 2 ^ (j + i) := by rw [Nat.pow_add]; ring
      _ = _ := by rw [hw, Nat.pow_add]; ring
  rw [quotient_remainder hx hy hz h, hcunits, ← hround, hprod]
  push_cast
  ring

/-- It is a value, and the fused operation gives it. -/
theorem quotient_remainder_exact (hx : x.isFinite) (hy : y.isFinite) (hz : y.isZero = false)
    (h : (x / y).isFinite)
    (hplaces : 1 - (f.bias : ℤ) - f.mantissaBits ≤ (x / y).significand.2 + y.significand.2) :
    ((x / y).mulAdd y (-x)).isFinite ∧
      ((x / y).mulAdd y (-x)).toRat = (x / y).toRat * y.toRat - x.toRat := by
  obtain ⟨n, hn, hmem⟩ := exists_quotient_remainder_eq hx hy hz h hplaces
  have hle := natAbs_quotient_remainder_le hx hy hz h
  rw [hn, Int.natAbs_mul, Int.natAbs_natCast,
    Nat.mul_le_mul_right_iff (Nat.two_pow_pos _)] at hle
  rw [sub_eq_add_neg, ← toRat_neg]
  exact mulAdd_exact h hy hx hn hmem (Nat.lt_of_le_of_lt hle (isFinite_iff.1 hx))

/-! ## Remainders of any size -/

/-- The remainder of a finite product is finite. -/
theorem isFinite_product_remainder (hx : x.isFinite) (hy : y.isFinite) (h : (x * y).isFinite) :
    (x.mulAdd y (-(x * y))).isFinite := by
  have hd := Nat.two_pow_pos f.unitExponent
  have hproduct : f.grid.round (x.units * y.units).natAbs (2 ^ f.unitExponent) < f.unitBound := by
    have hlt := h
    rw [mul_eq_nearest hx hy, isFinite_nearest_iff hd] at hlt
    rwa [Int.natAbs_mul, natAbs_units, natAbs_units]
  have herror := two_mul_round_error_le hd hproduct
  have hsign := Grid.natAbs_sign_mul_le (x.units * y.units) ((x.units * y.units).natAbs -
    (f.grid.round (x.units * y.units).natAbs (2 ^ f.unitExponent) * 2 ^ f.unitExponent : Nat))
  rw [← product_remainder hx hy h] at hsign
  rw [← isFinite_neg] at h
  rw [mulAdd_eq_nearestSum hx hy h, isFinite_nearestSum_iff hd]
  refine Nat.lt_of_le_of_lt (Grid.round_le_two_pow hd (Nat.zero_le _) ?_) f.two_pow_lt_unitBound
  rw [Nat.mul_comm]
  omega

/-- So is the remainder of a finite quotient. -/
theorem isFinite_quotient_remainder (hx : x.isFinite) (hy : y.isFinite) (hz : y.isZero = false)
    (h : (x / y).isFinite) : ((x / y).mulAdd y (-x)).isFinite := by
  have hd := Nat.two_pow_pos f.unitExponent
  have hle := natAbs_quotient_remainder_le hx hy hz h
  have hlt := isFinite_iff.1 hx
  rw [← isFinite_neg] at hx
  rw [mulAdd_eq_nearestSum h hy hx, isFinite_nearestSum_iff hd]
  exact Nat.lt_of_le_of_lt (Grid.round_le_of_mem x.mem_absUnits hd hle) hlt

/-- Divided once more it stays finite, for it is at most a quantum of the last binade times the
    divisor. -/
theorem isFinite_quotient_error (hx : x.isFinite) (hy : y.isFinite) (hz : y.isZero = false)
    (h : (x / y).isFinite) : (-((x / y).mulAdd y (-x)) / y).isFinite := by
  have hd := Nat.two_pow_pos f.unitExponent
  have hc : 0 < y.absUnits := Nat.pos_of_ne_zero (isZero_eq_false_iff.1 hz)
  have hfinite := isFinite_quotient_remainder hx hy hz h
  have hquotient : f.grid.round (x.absUnits * 2 ^ f.unitExponent) y.absUnits < f.unitBound := by
    have hlt := h
    rwa [div_eq_nearest hx hy hz, isFinite_nearest_iff hc] at hlt
  have herror := two_mul_round_error_le hc hquotient
  have hsign := Grid.natAbs_sign_mul_le x.units
    ((f.grid.round (x.absUnits * 2 ^ f.unitExponent) y.absUnits * y.absUnits : Nat) -
      (x.absUnits * 2 ^ f.unitExponent : Nat))
  rw [← quotient_remainder hx hy hz h] at hsign
  -- rounding the remainder at most doubles it
  have hdouble := Grid.round_mul_le_two_mul (g := f.grid) rfl
    ((x / y).units * y.units + (-x).units * (2 ^ f.unitExponent : Nat)).natAbs hd
  rw [← absUnits_mulAdd h hy (by rwa [isFinite_neg]) hfinite] at hdouble
  rw [div_eq_nearest (by rwa [isFinite_neg]) hy hz, isFinite_nearest_iff hc, absUnits_neg]
  refine Nat.lt_of_le_of_lt (Grid.round_le_two_pow hc (Nat.zero_le _) ?_) f.two_pow_lt_unitBound
  rw [Nat.mul_comm (2 ^ _) y.absUnits]
  omega

/-! ## Underflow -/

/-- Ratios of units up to a half are up to half the least positive value. -/
theorem ratio_le_halfUnit_iff {a d : Nat} (hd : 0 < d) :
    (a : ℚ) / d * 2 ^ (-(f.unitExponent : ℤ)) ≤ f.halfUnit ↔ 2 * a ≤ d := by
  have hunit : (0 : ℚ) < 2 ^ (-(f.unitExponent : ℤ)) := by positivity
  have hpos : (0 : ℚ) < d := by exact_mod_cast hd
  have hhalf : f.halfUnit = 1 / 2 * 2 ^ (-(f.unitExponent : ℤ)) := by
    rw [Format.halfUnit, zpow_sub₀ (by norm_num), zpow_one]
    ring
  rw [hhalf, mul_le_mul_iff_left₀ hunit, div_le_div_iff₀ hpos (by norm_num), one_mul, mul_comm]
  norm_cast

/-- A finite fused outcome is zero exactly if the exact one is at most half the least positive
    value. -/
theorem isZero_mulAdd_iff {z : Binary f} (hx : x.isFinite) (hy : y.isFinite) (hz : z.isFinite)
    (h : (x.mulAdd y z).isFinite) :
    (x.mulAdd y z).isZero ↔ |x.toRat * y.toRat + z.toRat| ≤ f.halfUnit := by
  have hd := Nat.two_pow_pos f.unitExponent
  have hunit : (0 : ℚ) < 2 ^ (-(f.unitExponent : ℤ)) := by positivity
  have hsize : ∀ n : ℤ, |(n : ℚ) * (2 ^ (-(f.unitExponent : ℤ)) * 2 ^ (-(f.unitExponent : ℤ)))| =
      (n.natAbs : Nat) / (2 ^ f.unitExponent : Nat) * 2 ^ (-(f.unitExponent : ℤ)) := by
    intro n
    rw [abs_mul, abs_of_pos (mul_pos hunit hunit), Nat.cast_natAbs, Int.cast_abs,
      Target.cast_two_pow, zpow_neg, div_eq_mul_inv, mul_assoc]
  rw [isZero_iff, absUnits_mulAdd hx hy hz h, Grid.round_eq_zero_iff rfl hd, toRat_mul_add, hsize,
    ratio_le_halfUnit_iff hd]

/-- The same of a quotient. -/
theorem isZero_div_iff (hx : x.isFinite) (hy : y.isFinite) (hz : y.isZero = false)
    (h : (x / y).isFinite) : (x / y).isZero ↔ |x.toRat / y.toRat| ≤ f.halfUnit := by
  have hd : 0 < y.absUnits := Nat.pos_of_ne_zero (isZero_eq_false_iff.1 hz)
  rw [isZero_iff, absUnits_div hx hy hz h, Grid.round_eq_zero_iff rfl hd, toRat_div,
    abs_scaled _ (by positivity), ratio_le_halfUnit_iff hd]

end Binary

end VariablePrecision
