/-
  VariablePrecision.Proofs.Binary.Sum

  Sums of finite values as integers.

  A sum of values is the sum of their units, rounded to the grid (`units_add`), as long as it
  is finite; and it is finite only if both terms are (`isFinite_add_iff`).  So a chain of
  additions with a finite outcome had finite values throughout, and can be read as a chain of
  roundings of integers.

  The fused operation goes through the same last step, `nearestSum`.
-/

import VariablePrecision.Proofs.Binary.CorrectRounding
import VariablePrecision.Proofs.Rounding.Bounds

namespace VariablePrecision.Binary

variable {f : Format} {x y z : Binary f}

/-! ## Units with a sign -/

/-- The units of a value from their size and its sign. -/
theorem units_eq {n : ℤ} (hsign : n ≠ 0 → (x.negative = true ↔ n < 0))
    (hsize : x.absUnits = n.natAbs) : x.units = n := by
  unfold units
  rw [hsize]
  rcases eq_or_ne n 0 with rfl | hn
  · simp
  · split
    · next hnegative =>
      have := (hsign hn).1 hnegative
      omega
    · next hpositive =>
      have := mt (hsign hn).2 hpositive
      omega

theorem mem_units (x : Binary f) : f.grid.Mem x.units.natAbs := by
  rw [natAbs_units]
  exact x.mem_absUnits

/-- Finite values have fewer units than the format has room for. -/
theorem natAbs_units_lt (hx : x.isFinite) : x.units.natAbs < f.unitBound := by
  rw [natAbs_units]
  exact isFinite_iff.1 hx

@[simp] theorem units_neg (x : Binary f) : (-x).units = -x.units := by
  have hneg : (-x).negative = !x.negative := rfl
  unfold units
  rw [hneg, absUnits_neg]
  cases x.negative <;> simp

theorem toRat_eq_zero_iff : x.toRat = 0 ↔ x.isZero := by
  have hunit : (2 : ℚ) ^ (-(f.unitExponent : ℤ)) ≠ 0 := (zpow_pos (by norm_num) _).ne'
  rw [isZero_iff, ← natAbs_units, Int.natAbs_eq_zero, toRat, mul_eq_zero, Int.cast_eq_zero,
    or_iff_left hunit]

theorem toRat_ne_zero_iff : x.toRat ≠ 0 ↔ x.isZero = false := by
  rw [ne_eq, toRat_eq_zero_iff, Bool.not_eq_true]

/-- A sum of numbers is exact if the sum of their units is. -/
theorem toRat_add_eq_iff : x.toRat + y.toRat = z.toRat ↔ x.units + y.units = z.units := by
  have hunit : (2 : ℚ) ^ (-(f.unitExponent : ℤ)) ≠ 0 := (zpow_pos (by norm_num) _).ne'
  rw [toRat_add, toRat, mul_left_inj' hunit, Int.cast_inj]

/-! ## Rounded sums -/

theorem isFinite_nearest_iff {s : Bool} {a d : Nat} (hd : 0 < d) :
    (nearest f s a d).isFinite ↔ f.grid.round a d < f.unitBound := by
  refine ⟨fun h => ?_, isFinite_nearest hd⟩
  by_contra hge
  rw [nearest_eq_infinity hd (by omega), isFinite_infinity] at h
  contradiction

/-- The units of a rounded ratio, with the sign of an integer that is negative when the value is. -/
theorem units_nearest {negative : Bool} {s : ℤ} {a d : Nat} (hd : 0 < d)
    (hsign : s ≠ 0 → (negative = true ↔ s < 0)) (hzero : s = 0 → a = 0)
    (h : f.grid.round a d < f.unitBound) :
    (nearest f negative a d).units = s.sign * f.grid.round a d := by
  apply units_eq
  · -- a rounding that is not zero comes from a ratio that has a sign
    intro hne
    have hs : s ≠ 0 := by
      rintro rfl
      simp at hne
    have hsize : f.grid.round a d ≠ 0 := by exact_mod_cast right_ne_zero_of_mul hne
    rw [negative_nearest, hsign hs]
    rcases lt_or_gt_of_ne hs with hneg | hpos
    · rw [Int.sign_eq_neg_one_of_neg hneg]
      exact iff_of_true hneg (by omega)
    · rw [Int.sign_eq_one_of_pos hpos]
      exact iff_of_false (by omega) (by omega)
  · rw [absUnits_nearest hd h, Int.natAbs_mul, Int.natAbs_natCast]
    rcases eq_or_ne s 0 with rfl | hs
    · rw [hzero rfl, Grid.round_zero hd, Nat.mul_zero]
    · rw [Int.natAbs_sign_of_ne_zero hs, Nat.one_mul]

/-- The sum `s / d` of units, as one rounding. -/
theorem nearestSum_eq_nearest (f : Format) (s : ℤ) (d : Nat) (hd : 0 < d) (negativeZero : Bool) :
    ∃ sign : Bool, (s ≠ 0 → (sign = true ↔ s < 0)) ∧
      nearestSum f s d negativeZero = nearest f sign s.natAbs d := by
  unfold nearestSum
  by_cases hs : s = 0
  · refine ⟨negativeZero, fun h => absurd hs h, ?_⟩
    have hround : f.grid.round 0 d = f.grid.round 0 1 := by
      rw [Grid.round_zero hd, Grid.round_zero Nat.one_pos]
    rw [if_pos hs, hs, Int.natAbs_zero, nearest_congr hd Nat.one_pos hround, nearest_zero_eq_zero]
  · exact ⟨decide (s < 0), fun _ => by simp, by rw [if_neg hs]⟩

theorem isFinite_nearestSum_iff {s : ℤ} {d : Nat} (hd : 0 < d) {negativeZero : Bool} :
    (nearestSum f s d negativeZero).isFinite ↔ f.grid.round s.natAbs d < f.unitBound := by
  obtain ⟨sign, -, heq⟩ := nearestSum_eq_nearest f s d hd negativeZero
  rw [heq, isFinite_nearest_iff hd]

theorem absUnits_nearestSum {s : ℤ} {d : Nat} (hd : 0 < d) {negativeZero : Bool}
    (h : f.grid.round s.natAbs d < f.unitBound) :
    (nearestSum f s d negativeZero).absUnits = f.grid.round s.natAbs d := by
  obtain ⟨sign, -, heq⟩ := nearestSum_eq_nearest f s d hd negativeZero
  rw [heq, absUnits_nearest hd h]

/-- A whole sum of units is rounded to the grid. -/
theorem units_nearestSum {n : ℤ} {d : Nat} (hd : 0 < d) (negativeZero : Bool)
    (h : (f.grid.roundInt n).natAbs < f.unitBound) :
    (nearestSum f (n * d) d negativeZero).isFinite ∧
      (nearestSum f (n * d) d negativeZero).units = f.grid.roundInt n := by
  obtain ⟨sign, hsign, heq⟩ := nearestSum_eq_nearest f (n * d) d hd negativeZero
  have hround := Grid.round_natAbs_mul (g := f.grid) n hd
  rw [Grid.natAbs_roundInt, ← hround] at h
  have hunits := units_nearest hd hsign (fun hs => Int.natAbs_eq_zero.2 hs) h
  have hpos : (d : ℤ).sign = 1 := Int.sign_eq_one_of_pos (by exact_mod_cast hd)
  rw [heq]
  refine ⟨isFinite_nearest hd h, ?_⟩
  rw [hunits, hround, Int.sign_mul, hpos, Int.mul_one, Grid.roundInt]

/-! ## The last binade -/

/-- Finite values are at least a quantum of the last binade below the first number of units that
    is too large. -/
theorem natAbs_units_add_le (hx : x.isFinite) :
    x.units.natAbs + 2 ^ (2 * f.bias - 1) ≤ f.unitBound := by
  have hlt := natAbs_units_lt hx
  rw [f.unitBound_eq] at hlt ⊢
  exact Grid.Mem.add_two_pow_le (mem_units x) hlt

/-- Ratios with a finite rounding are rounded by at most half a quantum of the last binade. -/
theorem two_mul_round_error_le {a d : Nat} (hd : 0 < d) (h : f.grid.round a d < f.unitBound) :
    2 * ((f.grid.round a d * d : Nat) - a : ℤ).natAbs ≤ d * 2 ^ (2 * f.bias - 1) := by
  rw [f.unitBound_eq] at h
  exact Grid.two_mul_error_le hd (Nat.zero_le _) h

theorem two_mul_roundInt_error_le {n : ℤ} (h : (f.grid.roundInt n).natAbs < f.unitBound) :
    2 * (f.grid.roundInt n - n).natAbs ≤ 2 ^ (2 * f.bias - 1) := by
  rw [Grid.natAbs_roundInt] at h
  have herror := two_mul_round_error_le Nat.one_pos h
  rw [Grid.natAbs_roundInt_sub]
  omega

/-! ## Addition -/

theorem isFinite_of_isNaN_of_isInfinite (hn : x.isNaN = false) (hi : x.isInfinite = false) :
    x.isFinite := by
  simp only [isFinite, isNaN, isInfinite, decide_eq_true_eq, decide_eq_false_iff_not] at *
  omega

@[simp] theorem isFinite_nan (f : Format) : (nan f).isFinite = false := by
  cases f <;> rfl

/-- Terms of a finite sum are finite. -/
theorem isFinite_of_isFinite_add (h : (x + y).isFinite) : x.isFinite ∧ y.isFinite := by
  change (add x y).isFinite = true at h
  unfold add at h
  -- a not-a-number or an infinity among the terms is passed on
  split at h
  · rw [isFinite_nan] at h
    contradiction
  · next hnan =>
    rw [Bool.or_eq_true, not_or, Bool.not_eq_true, Bool.not_eq_true] at hnan
    split at h
    · next hx =>
      split at h
      · rw [isFinite_nan] at h
        contradiction
      · rw [isFinite_eq_false hx] at h
        contradiction
    · next hx =>
      split at h
      · next hy =>
        rw [isFinite_eq_false hy] at h
        contradiction
      · next hy =>
        exact ⟨isFinite_of_isNaN_of_isInfinite hnan.1 (by simpa using hx),
          isFinite_of_isNaN_of_isInfinite hnan.2 (by simpa using hy)⟩

/-- A sum is finite if its terms are and their rounded sum has room. -/
theorem isFinite_add_iff :
    (x + y).isFinite ↔ x.isFinite ∧ y.isFinite ∧
      (f.grid.roundInt (x.units + y.units)).natAbs < f.unitBound := by
  constructor
  · intro h
    obtain ⟨hx, hy⟩ := isFinite_of_isFinite_add h
    rw [add_eq_nearestSum hx hy, isFinite_nearestSum_iff Nat.one_pos] at h
    exact ⟨hx, hy, by rwa [Grid.natAbs_roundInt]⟩
  · rintro ⟨hx, hy, h⟩
    rw [add_eq_nearestSum hx hy, isFinite_nearestSum_iff Nat.one_pos]
    rwa [Grid.natAbs_roundInt] at h

/-- A finite sum is the rounded sum of the units. -/
theorem units_add (h : (x + y).isFinite) :
    (x + y).units = f.grid.roundInt (x.units + y.units) := by
  obtain ⟨hx, hy, hlt⟩ := isFinite_add_iff.1 h
  have hsum := (units_nearestSum Nat.one_pos (x.negative && y.negative) hlt).2
  rw [Int.natCast_one, Int.mul_one] at hsum
  rw [add_eq_nearestSum hx hy, hsum]

/-- The order of two finite terms is of no account, down to the sign of a zero. -/
theorem add_comm_of_isFinite (hx : x.isFinite) (hy : y.isFinite) : x + y = y + x := by
  rw [add_eq_nearestSum hx hy, add_eq_nearestSum hy hx, Int.add_comm, Bool.and_comm]

/-- A sum that is on the grid is exact. -/
theorem add_exact (hx : x.isFinite) (hy : y.isFinite)
    (hmem : f.grid.Mem (x.units + y.units).natAbs)
    (hlt : (x.units + y.units).natAbs < f.unitBound) :
    (x + y).isFinite ∧ (x + y).units = x.units + y.units := by
  have hround := Grid.roundInt_of_mem hmem
  have hfinite : (x + y).isFinite := isFinite_add_iff.2 ⟨hx, hy, by rwa [hround]⟩
  exact ⟨hfinite, by rw [units_add hfinite, hround]⟩

/-! ## Subtraction -/

/-- A difference is a sum with the sign of its second term changed. -/
theorem sub_eq_add (x y : Binary f) : x - y = x + -y := rfl

/-- Terms of a finite difference are finite. -/
theorem isFinite_of_isFinite_sub (h : (x - y).isFinite) : x.isFinite ∧ y.isFinite :=
  isFinite_of_isFinite_add (y := -y) h

/-- A difference is finite if its terms are and their rounded difference has room. -/
theorem isFinite_sub_iff :
    (x - y).isFinite ↔ x.isFinite ∧ y.isFinite ∧
      (f.grid.roundInt (x.units - y.units)).natAbs < f.unitBound := by
  rw [sub_eq_add, isFinite_add_iff, isFinite_neg, units_neg, Int.sub_eq_add_neg]

/-- A finite difference is the rounded difference of the units. -/
theorem units_sub (h : (x - y).isFinite) :
    (x - y).units = f.grid.roundInt (x.units - y.units) := by
  rw [sub_eq_add] at h ⊢
  rw [units_add h, units_neg, Int.sub_eq_add_neg]

/-- A difference that is on the grid is exact. -/
theorem sub_exact (hx : x.isFinite) (hy : y.isFinite)
    (hmem : f.grid.Mem (x.units - y.units).natAbs)
    (hlt : (x.units - y.units).natAbs < f.unitBound) :
    (x - y).isFinite ∧ (x - y).units = x.units - y.units := by
  rw [Int.sub_eq_add_neg, ← units_neg] at hmem hlt ⊢
  exact add_exact hx (by rwa [isFinite_neg]) hmem hlt

/-! ## The fused operation -/

theorem mulAdd_eq_nearestSum (hx : x.isFinite) (hy : y.isFinite) (hz : z.isFinite) :
    x.mulAdd y z = nearestSum f (x.units * y.units + z.units * (2 ^ f.unitExponent : Nat))
      (2 ^ f.unitExponent) ((x.negative != y.negative) && z.negative) := by
  simp [mulAdd, isNaN_eq_false hx, isNaN_eq_false hy, isNaN_eq_false hz, isInfinite_eq_false hx,
    isInfinite_eq_false hy, isInfinite_eq_false hz]

/-- The units of a finite fused outcome are rounded once. -/
theorem absUnits_mulAdd (hx : x.isFinite) (hy : y.isFinite) (hz : z.isFinite)
    (h : (x.mulAdd y z).isFinite) :
    (x.mulAdd y z).absUnits = f.grid.round
      (x.units * y.units + z.units * (2 ^ f.unitExponent : Nat)).natAbs (2 ^ f.unitExponent) := by
  have hd := Nat.two_pow_pos f.unitExponent
  rw [mulAdd_eq_nearestSum hx hy hz] at h ⊢
  exact absUnits_nearestSum hd ((isFinite_nearestSum_iff hd).1 h)

/-- Counted in squares of the unit, the exact outcome is an integer. -/
theorem toRat_mul_add (x y z : Binary f) :
    x.toRat * y.toRat + z.toRat =
      ((x.units * y.units + z.units * (2 ^ f.unitExponent : Nat) : ℤ) : ℚ) *
        (2 ^ (-(f.unitExponent : ℤ)) * 2 ^ (-(f.unitExponent : ℤ))) := by
  have hpow : (2 : ℚ) ^ (f.unitExponent : ℤ) ≠ 0 := (zpow_pos (by norm_num) _).ne'
  unfold toRat
  rw [Int.cast_add, Int.cast_mul, Int.cast_mul, Int.cast_natCast, Target.cast_two_pow, zpow_neg]
  field_simp

/-- The fused operation is exact if its outcome is a member of the grid. -/
theorem mulAdd_exact (hx : x.isFinite) (hy : y.isFinite) (hz : z.isFinite) {n : ℤ}
    (hn : x.units * y.units + z.units * (2 ^ f.unitExponent : Nat) = n * (2 ^ f.unitExponent : Nat))
    (hmem : f.grid.Mem n.natAbs) (hlt : n.natAbs < f.unitBound) :
    (x.mulAdd y z).isFinite ∧ (x.mulAdd y z).toRat = x.toRat * y.toRat + z.toRat := by
  have hround := Grid.roundInt_of_mem hmem
  have hsum := units_nearestSum (n := n) (Nat.two_pow_pos f.unitExponent)
    ((x.negative != y.negative) && z.negative) (by rwa [hround])
  rw [hround, ← hn, ← mulAdd_eq_nearestSum hx hy hz] at hsum
  have hpow : (2 : ℚ) ^ (f.unitExponent : ℤ) ≠ 0 := (zpow_pos (by norm_num) _).ne'
  refine ⟨hsum.1, ?_⟩
  rw [toRat, hsum.2, toRat_mul_add, hn, Int.cast_mul, Int.cast_natCast, Target.cast_two_pow,
    zpow_neg]
  field_simp

end VariablePrecision.Binary
