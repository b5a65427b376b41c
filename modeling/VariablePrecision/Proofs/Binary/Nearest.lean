/-
  VariablePrecision.Proofs.Binary.Nearest

  `nearest`, the source of all values, in terms of the grid of its format: the units of
  the result are the rounding of the ratio, and the result is infinite exactly if that
  rounding is too large.  So two ratios with one rounding give one value, and a value
  is the one nearest to its own units.

  The arithmetic operations on finite values and the powers of two follow.
-/

import VariablePrecision.Binary.Arithmetic
import VariablePrecision.Proofs.Binary.Units

namespace VariablePrecision

namespace Format

/-- The magnitude nearest to a ratio stands for the rounding of the ratio. -/
theorem unitsAt_nearestMagnitude (f : Format) {a d : Nat} (hd : 0 < d) :
    f.unitsAt (Binary.nearestMagnitude f a d) = f.grid.round a d := by
  have hdepth : f.grid.depth (a / d) = (a / d).log2 - f.mantissaBits := by simp [Grid.depth, grid]
  have hle : (a / d).log2 ≤ (a / d).log2 - f.mantissaBits + f.mantissaBits := by omega
  unfold Binary.nearestMagnitude Grid.round
  dsimp only
  rw [hdepth]
  -- the rounded significand has its implicit bit, unless it is at the least quantum
  have hpos := Nat.mul_pos hd (Nat.two_pow_pos ((a / d).log2 - f.mantissaBits))
  apply unitsAt_add
  · apply nearestEven_le hpos
    calc a ≤ 2 ^ ((a / d).log2 + 1) * d := Nat.le_of_lt (Grid.lt_mul_two_pow a hd)
      _ ≤ 2 ^ (f.mantissaBits + 1 + ((a / d).log2 - f.mantissaBits)) * d :=
          Nat.mul_le_mul_right d (Nat.pow_le_pow_right Nat.two_pos (by omega))
      _ = 2 ^ (f.mantissaBits + 1) * (d * 2 ^ ((a / d).log2 - f.mantissaBits)) := by
          rw [Nat.pow_add]; ring
  · rcases Nat.eq_zero_or_pos ((a / d).log2 - f.mantissaBits) with hzero | hne
    · exact .inl hzero
    · right
      apply le_nearestEven hpos
      have hda : d ≤ a := by
        by_contra hlt
        rw [Nat.div_eq_of_lt (by omega)] at hne
        simp at hne
      calc 2 ^ f.mantissaBits * (d * 2 ^ ((a / d).log2 - f.mantissaBits))
          = 2 ^ (f.mantissaBits + ((a / d).log2 - f.mantissaBits)) * d := by
            rw [Nat.pow_add]; ring
        _ = 2 ^ (a / d).log2 * d := by congr 2; omega
        _ ≤ a := Grid.two_pow_mul_le hd hda

end Format

namespace Binary

variable {f : Format} {a d : Nat} {s : Bool}

/-! ## The nearest value -/

@[simp] theorem negative_nearest : (nearest f s a d).negative = s := rfl

@[simp] theorem negative_infinity : (infinity f s).negative = s := rfl

@[simp] theorem negative_zero : (zero f s).negative = s := rfl

theorem absUnits_ofMagnitude {m : Nat} (hm : m < f.infinityMagnitude) :
    (ofMagnitude s m : Binary f).absUnits = f.unitsAt m := by
  have hmin : min m f.infinityMagnitude = m := Nat.min_eq_left (Nat.le_of_lt hm)
  simp [absUnits_eq, ofMagnitude, hmin]

theorem isFinite_ofMagnitude {m : Nat} (hm : m < f.infinityMagnitude) :
    (ofMagnitude s m : Binary f).isFinite := by
  simpa [isFinite, ofMagnitude] using hm

/-- Whether a ratio is too large for the format. -/
theorem nearestMagnitude_lt_iff (hd : 0 < d) :
    nearestMagnitude f a d < f.infinityMagnitude ↔ f.grid.round a d < f.unitBound := by
  rw [← f.unitsAt_nearestMagnitude hd, ← f.unitsAt_infinityMagnitude,
    f.unitsAt_strictMono.lt_iff_lt]

theorem isFinite_nearest (hd : 0 < d) (h : f.grid.round a d < f.unitBound) :
    (nearest f s a d).isFinite :=
  isFinite_ofMagnitude ((nearestMagnitude_lt_iff hd).2 h)

theorem absUnits_nearest (hd : 0 < d) (h : f.grid.round a d < f.unitBound) :
    (nearest f s a d).absUnits = f.grid.round a d := by
  rw [nearest, absUnits_ofMagnitude ((nearestMagnitude_lt_iff hd).2 h),
    f.unitsAt_nearestMagnitude hd]

theorem nearest_eq_infinity (hd : 0 < d) (h : f.unitBound ≤ f.grid.round a d) :
    nearest f s a d = infinity f s := by
  have hm : f.infinityMagnitude ≤ nearestMagnitude f a d := by
    have := mt (nearestMagnitude_lt_iff (f := f) (a := a) hd).1 (by omega)
    omega
  simp [nearest, infinity, ofMagnitude, Nat.min_eq_right hm]

@[simp] theorem isFinite_infinity : (infinity f s).isFinite = false := by
  simp [isFinite, infinity, ofMagnitude]

@[simp] theorem isInfinite_infinity : (infinity f s).isInfinite = true := by
  simp [isInfinite, infinity, ofMagnitude]

@[simp] theorem isNaN_infinity : (infinity f s).isNaN = false := by
  simp [isNaN, infinity, ofMagnitude]

/-- Ratios with the same rounding have the same nearest value. -/
theorem nearest_congr {b c : Nat} (hd : 0 < d) (hc : 0 < c)
    (h : f.grid.round a d = f.grid.round b c) : nearest f s a d = nearest f s b c := by
  have hm : nearestMagnitude f a d = nearestMagnitude f b c := by
    apply f.unitsAt_strictMono.injective
    rw [f.unitsAt_nearestMagnitude hd, f.unitsAt_nearestMagnitude hc, h]
  rw [nearest, nearest, hm]

theorem nearest_mul_right {c : Nat} (hd : 0 < d) (hc : 0 < c) :
    nearest f s (a * c) (d * c) = nearest f s a d :=
  nearest_congr (Nat.mul_pos hd hc) hd (Grid.round_mul_right hd hc)

theorem round_absUnits (x : Binary f) : f.grid.round x.absUnits 1 = x.absUnits :=
  Grid.round_one_of_mem x.mem_absUnits

/-- A finite value is the one nearest to its own units. -/
theorem nearest_absUnits {x : Binary f} (hx : x.isFinite) :
    nearest f x.negative x.absUnits 1 = x := by
  have hlt := isFinite_iff.1 hx
  refine eq_of_absUnits (by simp) ?_
  rw [absUnits_nearest Nat.one_pos (by rwa [round_absUnits]), round_absUnits]

theorem nearest_zero_eq_zero : nearest f s 0 1 = zero f s := by
  have hround : f.grid.round 0 1 = 0 := Grid.round_one_of_mem (Grid.mem_zero _)
  have hbound : 0 < f.unitBound := Nat.two_pow_pos _
  have hinf : 0 < f.infinityMagnitude := by
    have := Nat.two_pow_pos f.mantissaBits
    rw [f.infinityMagnitude_eq]
    omega
  refine eq_of_absUnits (by simp) ?_
  rw [absUnits_nearest Nat.one_pos (by omega), hround, zero, absUnits_ofMagnitude hinf,
    f.unitsAt_zero]

@[simp] theorem absUnits_zero : (zero f s).absUnits = 0 := by
  rw [← isZero_iff]
  simp [isZero, zero, ofMagnitude]

@[simp] theorem isFinite_zero : (zero f s).isFinite := by
  rw [isFinite_iff, absUnits_zero]
  exact Nat.two_pow_pos _

/-! ## Natural numbers and powers of two -/

/-- A number of at most `mantissaBits + 1` bits is a value. -/
theorem ofNat_eq_exact {n : Nat} (hn : n < 2 ^ (f.mantissaBits + 1)) :
    (ofNat f n).isFinite ∧ (ofNat f n).absUnits = n * 2 ^ f.unitExponent := by
  have hmem : f.grid.Mem (n * 2 ^ f.unitExponent) := Grid.mem_mul_two_pow (Nat.zero_le _) hn
  have hround := Grid.round_one_of_mem hmem
  have hlt : n * 2 ^ f.unitExponent < f.unitBound := by
    have hbits : f.mantissaBits ≤ f.bias := by cases f <;> decide
    calc n * 2 ^ f.unitExponent < 2 ^ (f.mantissaBits + 1) * 2 ^ f.unitExponent :=
          Nat.mul_lt_mul_of_pos_right hn (Nat.two_pow_pos _)
      _ = 2 ^ (f.mantissaBits + 1 + f.unitExponent) := (Nat.pow_add _ _ _).symm
      _ ≤ f.unitBound := Nat.pow_le_pow_right Nat.two_pos (by omega)
  rw [ofNat]
  exact ⟨isFinite_nearest Nat.one_pos (by omega), by
    rw [absUnits_nearest Nat.one_pos (by omega), hround]⟩

@[simp] theorem negative_exp2 (e : Int) : (exp2 f e).negative = false := by
  unfold exp2
  dsimp only
  split_ifs <;> rfl

/-- The powers of two from the least positive value to the greatest power are values. -/
theorem exp2_eq_exact {e : Int} {k : Nat} (hk : (k : Int) = e + f.unitExponent)
    (he : e ≤ f.bias) : (exp2 f e).isFinite ∧ (exp2 f e).absUnits = 2 ^ k := by
  have hunit := f.unitExponent_add_one
  have hinf := f.infinityMagnitude_eq
  have hpos := Nat.two_pow_pos f.mantissaBits
  have hbias := f.bias_pos
  unfold exp2
  dsimp only
  rw [f.two_pow_exponentBits_int, if_neg (by omega)]
  by_cases hnormal : 1 ≤ e + f.bias
  · -- a normal power is its exponent field, with an empty mantissa
    rw [if_pos hnormal]
    obtain ⟨b, hb⟩ : ∃ b : Nat, (e + f.bias).toNat = b + 1 := ⟨(e + f.bias).toNat - 1, by omega⟩
    have hmag : (b + 1) * 2 ^ f.mantissaBits = b * 2 ^ f.mantissaBits + 2 ^ f.mantissaBits := by
      ring
    have hlt : (b + 1) * 2 ^ f.mantissaBits < f.infinityMagnitude := by
      have : b * 2 ^ f.mantissaBits < 2 * f.bias * 2 ^ f.mantissaBits :=
        Nat.mul_lt_mul_of_pos_right (by omega) hpos
      omega
    rw [hb]
    refine ⟨isFinite_ofMagnitude hlt, ?_⟩
    rw [absUnits_ofMagnitude hlt, hmag,
      f.unitsAt_add (Nat.pow_le_pow_right Nat.two_pos (by omega)) (.inr (Nat.le_refl _)),
      ← Nat.pow_add]
    congr 1
    omega
  · -- a subnormal power is one bit of the mantissa
    rw [if_neg hnormal, if_pos (by omega)]
    have hexp : ((f.mantissaBits : Int) - 1 + (e + f.bias)).toNat = k := by omega
    rw [hexp]
    have hle : 2 ^ k ≤ 2 ^ f.mantissaBits := Nat.pow_le_pow_right Nat.two_pos (by omega)
    have hlt : 2 ^ k < f.infinityMagnitude := by
      have : 1 * 2 ^ f.mantissaBits ≤ 2 * f.bias * 2 ^ f.mantissaBits :=
        Nat.mul_le_mul_right _ (by omega)
      omega
    refine ⟨isFinite_ofMagnitude hlt, ?_⟩
    have hunits := f.unitsAt_add (p := 0) (s := 2 ^ k)
      (Nat.le_trans hle (Nat.pow_le_pow_right Nat.two_pos (by omega))) (.inl rfl)
    rw [absUnits_ofMagnitude hlt]
    simpa using hunits

/-! ## Arithmetic on finite values -/

variable {x y : Binary f}

theorem add_eq_nearestSum (hx : x.isFinite) (hy : y.isFinite) :
    x + y = nearestSum f (x.units + y.units) 1 (x.negative && y.negative) := by
  change add x y = _
  simp [add, isNaN_eq_false hx, isNaN_eq_false hy, isInfinite_eq_false hx, isInfinite_eq_false hy]

/-- The sum of two values by that of their units. -/
theorem add_eq_of_units (hx : x.isFinite) (hy : y.isFinite) {n : Int}
    (hn : x.units + y.units = n) {z : Binary f}
    (hz : nearestSum f n 1 (x.negative && y.negative) = z) : x + y = z := by
  rw [add_eq_nearestSum hx hy, hn, hz]

theorem mul_eq_nearest (hx : x.isFinite) (hy : y.isFinite) :
    x * y = nearest f (x.negative != y.negative) (x.absUnits * y.absUnits)
      (2 ^ f.unitExponent) := by
  change mul x y = _
  simp [mul, isNaN_eq_false hx, isNaN_eq_false hy, isInfinite_eq_false hx, isInfinite_eq_false hy]

theorem div_eq_nearest (hx : x.isFinite) (hy : y.isFinite) (hz : y.isZero = false) :
    x / y = nearest f (x.negative != y.negative) (x.absUnits * 2 ^ f.unitExponent)
      y.absUnits := by
  change div x y = _
  simp [div, isNaN_eq_false hx, isNaN_eq_false hy, isInfinite_eq_false hx, isInfinite_eq_false hy,
    hz]

/-- An infinity times a finite value that is not zero is an infinity. -/
theorem infinity_mul (hy : y.isFinite) (hz : y.isZero = false) :
    infinity f s * y = infinity f (s != y.negative) := by
  have hzero : (infinity f s).isZero = false := by
    have := f.infinityMagnitude_eq
    have := Nat.two_pow_pos f.mantissaBits
    simp only [isZero, infinity, ofMagnitude, Nat.min_self, decide_eq_false_iff_not]
    omega
  change mul (infinity f s) y = _
  simp [mul, isNaN_eq_false hy, hz, hzero]

end Binary

end VariablePrecision
