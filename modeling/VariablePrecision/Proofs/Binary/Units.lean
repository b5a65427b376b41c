/-
  VariablePrecision.Proofs.Binary.Units

  Values as numbers of units.  A magnitude `p * 2 ^ mantissaBits + s`, whose significand
  `s` has its implicit bit, stands for `s * 2 ^ p` units, and subnormal magnitudes are
  the case `p = 0`.  This one reading covers every magnitude, which makes `unitsAt`
  strictly increasing and puts its values on the grid of the format.

  The last section relates the two ways to ask for the size of a value: its exponent
  field, and the leading bit of its units.
-/

import VariablePrecision.Proofs.Rounding.Grid

namespace VariablePrecision

namespace Format

/-! ## Widths -/

theorem two_pow_exponentBits (f : Format) : 2 ^ f.exponentBits = 2 * f.bias + 2 := by
  cases f <;> decide

theorem two_pow_exponentBits_int (f : Format) : (2 : Int) ^ f.exponentBits = 2 * f.bias + 2 := by
  cases f <;> decide

theorem bias_pos (f : Format) : 0 < f.bias := by
  cases f <;> decide

theorem bias_le (f : Format) : f.bias ≤ 1023 := by
  cases f <;> decide

theorem mantissaBits_le (f : Format) : f.mantissaBits ≤ 52 := by
  cases f <;> decide

theorem unitExponent_add_one (f : Format) : f.unitExponent + 1 = f.bias + f.mantissaBits := by
  have := bias_pos f
  unfold unitExponent
  omega

theorem infinityMagnitude_eq (f : Format) :
    f.infinityMagnitude = 2 * f.bias * 2 ^ f.mantissaBits + 2 ^ f.mantissaBits := by
  unfold infinityMagnitude
  rw [two_pow_exponentBits, show 2 * f.bias + 2 - 1 = 2 * f.bias + 1 by omega, Nat.add_mul,
    Nat.one_mul]

/-! ## The units of a magnitude -/

/-- The number of units that a magnitude stands for. -/
def unitsAt (f : Format) (magnitude : Nat) : Nat :=
  if magnitude / 2 ^ f.mantissaBits = 0 then magnitude % 2 ^ f.mantissaBits
  else (2 ^ f.mantissaBits + magnitude % 2 ^ f.mantissaBits) *
    2 ^ (magnitude / 2 ^ f.mantissaBits - 1)

/-- The first number of units that is too large for a finite value. -/
def unitBound (f : Format) : Nat := 2 ^ (f.unitExponent + f.bias + 1)

/-- The quantum of the last binade is `2 ^ (2 * bias - 1)` units. -/
theorem unitBound_eq (f : Format) :
    f.unitBound = 2 ^ (2 * f.bias - 1 + f.mantissaBits + 1) := by
  have := unitExponent_add_one f
  have := bias_pos f
  rw [unitBound]
  congr 1
  omega

theorem two_pow_lt_unitBound (f : Format) : 2 ^ (2 * f.bias - 1) < f.unitBound := by
  rw [unitBound_eq]
  exact Nat.pow_lt_pow_right Nat.one_lt_two (by omega)

/-- The numbers of units of the finite values, with no bound above. -/
def grid (f : Format) : Grid := ⟨f.mantissaBits, 0⟩

@[simp] theorem grid_precision (f : Format) : f.grid.precision = f.mantissaBits := rfl

@[simp] theorem grid_lowest (f : Format) : f.grid.lowest = 0 := rfl

/-- A magnitude from its significand; the significand may have carried. -/
theorem unitsAt_add (f : Format) {p s : Nat} (hs : s ≤ 2 ^ (f.mantissaBits + 1))
    (hp : p = 0 ∨ 2 ^ f.mantissaBits ≤ s) :
    f.unitsAt (p * 2 ^ f.mantissaBits + s) = s * 2 ^ p := by
  have hpos := Nat.two_pow_pos f.mantissaBits
  rw [Nat.pow_succ] at hs
  unfold unitsAt
  generalize 2 ^ f.mantissaBits = m at *
  rcases Nat.lt_or_ge s m with hlt | hge
  · -- without its implicit bit the significand is that of a subnormal magnitude
    obtain rfl : p = 0 := by omega
    simp [Nat.mod_eq_of_lt hlt, Nat.div_eq_of_lt hlt]
  · obtain ⟨r, rfl⟩ := Nat.exists_eq_add_of_le hge
    rcases Nat.lt_or_eq_of_le hs with hlt | heq
    -- the exponent field is `p + 1`, and `p + 2` if the significand has carried
    · have hsplit : p * m + (m + r) = r + m * (p + 1) := by ring
      rw [hsplit, Nat.add_mul_div_left _ _ hpos, Nat.add_mul_mod_self_left,
        Nat.div_eq_of_lt (by omega), Nat.mod_eq_of_lt (by omega), if_neg (by omega)]
      congr 2
      omega
    · obtain rfl : r = m := by omega
      have hsplit : p * r + (r + r) = 0 + r * (p + 2) := by ring
      rw [hsplit, Nat.add_mul_div_left _ _ hpos, Nat.add_mul_mod_self_left, Nat.zero_div,
        Nat.zero_mod, if_neg (by omega), show 0 + (p + 2) - 1 = p + 1 by omega, Nat.pow_succ]
      ring

/-- Every magnitude has a significand. -/
theorem exists_significand (f : Format) (magnitude : Nat) :
    ∃ p s, magnitude = p * 2 ^ f.mantissaBits + s ∧ s < 2 ^ (f.mantissaBits + 1) ∧
      (p = 0 ∨ 2 ^ f.mantissaBits ≤ s) := by
  have hpos := Nat.two_pow_pos f.mantissaBits
  have hdiv := Nat.div_add_mod magnitude (2 ^ f.mantissaBits)
  have hmod := Nat.mod_lt magnitude hpos
  rw [Nat.pow_succ]
  generalize 2 ^ f.mantissaBits = m at *
  rcases Nat.eq_zero_or_pos (magnitude / m) with hzero | hne
  · refine ⟨0, magnitude % m, ?_, by omega, .inl rfl⟩
    rw [hzero] at hdiv
    omega
  · refine ⟨magnitude / m - 1, m + magnitude % m, ?_, by omega, .inr (by omega)⟩
    have : (magnitude / m - 1) * m = m * (magnitude / m) - m := by
      rw [Nat.mul_comm, Nat.mul_sub, Nat.mul_one]
    have : m * 1 ≤ m * (magnitude / m) := Nat.mul_le_mul_left m hne
    omega

theorem unitsAt_lt_succ (f : Format) (magnitude : Nat) :
    f.unitsAt magnitude < f.unitsAt (magnitude + 1) := by
  obtain ⟨p, s, rfl, hs, hp⟩ := f.exists_significand magnitude
  rw [f.unitsAt_add (by omega) hp, Nat.add_assoc, f.unitsAt_add (by omega) (by omega)]
  exact Nat.mul_lt_mul_of_pos_right (by omega) (Nat.two_pow_pos p)

/-- Greater magnitudes stand for more units. -/
theorem unitsAt_strictMono (f : Format) : StrictMono f.unitsAt :=
  strictMono_nat_of_lt_succ f.unitsAt_lt_succ

theorem unitsAt_infinityMagnitude (f : Format) : f.unitsAt f.infinityMagnitude = f.unitBound := by
  have := unitExponent_add_one f
  rw [infinityMagnitude_eq, unitsAt_add f (Nat.pow_le_pow_right Nat.two_pos (by omega)) (by simp),
    ← Nat.pow_add, unitBound]
  congr 1
  omega

/-- The greatest finite value is one quantum of the last binade below the bound. -/
theorem unitsAt_greatest (f : Format) :
    f.unitsAt (f.infinityMagnitude - 1) + 2 ^ (2 * f.bias - 1) = f.unitBound := by
  have hbias := f.bias_pos
  have hm := Nat.two_pow_pos f.mantissaBits
  -- its significand is full
  have hlast : f.infinityMagnitude - 1 =
      (2 * f.bias - 1) * 2 ^ f.mantissaBits + (2 ^ (f.mantissaBits + 1) - 1) := by
    have hsucc : 2 * f.bias = 2 * f.bias - 1 + 1 := by omega
    rw [f.infinityMagnitude_eq, hsucc, Nat.succ_mul, Nat.add_sub_cancel, Nat.pow_succ]
    omega
  calc f.unitsAt (f.infinityMagnitude - 1) + 2 ^ (2 * f.bias - 1)
      = (2 ^ (f.mantissaBits + 1) - 1) * 2 ^ (2 * f.bias - 1) + 2 ^ (2 * f.bias - 1) := by
        rw [hlast, f.unitsAt_add (Nat.sub_le _ _) (.inr (by rw [Nat.pow_succ]; omega))]
    _ = 2 ^ (f.mantissaBits + 1) * 2 ^ (2 * f.bias - 1) := by
        rw [← Nat.succ_mul, Nat.succ_eq_add_one, Nat.sub_add_cancel (Nat.two_pow_pos _)]
    _ = f.unitBound := by
        rw [f.unitBound_eq, ← Nat.pow_add]
        congr 1
        omega

@[simp] theorem unitsAt_zero (f : Format) : f.unitsAt 0 = 0 := by
  simp [unitsAt]

theorem mem_unitsAt (f : Format) (magnitude : Nat) : f.grid.Mem (f.unitsAt magnitude) := by
  obtain ⟨p, s, rfl, hs, hp⟩ := f.exists_significand magnitude
  rw [f.unitsAt_add (by omega) hp]
  exact Grid.mem_mul_two_pow (Nat.zero_le p) hs

end Format

namespace Binary

variable {f : Format}

/-! ## The units of a value -/

theorem absUnits_eq (x : Binary f) : x.absUnits = f.unitsAt x.magnitude := rfl

/-- The units of a value are on the grid of its format. -/
theorem mem_absUnits (x : Binary f) : f.grid.Mem x.absUnits := f.mem_unitsAt x.magnitude

theorem isFinite_iff {x : Binary f} : x.isFinite ↔ x.absUnits < f.unitBound := by
  rw [absUnits_eq, ← f.unitsAt_infinityMagnitude, f.unitsAt_strictMono.lt_iff_lt]
  simp [isFinite]

theorem isZero_iff {x : Binary f} : x.isZero ↔ x.absUnits = 0 := by
  rw [absUnits_eq, ← f.unitsAt_zero, f.unitsAt_strictMono.injective.eq_iff]
  simp [isZero]

theorem isZero_eq_false_iff {x : Binary f} : x.isZero = false ↔ x.absUnits ≠ 0 := by
  rw [← Bool.not_eq_true, isZero_iff]

theorem natAbs_units (x : Binary f) : x.units.natAbs = x.absUnits := by
  unfold units
  split <;> simp

/-- Values are the same if they have the same sign and the same units. -/
theorem eq_of_absUnits {x y : Binary f} (hn : x.negative = y.negative)
    (hu : x.absUnits = y.absUnits) : x = y := by
  have hm : x.magnitude = y.magnitude := f.unitsAt_strictMono.injective hu
  obtain ⟨sx, mx, hx⟩ := x
  obtain ⟨sy, my, hy⟩ := y
  obtain rfl : sx = sy := hn
  obtain rfl : mx = my := hm
  rfl

theorem isNaN_eq_false {x : Binary f} (hx : x.isFinite) : x.isNaN = false := by
  simp only [isFinite, isNaN, decide_eq_true_eq, decide_eq_false_iff_not] at *
  omega

theorem isInfinite_eq_false {x : Binary f} (hx : x.isFinite) : x.isInfinite = false := by
  simp only [isFinite, isInfinite, decide_eq_true_eq, decide_eq_false_iff_not] at *
  omega

/-- What is neither finite nor an infinity is no number. -/
theorem isInfinite_of_isFinite_eq_false {x : Binary f} (hx : x.isFinite = false)
    (hn : x.isNaN = false) : x.isInfinite := by
  simp only [isFinite, isNaN, isInfinite, decide_eq_true_eq, decide_eq_false_iff_not] at *
  omega

theorem isFinite_eq_false {x : Binary f} (hx : x.isInfinite) : x.isFinite = false := by
  simp only [isFinite, isInfinite, decide_eq_true_eq, decide_eq_false_iff_not] at *
  omega

/-- An infinity counts as the first number of units that is too large. -/
theorem absUnits_of_isInfinite {x : Binary f} (hx : x.isInfinite) : x.absUnits = f.unitBound := by
  rw [absUnits_eq, show x.magnitude = f.infinityMagnitude by simpa [isInfinite] using hx,
    f.unitsAt_infinityMagnitude]

theorem absUnits_le_unitBound {x : Binary f} (hx : x.isNaN = false) :
    x.absUnits ≤ f.unitBound := by
  cases hfinite : x.isFinite with
  | true => exact Nat.le_of_lt (isFinite_iff.1 hfinite)
  | false => exact (absUnits_of_isInfinite (isInfinite_of_isFinite_eq_false hfinite hx)).le

/-- The exponent field grows with the size. -/
theorem exponent_mono {x y : Binary f} (h : x.absUnits ≤ y.absUnits) :
    x.exponent ≤ y.exponent := by
  rw [absUnits_eq, absUnits_eq, f.unitsAt_strictMono.le_iff_le] at h
  have hfield : x.biasedExponent ≤ y.biasedExponent := Nat.div_le_div_right h
  unfold exponent
  omega

/-! ## The leading bit -/

/-- Where the exponent field is empty, there are fewer units than a normal value has. -/
theorem absUnits_lt_of_biasedExponent {x : Binary f} (hx : x.biasedExponent = 0) :
    x.absUnits < 2 ^ f.mantissaBits := by
  rw [absUnits, if_pos hx, mantissa]
  exact Nat.mod_lt _ (Nat.two_pow_pos _)

/-- The exponent field of a normal value is the place of the leading bit of its units. -/
theorem log2_absUnits {x : Binary f} (hx : x.biasedExponent ≠ 0) :
    (x.absUnits.log2 : Int) = x.exponent + f.unitExponent := by
  have hlt : x.mantissa < 2 ^ f.mantissaBits := Nat.mod_lt _ (Nat.two_pow_pos _)
  have hlog : x.absUnits.log2 = f.mantissaBits + (x.biasedExponent - 1) := by
    rw [absUnits, if_neg hx, Nat.log2_eq_iff
      (Nat.mul_ne_zero (by omega) (Nat.two_pow_pos _).ne')]
    constructor
    · rw [Nat.pow_add]
      exact Nat.mul_le_mul_right _ (by omega)
    · rw [show f.mantissaBits + (x.biasedExponent - 1) + 1 =
        f.mantissaBits + 1 + (x.biasedExponent - 1) by omega, Nat.pow_add]
      exact Nat.mul_lt_mul_of_pos_right (by omega) (Nat.two_pow_pos _)
  have := f.unitExponent_add_one
  rw [hlog, exponent]
  omega

/-- Exponents of the normal range are compared as powers of two of units. -/
theorem le_exponent_iff {x : Binary f} {e : Nat} (he : f.mantissaBits ≤ e) :
    (e : Int) ≤ x.exponent + f.unitExponent ↔ 2 ^ e ≤ x.absUnits := by
  by_cases hx : x.biasedExponent = 0
  · have hlt := absUnits_lt_of_biasedExponent hx
    have hpow : 2 ^ f.mantissaBits ≤ 2 ^ e := Nat.pow_le_pow_right Nat.two_pos he
    have := f.unitExponent_add_one
    rw [exponent, hx]
    omega
  · have hne : x.absUnits ≠ 0 := by
      rw [absUnits, if_neg hx]
      exact Nat.mul_ne_zero (by have := Nat.two_pow_pos f.mantissaBits; omega)
        (Nat.two_pow_pos _).ne'
    rw [← log2_absUnits hx, Int.ofNat_le, Nat.le_log2 hne]

end Binary

end VariablePrecision
