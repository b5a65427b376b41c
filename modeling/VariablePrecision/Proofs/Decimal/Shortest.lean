/-
  VariablePrecision.Proofs.Decimal.Shortest

  The shortest decimal of a finite value is rounded to the value.

  Every ratio in the interval of a value is rounded to it (`round_of_contains`): the ratio
  lies in the binade of the value, or else right below it, where the quanta are half as
  wide.  Decimals are only taken from that interval, on grids that become finer, and the
  finest one has the value itself (`contains_shortest`).
-/

import VariablePrecision.Decimal.Shortest
import VariablePrecision.Proofs.Target.Rounds

namespace VariablePrecision

/-! ## Rounding in a known binade -/

namespace Grid

variable {g : Grid} {a d c k : Nat}

theorem depth_le (hd : 0 < d) (hlow : g.lowest ≤ k) (h : a < 2 ^ (g.precision + 1) * (d * 2 ^ k)) :
    g.depth (a / d) ≤ k := by
  have hlt : a / d < 2 ^ (k + g.precision + 1) := by
    rw [Nat.div_lt_iff_lt_mul hd]
    calc a < 2 ^ (g.precision + 1) * (d * 2 ^ k) := h
      _ = 2 ^ (k + g.precision + 1) * d := by rw [Nat.add_assoc, Nat.pow_add]; ring
  exact depth_le_iff.2 ⟨hlow, log2_le_of_lt hlt⟩

theorem le_depth (hd : 0 < d) (h : 2 ^ g.precision * (d * 2 ^ k) ≤ a) : k ≤ g.depth (a / d) := by
  have hle : 2 ^ (k + g.precision) ≤ a / d := by
    rw [Nat.le_div_iff_mul_le hd]
    calc 2 ^ (k + g.precision) * d = 2 ^ g.precision * (d * 2 ^ k) := by rw [Nat.pow_add]; ring
      _ ≤ a := h
  have hlog := le_log2_of_le hle
  have := g.log2_le_depth (a / d)
  omega

/-- A ratio of a known binade, above the lowest one or in it, is rounded to the number of quanta
    that it is within half a quantum of. -/
theorem round_eq_mul (hd : 0 < d) (hlow : g.lowest ≤ k)
    (hlt : a < 2 ^ (g.precision + 1) * (d * 2 ^ k))
    (hfull : g.lowest < k → 2 ^ g.precision * (d * 2 ^ k) ≤ a)
    (hle : 2 * (c * (d * 2 ^ k)) ≤ 2 * a + d * 2 ^ k)
    (hge : 2 * a ≤ 2 * (c * (d * 2 ^ k)) + d * 2 ^ k)
    (heven : 2 * (c * (d * 2 ^ k)) = 2 * a + d * 2 ^ k ∨
      2 * a = 2 * (c * (d * 2 ^ k)) + d * 2 ^ k → c % 2 = 0) : g.round a d = c * 2 ^ k := by
  have hq : 0 < d * 2 ^ k := Nat.mul_pos hd (Nat.two_pow_pos k)
  have hdepth : g.depth (a / d) = k := by
    refine Nat.le_antisymm (depth_le hd hlow hlt) ?_
    rcases Nat.eq_or_lt_of_le hlow with rfl | hlow
    · exact lowest_le_depth g _
    · exact le_depth hd (hfull hlow)
  rw [← Nat.mul_assoc] at hle hge heven
  rw [round, hdepth, (nearestEven_eq_iff hq).2 ⟨hle, hge, heven⟩]

/-- A ratio within half a quantum below a power of two is rounded up to it. -/
theorem round_eq_two_pow (hd : 0 < d) (hlow : g.lowest ≤ k)
    (hlt : a < 2 ^ (g.precision + 1) * (d * 2 ^ k))
    (hnear : 2 * (2 ^ (g.precision + 1) * (d * 2 ^ k)) ≤ 2 * a + d * 2 ^ k) :
    g.round a d = 2 ^ (g.precision + 1) * 2 ^ k := by
  have hone : d * 2 ^ k ≤ 2 ^ g.precision * (d * 2 ^ k) :=
    Nat.le_mul_of_pos_left _ (Nat.two_pow_pos _)
  have hdouble : 2 ^ (g.precision + 1) * (d * 2 ^ k) = 2 * (2 ^ g.precision * (d * 2 ^ k)) := by
    rw [Nat.pow_succ']
    ring
  exact round_eq_mul hd hlow hlt (fun _ => by omega) hnear (by omega)
    fun _ => by rw [Nat.pow_succ, Nat.mul_mod_left]

end Grid

namespace Decimal

open Binary (significand_spec significand_mod_two)

variable {f : Format} {x : Binary f} {a d : Nat} {tie : Tie} {k : ℤ}

/-! ## Intervals -/

namespace Interval

theorem contains_iff {i : Interval} {n : Nat} :
    i.contains n = true ↔
      i.low ≤ n ∧ n ≤ i.high ∧ (i.closed = false → n ≠ i.low ∧ n ≠ i.high) := by
  unfold contains
  cases i.closed
  · simp
    omega
  · simp

/-- A multiple that is found lies in the interval. -/
theorem contains_of_nearestMultiple? {i : Interval} {step n : Nat}
    (h : i.nearestMultiple? step tie = some n) : i.contains (n * step) = true := by
  unfold nearestMultiple? at h
  dsimp only at h
  split at h
  · obtain rfl := Option.some.inj h
    split <;> assumption
  · obtain rfl := Option.some.inj h
    assumption
  · obtain rfl := Option.some.inj h
    assumption
  · contradiction

/-- If the value itself is a multiple in the interval, one is found. -/
theorem isSome_nearestMultiple? {i : Interval} {step n : Nat} (hstep : 0 < step)
    (hvalue : i.value = n * step) (h : i.contains i.value = true) :
    (i.nearestMultiple? step tie).isSome = true := by
  have hbelow : i.contains (i.value / step * step) = true := by
    rw [hvalue, Nat.mul_div_cancel n hstep, ← hvalue]
    exact h
  unfold nearestMultiple?
  dsimp only
  rw [hbelow]
  cases i.contains ((i.value / step + 1) * step) <;> rfl

end Interval

/-- A ratio in the interval of a value is rounded to it. -/
theorem round_of_contains (hd : 0 < d)
    (h : ((interval x).scale d).contains (4 * a) = true) : f.grid.round a d = x.absUnits := by
  obtain ⟨hlow, hhigh, hends⟩ := Interval.contains_iff.1 h
  obtain ⟨j, -, hj, hunits, hlt⟩ := significand_spec x
  have hparity := significand_mod_two x
  have hfull : x.biasedExponent ≠ 0 → x.significand.1 = 2 ^ f.mantissaBits + x.mantissa :=
    fun hb => by rw [Binary.significand, if_neg hb]
  -- everything is counted in quanta of the value, over the denominator
  have hq : 0 < d * 2 ^ j := Nat.mul_pos hd (Nat.two_pow_pos j)
  have hvalue : 4 * x.absUnits * d = 4 * (x.significand.1 * (d * 2 ^ j)) := by rw [hunits]; ring
  have hgap : 2 * 2 ^ j * d = 2 * (d * 2 ^ j) := by ring
  simp only [interval, Interval.scale, ← hj, Nat.add_mul, Nat.sub_mul, hvalue, hgap,
    decide_eq_false_iff_not] at hlow hhigh hends
  rw [hunits]
  by_cases hbelow : (x.mantissa = 0 ∧ 1 < x.biasedExponent) ∧ a < x.significand.1 * (d * 2 ^ j)
  · -- right below a power of two, where the quanta are half as wide
    obtain ⟨hpower, hless⟩ := hbelow
    obtain ⟨i, rfl⟩ : ∃ i, j = i + 1 := ⟨j - 1, by omega⟩
    have hsig : x.significand.1 = 2 ^ f.mantissaBits := by
      rw [hfull (by omega), hpower.1, Nat.add_zero]
    have hhalf : d * 2 ^ (i + 1) = 2 * (d * 2 ^ i) := by rw [Nat.pow_succ]; ring
    have hwhole : x.significand.1 * (d * 2 ^ (i + 1)) =
        2 ^ (f.mantissaBits + 1) * (d * 2 ^ i) := by
      rw [hsig, hhalf, Nat.pow_succ]
      ring
    rw [if_pos hpower, hwhole, Nat.mul_comm (2 ^ (i + 1)) d, hhalf] at hlow
    rw [hwhole] at hless
    rw [Grid.round_eq_two_pow hd (Nat.zero_le i) hless (by rw [Format.grid_precision]; omega), hsig,
      Format.grid_precision, Nat.pow_succ, Nat.pow_succ]
    ring
  · -- in the binade of the value, or in the lowest one
    have hlow : 4 * (x.significand.1 * (d * 2 ^ j)) ≤ 4 * a + 2 * (d * 2 ^ j) := by
      split at hlow <;> omega
    refine Grid.round_eq_mul hd (Nat.zero_le j) ?_ (fun hpos => ?_) ?_ ?_ fun htie => ?_
    · have hle : (x.significand.1 + 1) * (d * 2 ^ j) ≤ 2 ^ (f.mantissaBits + 1) * (d * 2 ^ j) :=
        Nat.mul_le_mul_right _ hlt
      rw [Nat.add_mul, Nat.one_mul] at hle
      rw [Format.grid_precision]
      omega
    · rw [Format.grid_lowest] at hpos
      rw [Format.grid_precision]
      have hsig := hfull (by omega)
      rcases Nat.eq_zero_or_pos x.mantissa with hmantissa | hmantissa
      · have hless := not_and.1 hbelow ⟨hmantissa, by omega⟩
        rw [hsig, hmantissa, Nat.add_zero] at hless
        omega
      · have hle : (2 ^ f.mantissaBits + 1) * (d * 2 ^ j) ≤ x.significand.1 * (d * 2 ^ j) :=
          Nat.mul_le_mul_right _ (by omega)
        rw [Nat.add_mul, Nat.one_mul] at hle
        omega
    · omega
    · omega
    · -- the ends belong to the interval of an even mantissa only
      by_contra hodd
      obtain ⟨hne, hne'⟩ := hends (by omega)
      split at hne <;> omega

/-! ## The shortest decimal -/

variable {D : Decimal}

/-- The number that a decimal stands for. -/
def toRat (D : Decimal) : ℚ := D.digits * 10 ^ D.exponent

/-- The numerator of a decimal in units, over the power of ten that `denominator` is. -/
def numerator (f : Format) (D : Decimal) : Nat :=
  D.digits * 2 ^ f.unitExponent * 10 ^ D.exponent.toNat

/-- The denominator of a decimal in units. -/
def denominator (D : Decimal) : Nat := 10 ^ (-D.exponent).toNat

theorem denominator_pos (D : Decimal) : 0 < D.denominator := Nat.pow_pos (by decide)

theorem scaled_numerator (f : Format) (D : Decimal) (s : Bool) :
    Binary.scaled f s ((D.numerator f : ℚ) / D.denominator) = if s then -D.toRat else D.toRat := by
  have hunit : ((2 ^ f.unitExponent : Nat) : ℚ) * 2 ^ (-(f.unitExponent : ℤ)) = 1 := by
    rw [Target.two_pow_mul_unit, sub_self, zpow_zero]
  have hten : (10 : ℚ) ^ D.exponent =
      (10 ^ D.exponent.toNat : Nat) / (10 ^ (-D.exponent).toNat : Nat) := by
    rw [Nat.cast_pow, Nat.cast_pow, ← zpow_natCast, ← zpow_natCast, ← zpow_sub₀ (by norm_num)]
    congr 1
    omega
  have hsize : (D.numerator f : ℚ) / D.denominator * 2 ^ (-(f.unitExponent : ℤ)) = D.toRat := by
    rw [numerator, denominator, toRat, hten, Nat.cast_mul, Nat.cast_mul]
    calc (D.digits * (2 ^ f.unitExponent : Nat) * (10 ^ D.exponent.toNat : Nat) : ℚ) /
          (10 ^ (-D.exponent).toNat : Nat) * 2 ^ (-(f.unitExponent : ℤ))
        = D.digits * ((10 ^ D.exponent.toNat : Nat) / (10 ^ (-D.exponent).toNat : Nat)) *
          ((2 ^ f.unitExponent : Nat) * 2 ^ (-(f.unitExponent : ℤ))) := by ring
      _ = _ := by rw [hunit, mul_one]
  unfold Binary.scaled
  cases s
  · simpa using hsize
  · simpa using hsize

theorem round_of_onGrid? (h : onGrid? x tie k = some D) :
    f.grid.round (D.numerator f) D.denominator = x.absUnits := by
  obtain ⟨digits, hdigits, rfl⟩ := Option.map_eq_some_iff.1 h
  apply round_of_contains (denominator_pos _)
  have hin := Interval.contains_of_nearestMultiple? hdigits
  have hmul : digits * (4 * 2 ^ f.unitExponent * 10 ^ k.toNat) =
      4 * (digits * 2 ^ f.unitExponent * 10 ^ k.toNat) := by ring
  rwa [hmul] at hin

/-- The finest grid that is tried has the value itself. -/
theorem isSome_onGrid? (hx : x.isZero = false) :
    (onGrid? x tie (-(f.unitExponent : ℤ))).isSome = true := by
  rw [onGrid?, Option.isSome_map]
  have hpos : 0 < x.absUnits := Nat.pos_of_ne_zero (Binary.isZero_eq_false_iff.1 hx)
  have hgap : 0 < 2 ^ (x.biasedExponent - 1) := Nat.two_pow_pos _
  have hten : 0 < 10 ^ f.unitExponent := Nat.pow_pos (by decide)
  have hfive : 10 ^ f.unitExponent = 5 ^ f.unitExponent * 2 ^ f.unitExponent := by
    rw [← Nat.mul_pow]
  rw [Int.neg_neg, Int.toNat_natCast, Int.toNat_neg_natCast, Nat.pow_zero, Nat.mul_one]
  apply Interval.isSome_nearestMultiple? (n := x.absUnits * 5 ^ f.unitExponent) (by positivity)
  · simp only [interval, Interval.scale, hfive]
    ring
  · have hlow : (interval x).low < (interval x).value := by
      unfold interval
      dsimp only
      split <;> omega
    have hhigh : (interval x).value < (interval x).high := by
      unfold interval
      dsimp only
      omega
    have hlow' := Nat.mul_lt_mul_of_pos_right hlow hten
    have hhigh' := Nat.mul_lt_mul_of_pos_right hhigh hten
    exact Interval.contains_iff.2 ⟨hlow'.le, hhigh'.le, fun _ => ⟨hlow'.ne', hhigh'.ne⟩⟩

theorem mem_gridExponents (x : Binary f) : -(f.unitExponent : ℤ) ∈ gridExponents x := by
  have htop : -(f.unitExponent : ℤ) ≤ topExponent x := by
    unfold topExponent
    omega
  unfold gridExponents
  rw [List.mem_map]
  refine ⟨(topExponent x + f.unitExponent).toNat, List.mem_range.2 (by omega), by omega⟩

/-- The shortest decimal of a value is rounded to the units of the value. -/
theorem round_shortest (x : Binary f) (tie : Tie) :
    f.grid.round ((shortest x tie).numerator f) (shortest x tie).denominator = x.absUnits := by
  unfold shortest
  cases hx : x.isZero
  · obtain ⟨D, hD⟩ : ∃ D, (gridExponents x).findSome? (onGrid? x tie) = some D :=
      Option.isSome_iff_exists.1
        (List.findSome?_isSome_iff.2 ⟨_, mem_gridExponents x, isSome_onGrid? hx⟩)
    obtain ⟨k, -, hk⟩ := List.exists_of_findSome?_eq_some hD
    simpa [hD] using round_of_onGrid? hk
  · rw [if_pos rfl, Binary.isZero_iff.1 hx, numerator, Nat.zero_mul, Nat.zero_mul]
    exact Grid.round_zero (denominator_pos _)

/-- The zero has no exponent. -/
theorem exponent_shortest (h : (shortest x tie).digits = 0) : (shortest x tie).exponent = 0 := by
  have hround := round_shortest x tie
  rw [numerator, h, Nat.zero_mul, Nat.zero_mul, Grid.round_zero (denominator_pos _)] at hround
  have hzero : x.isZero = true := Binary.isZero_iff.2 hround.symm
  rw [shortest, if_pos hzero]

/-- A finite value is the correct rounding of its shortest decimal. -/
theorem rounds_shortest (hx : x.isFinite) (tie : Tie) :
    (Target.native f).Rounds
      (if x.negative then -(shortest x tie).toRat else (shortest x tie).toRat) x := by
  have hd := denominator_pos (shortest x tie)
  have hround := (Target.native_valid f).rounds_nearest (a := (shortest x tie).numerator f) hd
    x.negative
  have hsame := (round_shortest x tie).trans (Binary.round_absUnits x).symm
  rw [scaled_numerator, Target.nearest_native hd, Binary.nearest_congr hd Nat.one_pos hsame,
    Binary.nearest_absUnits hx] at hround
  exact hround

end Decimal

end VariablePrecision
