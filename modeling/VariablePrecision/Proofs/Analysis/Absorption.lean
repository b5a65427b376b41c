/-
  VariablePrecision.Proofs.Analysis.Absorption

  The digits of the smaller term of a sum that fall below the last place of the result.

  `lostPlaces small res` are the places of the digits of `small` that weigh less than `ulp res`,
  the spacing of the values with the exponent of `res`.  Their number is what an absorption is
  meant to be (`lostBits`), and what `absorption` reports of a normal term.

  A subnormal term is read like a normal one in the binade below the least normal value.  But
  its places are those of that binade itself, and it has no implicit bit.  So one bit too many
  is counted at least, as soon as there is anything to count: from a last digit of the size of
  `ulp res` on.  The main result says that all other counts are right.
-/

import VariablePrecision.Analysis.Phenomena
import VariablePrecision.Proofs.Binary.Digits
import VariablePrecision.Proofs.Binary.Outcome
import VariablePrecision.Proofs.Target.Rounds

namespace VariablePrecision.Analysis

open Binary

variable {f : Format} {x y small res : Binary f}

/-! ## What is lost -/

/-- The term of smaller size, the second one of equals. -/
def lesser (x y : Binary f) : Binary f := if |x.toRat| < |y.toRat| then x else y

/-- The distance of neighbouring values with the exponent of `x`, subnormal ones being as far
    apart as the least normal ones. -/
def ulp (x : Binary f) : ℚ := 2 ^ (max x.exponent (1 - (f.bias : ℤ)) - f.mantissaBits)

/-- The places of the digits of `small` that weigh less than the last place of `res`. -/
def lostPlaces (small res : Binary f) : Finset ℕ :=
  {i ∈ places small.absUnits | (2 : ℚ) ^ ((i : ℤ) - f.unitExponent) < ulp res}

/-- The number of the digits that are lost, if there are any. -/
def lostBits (small res : Binary f) : Option ℕ :=
  if small.isZero = false ∧ 0 < (lostPlaces small res).card then
    some (lostPlaces small res).card
  else none

/-- In units, the last place of a value is the shift of its exponent field. -/
theorem weight_lt_ulp_iff {i : ℕ} :
    (2 : ℚ) ^ ((i : ℤ) - f.unitExponent) < ulp res ↔ i < res.biasedExponent - 1 := by
  have hunit := f.unitExponent_add_one
  rw [ulp, zpow_lt_zpow_iff_right₀ one_lt_two, exponent]
  omega

theorem card_lostPlaces (hz : small.isZero = false) :
    (lostPlaces small res).card = min (small.absUnits.log2 + 1) (res.biasedExponent - 1) -
      (small.lowestBit + (small.biasedExponent - 1)) := by
  have hlost : lostPlaces small res = Finset.Ico (small.lowestBit + (small.biasedExponent - 1))
      (min (small.absUnits.log2 + 1) (res.biasedExponent - 1)) := by
    ext i
    rw [lostPlaces, Finset.mem_filter, places_absUnits hz, weight_lt_ulp_iff, Finset.mem_Icc,
      Finset.mem_Ico]
    omega
  rw [hlost, Nat.card_Ico]

theorem positiveBits_congr {m n : ℤ} (h : 0 < m ∨ 0 < n → m = n) :
    positiveBits m = positiveBits n := by
  unfold positiveBits
  grind

theorem lostBits_eq_positiveBits (hz : small.isZero = false) :
    lostBits small res = positiveBits
      ((min (small.absUnits.log2 + 1) (res.biasedExponent - 1) : ℕ) -
        (small.lowestBit + (small.biasedExponent - 1) : ℕ)) := by
  rw [lostBits, card_lostPlaces hz]
  unfold positiveBits
  grind

/-! ## What is counted -/

/-- The term whose digits are counted is the smaller one. -/
theorem smallerOperand_eq_lesser (hx : x.isFinite) (hy : y.isFinite) :
    smallerOperand x y = lesser x y := by
  have hunit : (0 : ℚ) < 2 ^ (-(f.unitExponent : ℤ)) := zpow_pos two_pos _
  have hsize : |x.toRat| < |y.toRat| ↔ x.magnitude < y.magnitude := by
    rw [abs_toRat, abs_toRat, mul_lt_mul_iff_left₀ hunit, Nat.cast_lt, absUnits_eq, absUnits_eq,
      f.unitsAt_strictMono.lt_iff_lt]
  have hcompare : x.abs.compare y.abs = some .lt ↔ x.magnitude < y.magnitude := by
    have hxn : x.abs.isNaN = false := isNaN_eq_false hx
    have hyn : y.abs.isNaN = false := isNaN_eq_false hy
    unfold Binary.compare
    rw [hxn, hyn]
    change some (Ord.compare (x.magnitude : ℤ) y.magnitude) = some .lt ↔ _
    rw [Option.some.injEq, Int.compare_eq_lt, Int.ofNat_lt]
  unfold smallerOperand lesser
  simp only [hcompare, hsize]

/-- The bits that are counted of the smaller term, by its fields and the exponent of the result. -/
def countedBits (small res : Binary f) : Option ℕ :=
  if small.isZero then none
  else positiveBits (min (res.exponent - small.exponent - small.lowestBit)
    (f.mantissaBits + 1 - small.lowestBit))

theorem absorption_eq_countedBits (hx : x.isFinite) (hy : y.isFinite) :
    absorption x y res = countedBits (lesser x y) res := by
  rw [← smallerOperand_eq_lesser hx hy]
  rfl

theorem countedBits_of_isZero (hz : small.isZero) :
    countedBits small res = lostBits small res := by
  rw [countedBits, if_pos hz, lostBits, hz, if_neg (by simp)]

theorem countedBits_of_isZero_eq_false (hz : small.isZero = false) :
    countedBits small res = positiveBits
      (min (res.biasedExponent - small.biasedExponent - small.lowestBit)
        (f.mantissaBits + 1 - small.lowestBit)) := by
  rw [countedBits, hz, if_neg Bool.false_ne_true, exponent, exponent, sub_sub_sub_cancel_right]

/-- What is counted of a normal term is lost. -/
theorem countedBits_of_normal (hb : small.biasedExponent ≠ 0) (hz : small.isZero = false) :
    countedBits small res = lostBits small res := by
  have hlead := log2_absUnits hb
  have hunit := f.unitExponent_add_one
  rw [exponent] at hlead
  rw [countedBits_of_isZero_eq_false hz, lostBits_eq_positiveBits hz]
  apply positiveBits_congr
  omega

/-- Nothing is counted of a subnormal term that ends above the last place of the result, and
    nothing is lost. -/
theorem countedBits_of_subnormal_of_le (hb : small.biasedExponent = 0) (hz : small.isZero = false)
    (hlast : res.biasedExponent ≤ small.lowestBit) :
    countedBits small res = lostBits small res := by
  rw [countedBits_of_isZero_eq_false hz, lostBits_eq_positiveBits hz, hb]
  apply positiveBits_congr
  omega

/-- Of other subnormal terms more is counted than is lost. -/
theorem countedBits_of_subnormal_of_lt (hb : small.biasedExponent = 0) (hz : small.isZero = false)
    (hlast : small.lowestBit < res.biasedExponent) :
    ∃ n, countedBits small res = some n ∧ (lostPlaces small res).card < n := by
  have hne := isZero_eq_false_iff.1 hz
  have hm : small.mantissa ≠ 0 := by rwa [absUnits, if_pos hb] at hne
  have hwidth := (lowestBit_of_mantissa_ne_zero hm).1
  have hlead : small.absUnits.log2 < f.mantissaBits :=
    (Nat.log2_lt hne).2 (absUnits_lt_of_biasedExponent hb)
  rw [countedBits_of_isZero_eq_false hz, card_lostPlaces hz, hb]
  refine ⟨_, if_pos (by omega), ?_⟩
  omega

/-- The bits that are counted as absorbed are those that are lost, unless the smaller term is
    subnormal and its last digit no greater than the last place of a normal result.  Then more
    bits are counted than are lost. -/
theorem absorption_eq_lostBits_iff (hx : x.isFinite) (hy : y.isFinite) (res : Binary f) :
    (absorption x y res = lostBits (lesser x y) res ↔
      ¬ ((lesser x y).category = .subnormal ∧
        (lesser x y).lowestBit < res.biasedExponent)) ∧
    ((lesser x y).category = .subnormal → (lesser x y).lowestBit < res.biasedExponent →
      ∃ n, absorption x y res = some n ∧ (lostPlaces (lesser x y) res).card < n) := by
  rw [absorption_eq_countedBits hx hy, category_eq_subnormal_iff]
  generalize lesser x y = small
  refine ⟨⟨?_, ?_⟩, fun hsub hlast => countedBits_of_subnormal_of_lt hsub.1 hsub.2 hlast⟩
  · rintro heq ⟨⟨hb, hz⟩, hlast⟩
    obtain ⟨n, hn, hlt⟩ := countedBits_of_subnormal_of_lt hb hz hlast
    -- what is lost is another number, or none
    rw [heq, lostBits] at hn
    split at hn
    · exact hlt.ne (Option.some.inj hn)
    · contradiction
  · intro hright
    cases hz : small.isZero with
    | true => exact countedBits_of_isZero hz
    | false =>
      by_cases hb : small.biasedExponent = 0
      · exact countedBits_of_subnormal_of_le hb hz (not_lt.1 fun hlt => hright ⟨⟨hb, hz⟩, hlt⟩)
      · exact countedBits_of_normal hb hz

/-- The ten last digits of a full mantissa are lost. -/
theorem absorption_eq_lostBits_full :
    Binary.ofBits .binary64 0x0010000000000001 + .ofBits .binary64 0x00b0000000000000 =
        .ofBits .binary64 0x00b0040000000000 ∧
      absorption (.ofBits .binary64 0x0010000000000001) (.ofBits .binary64 0x00b0000000000000)
        (.ofBits .binary64 0x00b0040000000000) = some 10 ∧
      lostBits (lesser (.ofBits .binary64 0x0010000000000001)
        (.ofBits .binary64 0x00b0000000000000)) (.ofBits .binary64 0x00b0040000000000) =
        some 10 := by
  have hsum : Binary.ofBits .binary64 0x0010000000000001 + .ofBits .binary64 0x00b0000000000000 =
      .ofBits .binary64 0x00b0040000000000 :=
    add_eq_of_units (by decide) (by decide) (n := 2 ^ 62 + 2 ^ 52 + 1) (by decide) (by decide)
  have hcount : absorption (.ofBits .binary64 0x0010000000000001)
      (.ofBits .binary64 0x00b0000000000000) (.ofBits .binary64 0x00b0040000000000) =
      some 10 := by decide
  have hnormal : (lesser (.ofBits .binary64 0x0010000000000001)
      (.ofBits .binary64 0x00b0000000000000)).category ≠ .subnormal := by
    unfold lesser
    split <;> decide
  have hlost := (absorption_eq_lostBits_iff (x := .ofBits .binary64 0x0010000000000001)
    (y := .ofBits .binary64 0x00b0000000000000) (by decide) (by decide)
    (.ofBits .binary64 0x00b0040000000000)).1.2 fun h => hnormal h.1
  exact ⟨hsum, hcount, hlost.symm.trans hcount⟩

/-- The sum of the least normal and the least positive value is exact, and one bit of it is counted
    as absorbed. -/
theorem absorption_of_exact_sum :
    (Binary.ofBits .binary64 0x0010000000000000).isFinite ∧
      (Binary.ofBits .binary64 0x0000000000000001).isFinite ∧
      Binary.ofBits .binary64 0x0010000000000000 + .ofBits .binary64 0x0000000000000001 =
        .ofBits .binary64 0x0010000000000001 ∧
      (Binary.ofBits .binary64 0x0010000000000001).isFinite ∧
      absorption (.ofBits .binary64 0x0010000000000000) (.ofBits .binary64 0x0000000000000001)
        (.ofBits .binary64 0x0010000000000001) = some 1 ∧
      lostBits (lesser (.ofBits .binary64 0x0010000000000000)
        (.ofBits .binary64 0x0000000000000001)) (.ofBits .binary64 0x0010000000000001) = none := by
  have hsum : Binary.ofBits .binary64 0x0010000000000000 + .ofBits .binary64 0x0000000000000001 =
      .ofBits .binary64 0x0010000000000001 :=
    add_eq_of_units (by decide) (by decide) (n := 2 ^ 52 + 1) (by decide) (by decide)
  refine ⟨by decide, by decide, hsum, by decide, by decide, ?_⟩
  rw [← smallerOperand_eq_lesser (by decide) (by decide), lostBits_eq_positiveBits (by decide)]
  decide

end VariablePrecision.Analysis
