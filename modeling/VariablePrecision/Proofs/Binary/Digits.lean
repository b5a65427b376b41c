/-
  VariablePrecision.Proofs.Binary.Digits

  The binary digits of a value, at their places in its units.

  `places n` are the places from the last set bit of `n` up to its leading one.  The last set
  bit of a value is found from its fields: `lowestBit` is its place in the mantissa, and the
  exponent field shifts the mantissa (`places_absUnits`).  This holds of normal and subnormal
  values alike, for the implicit bit is above all others.
-/

import Mathlib.Order.Interval.Finset.Nat
import VariablePrecision.Proofs.Binary.Units

namespace VariablePrecision.Binary

variable {f : Format} {n i t : Nat}

/-! ## Places -/

/-- The places of the digits of a number, from its last set bit up to its leading one. -/
def places (n : Nat) : Finset Nat :=
  {i ∈ Finset.range (n.log2 + 1) | ∃ j ≤ i, n.testBit j = true}

/-- Some bit is set up to a place exactly if the next power of two does not divide. -/
theorem exists_testBit_iff : (∃ j ≤ i, n.testBit j = true) ↔ ¬ 2 ^ (i + 1) ∣ n := by
  constructor
  · rintro ⟨j, hj, hbit⟩ hdvd
    have hmod : (n % 2 ^ (i + 1)).testBit j = true := by
      rw [Nat.testBit_mod_two_pow, hbit, Bool.and_true, decide_eq_true_eq]
      omega
    rw [Nat.mod_eq_zero_of_dvd hdvd, Nat.zero_testBit] at hmod
    contradiction
  · intro hdvd
    obtain ⟨j, hj⟩ := Nat.exists_testBit_of_ne_zero (mt Nat.dvd_of_mod_eq_zero hdvd)
    rw [Nat.testBit_mod_two_pow, Bool.and_eq_true, decide_eq_true_eq] at hj
    exact ⟨j, by omega, hj.2⟩

theorem two_pow_dvd_iff_of_last (hdvd : 2 ^ t ∣ n) (hlast : ¬ 2 ^ (t + 1) ∣ n) :
    2 ^ i ∣ n ↔ i ≤ t := by
  constructor
  · intro h
    by_contra hlt
    exact hlast (Nat.dvd_trans (Nat.pow_dvd_pow 2 (by omega)) h)
  · intro h
    exact Nat.dvd_trans (Nat.pow_dvd_pow 2 h) hdvd

theorem places_of_last (hdvd : 2 ^ t ∣ n) (hlast : ¬ 2 ^ (t + 1) ∣ n) :
    places n = Finset.Icc t n.log2 := by
  ext i
  rw [places, Finset.mem_filter, Finset.mem_range, exists_testBit_iff,
    two_pow_dvd_iff_of_last hdvd hlast, Finset.mem_Icc]
  omega

/-! ## The last set bit of a value -/

variable {x : Binary f}

theorem lowestBit_of_mantissa_eq_zero (h : x.mantissa = 0) : x.lowestBit = f.mantissaBits := by
  have hnone : (List.range f.mantissaBits).find? x.mantissa.testBit = none :=
    List.find?_range_eq_none.2 fun i _ => by rw [h, Nat.zero_testBit]; rfl
  rw [lowestBit, hnone, Option.getD_none]

/-- The mantissa field ends with the bit that `lowestBit` names. -/
theorem lowestBit_of_mantissa_ne_zero (h : x.mantissa ≠ 0) :
    x.lowestBit < f.mantissaBits ∧ 2 ^ x.lowestBit ∣ x.mantissa ∧
      ¬ 2 ^ (x.lowestBit + 1) ∣ x.mantissa := by
  have hlt : x.mantissa < 2 ^ f.mantissaBits := Nat.mod_lt _ (Nat.two_pow_pos _)
  cases hfind : (List.range f.mantissaBits).find? x.mantissa.testBit with
  | none =>
    -- some bit is set, and it is within the width of the field
    obtain ⟨i, hi⟩ := Nat.exists_testBit_of_ne_zero h
    have hwidth : i < f.mantissaBits := (Nat.pow_lt_pow_iff_right Nat.one_lt_two).1
      (Nat.lt_of_le_of_lt (Nat.ge_two_pow_of_testBit hi) hlt)
    simpa [hi] using List.find?_range_eq_none.1 hfind i hwidth
  | some t =>
    obtain ⟨hbit, hmem, hbelow⟩ := List.find?_range_eq_some.1 hfind
    rw [lowestBit, hfind, Option.getD_some]
    refine ⟨List.mem_range.1 hmem, ?_, exists_testBit_iff.1 ⟨t, Nat.le_refl t, hbit⟩⟩
    cases t with
    | zero => exact Nat.one_dvd _
    | succ k =>
      by_contra hdvd
      obtain ⟨j, hj, hset⟩ := exists_testBit_iff.2 hdvd
      simpa [hset] using hbelow j (by omega)

/-- The implicit bit is the last one only of an empty mantissa. -/
theorem two_pow_lowestBit_dvd (x : Binary f) :
    2 ^ x.lowestBit ∣ 2 ^ f.mantissaBits + x.mantissa ∧
      ¬ 2 ^ (x.lowestBit + 1) ∣ 2 ^ f.mantissaBits + x.mantissa := by
  by_cases hm : x.mantissa = 0
  · rw [lowestBit_of_mantissa_eq_zero hm, hm, Nat.add_zero]
    refine ⟨Nat.dvd_refl _, fun h => ?_⟩
    have := (Nat.pow_dvd_pow_iff_le_right Nat.one_lt_two).1 h
    omega
  · obtain ⟨hlt, hdvd, hlast⟩ := lowestBit_of_mantissa_ne_zero hm
    refine ⟨Nat.dvd_add (Nat.pow_dvd_pow 2 hlt.le) hdvd, fun h => hlast ?_⟩
    exact (Nat.dvd_add_right (Nat.pow_dvd_pow 2 hlt)).1 h

/-- The digits of a value that is not zero, by its fields. -/
theorem places_absUnits (hz : x.isZero = false) :
    places x.absUnits = Finset.Icc (x.lowestBit + (x.biasedExponent - 1)) x.absUnits.log2 := by
  rw [isZero_eq_false_iff] at hz
  by_cases hb : x.biasedExponent = 0
  · have hunits : x.absUnits = x.mantissa := by rw [absUnits, if_pos hb]
    rw [hunits] at hz ⊢
    obtain ⟨-, hdvd, hlast⟩ := lowestBit_of_mantissa_ne_zero hz
    rw [places_of_last hdvd hlast, hb, Nat.zero_sub, Nat.add_zero]
  · obtain ⟨hdvd, hlast⟩ := x.two_pow_lowestBit_dvd
    have hpos := Nat.two_pow_pos (x.biasedExponent - 1)
    have hunits : x.absUnits = (2 ^ f.mantissaBits + x.mantissa) * 2 ^ (x.biasedExponent - 1) := by
      rw [absUnits, if_neg hb]
    apply places_of_last
    · rw [hunits, Nat.pow_add]
      exact Nat.mul_dvd_mul_right hdvd _
    · rwa [hunits, Nat.add_right_comm, Nat.pow_add, Nat.mul_dvd_mul_iff_right hpos]

end VariablePrecision.Binary
