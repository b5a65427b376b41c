/-
  VariablePrecision.Proofs.Binary.Quantum

  The rounding primitive.  `roundToQuantum` takes a value apart into a short integer
  and a power of two, rounds the integer, and multiplies the pieces together again.
  The main law `roundToQuantum_eq_nearest` says that nothing is lost on the way: the
  result is the value nearest to the units of `x` rounded to a multiple of the
  quantum, hence exact unless that multiple is too large for the format.
-/

import VariablePrecision.Binary.Round
import VariablePrecision.Proofs.Binary.Nearest

namespace VariablePrecision.Binary

variable {f : Format} {x : Binary f}

/-! ## The significand -/

/-- The units of a value are its significand, shifted. -/
theorem significand_spec (x : Binary f) :
    ∃ j : Nat, x.significand.2 = (j : Int) - f.unitExponent ∧ j = x.biasedExponent - 1 ∧
      x.absUnits = x.significand.1 * 2 ^ j ∧ x.significand.1 < 2 ^ (f.mantissaBits + 1) := by
  have hunit := f.unitExponent_add_one
  have hlt : x.mantissa < 2 ^ f.mantissaBits := Nat.mod_lt _ (Nat.two_pow_pos _)
  refine ⟨x.biasedExponent - 1, ?_, rfl, ?_, ?_⟩
  · unfold significand
    split
    · rename_i h
      rw [h]
      dsimp only
      omega
    · dsimp only
      omega
  · unfold significand absUnits
    split
    · rename_i h
      simp [h]
    · rfl
  · unfold significand
    rw [Nat.pow_succ]
    split
    · dsimp only
      omega
    · dsimp only
      omega

/-- The significand is even if the mantissa is. -/
theorem significand_mod_two (x : Binary f) : x.significand.1 % 2 = x.mantissa % 2 := by
  have heven : 2 ^ f.mantissaBits % 2 = 0 := by cases f <;> decide
  unfold significand
  split
  · rfl
  · dsimp only
    omega

/-- The exponent field has room for no more. -/
theorem biasedExponent_lt (x : Binary f) : x.biasedExponent < 2 ^ f.exponentBits := by
  have h := x.magnitude_lt
  rw [Format.magnitudeBound, Nat.pow_add, Nat.mul_comm] at h
  exact Nat.div_lt_of_lt_mul (by rwa [Nat.mul_comm])

theorem biasedExponent_le (hx : x.isFinite) : x.biasedExponent ≤ 2 * f.bias := by
  have hpos := Nat.two_pow_pos f.mantissaBits
  have hlt : x.magnitude < f.infinityMagnitude := by simpa [isFinite] using hx
  rw [f.infinityMagnitude_eq, ← Nat.succ_mul] at hlt
  exact Nat.lt_succ_iff.1 ((Nat.div_lt_iff_lt_mul hpos).2 hlt)

/-! ## Rebuilding a value -/

@[simp] theorem withSign_nearest {s s' : Bool} {a d : Nat} :
    (nearest f s a d).withSign s' = nearest f s' a d := rfl

/-- A short integer times `2 ^ k` units has the same number of units, if it is not rounded. -/
theorem round_short_mul_two_pow {n : Nat} (hn : n < 2 ^ (f.mantissaBits + 1)) (k : Nat) :
    f.grid.round (n * 2 ^ k) 1 = n * 2 ^ k :=
  Grid.round_one_of_mem (Grid.mem_mul_two_pow (Nat.zero_le k) hn)

/-- A short integer times a power of two that is a value. -/
theorem ofNat_mul_exp2 {n k : Nat} {e : Int} (hn : n < 2 ^ (f.mantissaBits + 1))
    (hk : (k : Int) = e + f.unitExponent) (he : e ≤ f.bias) :
    ofNat f n * exp2 f e = nearest f false (n * 2 ^ k) 1 := by
  obtain ⟨hfinN, hunitsN⟩ := ofNat_eq_exact (f := f) hn
  obtain ⟨hfinE, hunitsE⟩ := exp2_eq_exact (f := f) hk he
  rw [mul_eq_nearest hfinN hfinE, hunitsN, hunitsE, negative_exp2]
  calc nearest f _ (n * 2 ^ f.unitExponent * 2 ^ k) (2 ^ f.unitExponent)
      = nearest f false (n * 2 ^ k * 2 ^ f.unitExponent) (1 * 2 ^ f.unitExponent) := by
        congr 1 <;> ring
    _ = _ := nearest_mul_right Nat.one_pos (Nat.two_pow_pos f.unitExponent)

/-- A short integer times `2 ^ quantum` in two steps, which keeps both factors in range. -/
theorem ofNat_mul_exp2_mul_exp2 {n k : Nat} {quantum : Int} (hn : n ≤ 2 ^ f.mantissaBits)
    (hk : (k : Int) = quantum + f.unitExponent) (hq : quantum ≤ 2 * f.bias) :
    ofNat f n * exp2 f (min quantum f.bias) * exp2 f (quantum - min quantum f.bias) =
      nearest f false (n * 2 ^ k) 1 := by
  have hshort : n < 2 ^ (f.mantissaBits + 1) :=
    Nat.lt_of_le_of_lt hn (Nat.pow_lt_pow_right Nat.one_lt_two (by omega))
  obtain ⟨k₁, hk₁⟩ : ∃ k₁ : Nat, (k₁ : Int) = min quantum f.bias + f.unitExponent :=
    ⟨(min quantum f.bias + f.unitExponent).toNat, by omega⟩
  obtain ⟨k₂, hk₂⟩ : ∃ k₂ : Nat,
      (k₂ : Int) = quantum - min quantum f.bias + f.unitExponent :=
    ⟨(quantum - min quantum f.bias + f.unitExponent).toNat, by omega⟩
  obtain ⟨hfin₂, hunits₂⟩ := exp2_eq_exact (f := f) hk₂ (by omega)
  have hmem := round_short_mul_two_pow (f := f) hshort
  rw [ofNat_mul_exp2 hshort hk₁ (by omega)]
  rcases Nat.lt_or_ge (n * 2 ^ k₁) f.unitBound with hlt | hge
  · have hfin : (nearest f false (n * 2 ^ k₁) 1).isFinite :=
      isFinite_nearest Nat.one_pos (by rwa [hmem])
    have hunits : (nearest f false (n * 2 ^ k₁) 1).absUnits = n * 2 ^ k₁ := by
      rw [absUnits_nearest Nat.one_pos (by rwa [hmem]), hmem]
    rw [mul_eq_nearest hfin hfin₂, hunits, hunits₂, negative_exp2, negative_nearest]
    have hpow : 2 ^ k₁ * 2 ^ k₂ = 2 ^ k * 2 ^ f.unitExponent := by
      rw [← Nat.pow_add, ← Nat.pow_add]
      congr 1
      omega
    calc nearest f _ (n * 2 ^ k₁ * 2 ^ k₂) (2 ^ f.unitExponent)
        = nearest f false (n * 2 ^ k * 2 ^ f.unitExponent) (1 * 2 ^ f.unitExponent) := by
          rw [Nat.mul_assoc, hpow, Nat.mul_assoc, Nat.one_mul]
          rfl
      _ = _ := nearest_mul_right Nat.one_pos (Nat.two_pow_pos f.unitExponent)
  · -- the first product is infinite already, and then so is the whole
    have hzero : (exp2 f (quantum - min quantum f.bias)).isZero = false := by
      rw [isZero_eq_false_iff, hunits₂]
      exact (Nat.two_pow_pos k₂).ne'
    have hk : n * 2 ^ k₁ ≤ n * 2 ^ k :=
      Nat.mul_le_mul_left n (Nat.pow_le_pow_right Nat.two_pos (by omega))
    rw [nearest_eq_infinity Nat.one_pos (by rwa [hmem]), infinity_mul hfin₂ hzero, negative_exp2,
      nearest_eq_infinity Nat.one_pos (by rw [hmem]; omega)]
    rfl

/-! ## The rounding primitive -/

/-- Every way through the primitive keeps the sign. -/
@[simp] theorem negative_roundToQuantum (x : Binary f) (quantum : Int) :
    (x.roundToQuantum quantum).negative = x.negative := by
  unfold roundToQuantum
  dsimp only
  split_ifs <;> rfl

/-- Up to the longest mantissa, a precision is its own depth. -/
theorem quantumDepth_eq {precision : Nat} (h : precision ≤ 52) :
    quantumDepth precision = precision := by
  apply quantumDepth_of_lt
  have : UInt32.size = 4294967296 := rfl
  omega

/-- A significand that loses bits has at most `mantissaBits` left, but for a carry. -/
theorem nearestEven_le_of_cut {n t : Nat} (hn : n < 2 ^ (f.mantissaBits + 1)) (ht : 0 < t) :
    nearestEven n (2 ^ t) ≤ 2 ^ f.mantissaBits := by
  apply nearestEven_le (Nat.two_pow_pos t)
  calc n ≤ 2 ^ (f.mantissaBits + 1) := Nat.le_of_lt hn
    _ ≤ 2 ^ (f.mantissaBits + t) := Nat.pow_le_pow_right Nat.two_pos (by omega)
    _ = 2 ^ f.mantissaBits * 2 ^ t := Nat.pow_add _ _ _

/-- Rounding to a quantum of `2 ^ k` units. -/
theorem roundToQuantum_eq_nearest (hx : x.isFinite) {quantum : Int} {k : Nat}
    (hk : (k : Int) = quantum + f.unitExponent) :
    x.roundToQuantum quantum =
      nearest f x.negative (nearestEven x.absUnits (2 ^ k) * 2 ^ k) 1 := by
  obtain ⟨j, hexp, hj, hunits, hlt⟩ := significand_spec x
  have hbiased := biasedExponent_le hx
  have hunit := f.unitExponent_add_one
  have hbias := f.bias_pos
  unfold roundToQuantum
  dsimp only
  rw [hexp]
  generalize x.significand.1 = m at *
  by_cases hkeep : quantum - (j - f.unitExponent) ≤ 0 ∨ m = 0
  · -- every bit is at or above the quantum
    rw [if_pos hkeep]
    have hdvd : 2 ^ k ∣ x.absUnits := by
      rcases hkeep with hshift | hzero
      · rw [hunits]
        exact Dvd.dvd.mul_left (Nat.pow_dvd_pow 2 (by omega)) m
      · rw [hunits, hzero, Nat.zero_mul]
        exact Nat.dvd_zero _
    rw [Grid.nearestEven_two_pow_of_dvd hdvd, nearest_absUnits hx]
  rw [if_neg hkeep]
  by_cases hfar : (f.mantissaBits : Int) + 1 < quantum - (j - f.unitExponent)
  · -- every bit is below half a quantum
    rw [if_pos hfar, nearestEven_eq_zero, Nat.zero_mul, nearest_zero_eq_zero]
    calc 2 * x.absUnits < 2 * (2 ^ (f.mantissaBits + 1) * 2 ^ j) := by
          have := Nat.mul_lt_mul_of_pos_right hlt (Nat.two_pow_pos j)
          omega
      _ = 2 ^ (f.mantissaBits + 1 + j + 1) := by rw [← Nat.pow_add, Nat.pow_succ]; ring
      _ ≤ 2 ^ k := Nat.pow_le_pow_right Nat.two_pos (by omega)
  rw [if_neg hfar]
  obtain ⟨t, ht, rfl⟩ : ∃ t : Nat, (quantum - (j - f.unitExponent)).toNat = t ∧ k = t + j :=
    ⟨_, rfl, by omega⟩
  have hkept : nearestEven x.absUnits (2 ^ (t + j)) = nearestEven m (2 ^ t) := by
    rw [hunits, Nat.pow_add, nearestEven_mul_right (Nat.two_pow_pos t) (Nat.two_pow_pos j)]
  have hle := nearestEven_le_of_cut (t := t) hlt (by omega)
  rw [hkept, ht]
  by_cases hzero : nearestEven m (2 ^ t) = 0
  · rw [if_pos hzero, hzero, Nat.zero_mul, nearest_zero_eq_zero]
  · rw [if_neg hzero, ofNat_mul_exp2_mul_exp2 hle hk (by omega), withSign_nearest]

end VariablePrecision.Binary
