/-
  VariablePrecision.Proofs.Binary.Precision

  More precision never hurts.

  With more bits the quantum of a value is no coarser, under every policy, and the multiples
  of the coarse quantum are multiples of the fine one.  So the fine rounding is at least as
  near (`Grid.natAbs_nearestEven_sub_le_of_le`), and it leaves the range only where the
  coarse one does (`Grid.two_pow_le_nearestEven_of_le`).  Where an absolute bound is above a
  normal value, the precision has no say.
-/

import VariablePrecision.Proofs.Binary.Outcome
import VariablePrecision.Proofs.Target.Rounds

namespace VariablePrecision

namespace ErrorPolicy

variable {f : Format} {p q : Nat}

theorem keptAt_mono (policy : ErrorPolicy) (h : p ≤ q) (e : Int) :
    policy.keptAt f p e ≤ policy.keptAt f q e := by
  unfold keptAt kept
  cases policy.mode <;> dsimp only <;> omega

theorem keptSubnormal_mono (policy : ErrorPolicy) (f : Format) (h : p ≤ q) :
    policy.keptSubnormal f p ≤ policy.keptSubnormal f q := by
  unfold keptSubnormal keptBelow
  dsimp only
  split <;> omega

end ErrorPolicy

namespace Binary

variable {f : Format} {x : Binary f} {policy : ErrorPolicy} {p q : Nat}

/-! ## Distances -/

/-- How many units two finite values are apart. -/
def distance (x y : Binary f) : Nat := (y.units - x.units).natAbs

theorem distance_of_negative_eq {x y : Binary f} (h : y.negative = x.negative) :
    x.distance y = ((y.absUnits : Int) - x.absUnits).natAbs := by
  unfold distance units
  rw [h]
  split <;> omega

/-- Numbers are as far apart as their units are. -/
theorem abs_toRat_sub (x y : Binary f) :
    |y.toRat - x.toRat| = x.distance y * 2 ^ (-(f.unitExponent : ℤ)) := by
  have hunit : (0 : ℚ) < 2 ^ (-(f.unitExponent : ℤ)) := by positivity
  have hsub : y.toRat - x.toRat =
      ((y.units - x.units : ℤ) : ℚ) * 2 ^ (-(f.unitExponent : ℤ)) := by
    unfold toRat
    push_cast
    ring
  rw [hsub, abs_mul, abs_of_pos hunit, distance, Nat.cast_natAbs, Int.cast_abs]

/-! ## Rounding to a finer quantum -/

/-- If the format has all multiples of the fine quantum up to `2 ^ e` units, which are at least the
    value, then the fine rounding is finite if the coarse one is, and it is at least as near. -/
theorem roundToQuantum_finer (hx : x.isFinite) {coarse fine : Int} {j k e : Nat}
    (hk : (k : Int) = coarse + f.unitExponent) (hj : (j : Int) = fine + f.unitExponent)
    (hjk : j ≤ k) (hke : k < e) (hle : x.absUnits ≤ 2 ^ e) (he : e ≤ j + f.mantissaBits + 1)
    (hupp : e ≤ f.unitExponent + f.bias + 1) (hfinite : (x.roundToQuantum coarse).isFinite) :
    (x.roundToQuantum fine).isFinite ∧
      x.distance (x.roundToQuantum fine) ≤ x.distance (x.roundToQuantum coarse) := by
  rcases roundToQuantum_outcome hx hk hle (by omega) (by omega) with ⟨_, hinf⟩ | ⟨_, hcoarse⟩
  · rw [hinf, isFinite_infinity] at hfinite
    contradiction
  have hlt : nearestEven x.absUnits (2 ^ k) * 2 ^ k < f.unitBound := by
    rw [← hcoarse]
    exact isFinite_iff.1 hfinite
  rcases roundToQuantum_outcome hx hj hle (by omega) he with ⟨hbig, _⟩ | ⟨hfine, hunits⟩
  · have := Grid.two_pow_le_nearestEven_of_le hjk (by omega) hbig
    exact absurd this (Nat.not_le_of_lt hlt)
  · refine ⟨hfine, ?_⟩
    rw [distance_of_negative_eq (negative_roundToQuantum x fine),
      distance_of_negative_eq (negative_roundToQuantum x coarse), hcoarse, hunits]
    exact Grid.natAbs_nearestEven_sub_le_of_le hjk x.absUnits

/-! ## Rounding to more bits -/

theorem round_finer_of_subnormal (hx : x.category = .subnormal) (hpq : p ≤ q)
    (hq : q ≤ f.mantissaBits) (hfinite : (x.round p policy).isFinite) :
    (x.round q policy).isFinite ∧
      x.distance (x.round q policy) ≤ x.distance (x.round p policy) := by
  obtain ⟨hxfinite, hb⟩ := of_category_eq_subnormal hx
  have hlt := absUnits_lt_of_biasedExponent hb
  have hmono := policy.keptSubnormal_mono f hpq
  have hkept : policy.keptSubnormal f q ≤ q := keptBelow_le _ policy
  have hunit := f.unitExponent_add_one
  have hbias := f.bias_pos
  rw [round_of_subnormal (Nat.le_trans hpq hq) hx] at hfinite ⊢
  rw [round_of_subnormal hq hx]
  exact roundToQuantum_finer hxfinite (k := f.mantissaBits - policy.keptSubnormal f p)
    (j := f.mantissaBits - policy.keptSubnormal f q) (e := f.mantissaBits + 1) (by omega)
    (by omega) (by omega) (by omega) (by rw [Nat.pow_succ]; omega) (by omega) (by omega) hfinite

theorem roundNormal_finer (hx : x.category = .normal) {m n : Nat} (hmn : m ≤ n)
    (hn : n ≤ f.mantissaBits) (hfinite : (x.roundNormal m).isFinite) :
    (x.roundNormal n).isFinite ∧ x.distance (x.roundNormal n) ≤ x.distance (x.roundNormal m) := by
  obtain ⟨hxfinite, hb⟩ := category_eq_normal_iff.1 hx
  have hlog := log2_absUnits hb
  have hle := biasedExponent_le hxfinite
  have hexponent : x.exponent = x.biasedExponent - f.bias := rfl
  exact roundToQuantum_finer hxfinite (e := x.absUnits.log2 + 1)
    (quantum_of_normal hx (Nat.le_trans hmn hn)) (quantum_of_normal hx hn) (by omega) (by omega)
    (Nat.le_of_lt Nat.lt_log2_self) (by omega) (by omega) hfinite

theorem round_finer_of_normal (hx : x.category = .normal) (hpq : p ≤ q)
    (hq : q ≤ f.mantissaBits) (hfinite : (x.round p policy).isFinite) :
    (x.round q policy).isFinite ∧
      x.distance (x.round q policy) ≤ x.distance (x.round p policy) := by
  by_cases hbound : policy.mode = .relative ∨ policy.absoluteExponent ≤ x.exponent
  · rw [round_of_bound hx hbound] at hfinite ⊢
    rw [round_of_bound hx hbound]
    exact roundNormal_finer hx (policy.keptAt_mono hpq x.exponent) (keptAt_le hq hbound) hfinite
  · -- a bound that is above the value leaves nothing for the precision to decide
    obtain ⟨hmode, _⟩ := not_or.1 hbound
    by_cases hfar : x.exponent + 2 ≤ policy.absoluteExponent
    · rw [round_of_far_below hx hmode hfar] at hfinite ⊢
      rw [round_of_far_below hx hmode hfar]
      exact ⟨hfinite, Nat.le_refl _⟩
    · rw [round_of_just_below hx hmode (by omega)] at hfinite ⊢
      rw [round_of_just_below hx hmode (by omega)]
      exact ⟨hfinite, Nat.le_refl _⟩

/-- With more bits, a finite rounding stays finite and comes no farther from the value. -/
theorem round_error_antitone (hx : x.isFinite) (policy : ErrorPolicy) (hpq : p ≤ q)
    (hq : q ≤ f.mantissaBits) (hfinite : (x.round p policy).isFinite) :
    (x.round q policy).isFinite ∧
      |(x.round q policy).toRat - x.toRat| ≤ |(x.round p policy).toRat - x.toRat| := by
  have hunits : (x.round q policy).isFinite ∧
      x.distance (x.round q policy) ≤ x.distance (x.round p policy) := by
    cases hcategory : x.category with
    | normal => exact round_finer_of_normal hcategory hpq hq hfinite
    | subnormal => exact round_finer_of_subnormal hcategory hpq hq hfinite
    | nan | infinite | zero =>
      have hkeep : ∀ n, x.round n policy = x := fun n => by rw [round, hcategory]
      rw [hkeep, hkeep]
      exact ⟨hx, Nat.le_refl _⟩
  have hunit : (0 : ℚ) < 2 ^ (-(f.unitExponent : ℤ)) := by positivity
  rw [abs_toRat_sub, abs_toRat_sub, mul_le_mul_iff_left₀ hunit, Nat.cast_le]
  exact hunits

/-- With four bits the value loses the two bits behind them; with six it is half way between two
    values and goes to the one that is farther from zero. -/
theorem round_error_antitone_half_way :
    (ofBits .binary64 0x3ff0600000000000).isFinite ∧ 4 ≤ 6 ∧
      6 ≤ Format.mantissaBits .binary64 ∧
      (ofBits .binary64 0x3ff0600000000000).round 4 ⟨.combined, -20⟩ =
        ofBits .binary64 0x3ff0000000000000 ∧
      (ofBits .binary64 0x3ff0600000000000).round 6 ⟨.combined, -20⟩ =
        ofBits .binary64 0x3ff0800000000000 ∧
      |toRat (ofBits .binary64 0x3ff0800000000000) - toRat (ofBits .binary64 0x3ff0600000000000)| ≤
        |toRat (ofBits .binary64 0x3ff0000000000000) -
          toRat (ofBits .binary64 0x3ff0600000000000)| := by
  have hcoarse : (ofBits .binary64 0x3ff0600000000000).round 4 ⟨.combined, -20⟩ =
      ofBits .binary64 0x3ff0000000000000 := by decide +kernel
  have hfine : (ofBits .binary64 0x3ff0600000000000).round 6 ⟨.combined, -20⟩ =
      ofBits .binary64 0x3ff0800000000000 := by decide +kernel
  have herror := (round_error_antitone (x := ofBits .binary64 0x3ff0600000000000) (p := 4) (q := 6)
    (by decide) ⟨.combined, -20⟩ (by decide) (by decide) (by rw [hcoarse]; decide)).2
  rw [hcoarse, hfine] at herror
  exact ⟨by decide, by decide, by decide, hcoarse, hfine, herror⟩

end Binary

end VariablePrecision
