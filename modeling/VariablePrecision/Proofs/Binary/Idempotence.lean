/-
  VariablePrecision.Proofs.Binary.Idempotence

  Rounding twice to the same number of bits.

  A normal value is rounded to an infinity, to zero or to a value that is settled, and all
  of these are fixed by the second rounding.  A subnormal value stays below the normal
  range, where there is one quantum, or becomes the least normal value.

  One way out of this is left.  Below the native normal range values are rounded by a rule
  that does not compare them with the absolute bound.  So a subnormal value can be rounded
  up to the least normal value although the bound is above it, and the second rounding,
  which does compare, takes it away.  `round_round_eq_iff` says that this is the only
  failure.
-/

import VariablePrecision.Proofs.Binary.Outcome

namespace VariablePrecision.Binary

variable {f : Format} {x : Binary f} {policy : ErrorPolicy} {precision : Nat}

/-! ## Rounding twice -/

theorem round_round_of_normal (hp : precision ≤ f.mantissaBits) (hx : x.category = .normal) :
    (x.round precision policy).round precision policy = x.round precision policy := by
  rcases round_normal_outcome hp hx policy with hinf | hzero | ⟨_, hy⟩
  · rw [hinf]
    exact round_infinity _
  · rw [hzero]
    exact round_zero _
  · exact hy.round_eq hp

theorem round_round_of_subnormal (hp : precision ≤ f.mantissaBits)
    (hx : x.category = .subnormal)
    (hbound : (x.round precision policy).category = .normal →
      policy.mode = .relative ∨ policy.absoluteExponent ≤ 1 - (f.bias : Int)) :
    (x.round precision policy).round precision policy = x.round precision policy := by
  obtain ⟨hfinite, hle, hdvd⟩ := round_subnormal_outcome policy hp hx
  cases hy : (x.round precision policy).category with
  | nan => rw [round, hy]
  | infinite => rw [round, hy]
  | zero => rw [round, hy]
  | subnormal =>
    -- there is one quantum below the normal range
    have hkept : policy.keptSubnormal f precision ≤ precision := keptBelow_le _ policy
    have hunit := f.unitExponent_add_one
    rw [round_of_subnormal hp hy]
    exact roundToQuantum_of_dvd hfinite (by omega) hdvd
  | normal =>
    obtain ⟨hunits, hexponent⟩ := round_subnormal_eq_least hp hx hy
    have hbound' := hbound hy
    rw [← hexponent] at hbound'
    exact (settled_of_two_pow hy hbound' hunits).round_eq hp

/-- The least normal value does not stay if an absolute bound is above it. -/
theorem round_ne_of_least {y : Binary f} (hy : y.category = .normal)
    (hunits : y.absUnits = 2 ^ f.mantissaBits) (hexponent : y.exponent = 1 - (f.bias : Int))
    (hmode : policy.mode ≠ .relative) (hbound : 1 - (f.bias : Int) < policy.absoluteExponent) :
    y.round precision policy ≠ y := by
  intro hround
  by_cases hfar : y.exponent + 2 ≤ policy.absoluteExponent
  · -- it vanishes
    rw [round_of_far_below hy hmode hfar] at hround
    rw [← hround, category_zero] at hy
    contradiction
  · -- it is moved up to the bound
    have hunit := f.unitExponent_add_one
    have hbias := f.bias_pos
    rw [round_of_just_below hy hmode (by omega)] at hround
    obtain ⟨_, hexact⟩ := exp2_eq_exact (f := f) (e := policy.absoluteExponent)
      (k := f.mantissaBits + 1) (by omega) (by omega)
    have hsame : y.absUnits = 2 ^ (f.mantissaBits + 1) := by
      rw [← hround]
      exact hexact
    have hpow := Nat.pow_right_injective (Nat.le_refl 2) (hunits.symm.trans hsame)
    omega

/-- Rounding a second time changes nothing, except where the first time has taken a subnormal value
    to the least normal one although an absolute bound is above it. -/
theorem round_round_eq_iff (hp : precision ≤ f.mantissaBits) (policy : ErrorPolicy)
    (x : Binary f) :
    (x.round precision policy).round precision policy = x.round precision policy ↔
      ¬ (policy.boundsAbsolute = true ∧ 1 - (f.bias : Int) < policy.absoluteExponent ∧
        x.category = .subnormal ∧ (x.round precision policy).category = .normal) := by
  have hmode : policy.boundsAbsolute = true ↔ policy.mode ≠ .relative := by
    unfold ErrorPolicy.boundsAbsolute
    cases policy.mode <;> simp
  rw [hmode]
  constructor
  · rintro hround ⟨hbounds, habove, hx, hy⟩
    obtain ⟨hunits, hexponent⟩ := round_subnormal_eq_least hp hx hy
    exact round_ne_of_least hy hunits hexponent hbounds habove hround
  · intro hexcept
    cases hx : x.category with
    | nan => rw [show x.round precision policy = x by rw [round, hx], round, hx]
    | infinite => rw [show x.round precision policy = x by rw [round, hx], round, hx]
    | zero => rw [show x.round precision policy = x by rw [round, hx], round, hx]
    | normal => exact round_round_of_normal hp hx
    | subnormal =>
      apply round_round_of_subnormal hp hx
      intro hy
      by_contra hbound
      obtain ⟨hbounds, habove⟩ := not_or.1 hbound
      exact hexcept ⟨hbounds, by omega, hx, hy⟩

/-- Just below an absolute bound of `2 ^ -20`, a value becomes the bound and stays there. -/
theorem round_round_just_below :
    52 ≤ Format.mantissaBits .binary64 ∧
      (ofBits .binary64 0x3ea8000000000000).round 52 ⟨.absolute, -20⟩ =
        ofBits .binary64 0x3eb0000000000000 ∧
      (ofBits .binary64 0x3eb0000000000000).round 52 ⟨.absolute, -20⟩ =
        ofBits .binary64 0x3eb0000000000000 := by
  have hprecision : 52 ≤ Format.mantissaBits .binary64 := Nat.le_refl 52
  have honce : (ofBits .binary64 0x3ea8000000000000).round 52 ⟨.absolute, -20⟩ =
      ofBits .binary64 0x3eb0000000000000 := by decide +kernel
  have htwice := (round_round_eq_iff hprecision ⟨.absolute, -20⟩
    (ofBits .binary64 0x3ea8000000000000)).2 (by decide +kernel)
  rw [honce] at htwice
  exact ⟨hprecision, honce, htwice⟩

/-- Under an absolute bound of 1, three quarters of the least normal value are rounded to that value
    first and to zero then. -/
theorem round_round_changes :
    ¬ ∀ (f : Format) (x : Binary f) (precision : Nat) (policy : ErrorPolicy), x.isFinite →
      precision ≤ f.mantissaBits → policy.absoluteExponent.natAbs ≤ 2048 →
      (x.round precision policy).round precision policy = x.round precision policy := by
  intro h
  have hsame := h .binary64 (ofBits .binary64 0x000c000000000000) 52 ⟨.absolute, 0⟩ (by decide)
    (Nat.le_refl 52) (by decide)
  revert hsame
  decide +kernel

end VariablePrecision.Binary
