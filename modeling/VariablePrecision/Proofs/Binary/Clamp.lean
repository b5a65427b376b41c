/-
  VariablePrecision.Proofs.Binary.Clamp

  Clamping under a relative error, in one step.  The definition looks at the exponent
  field before it rounds and at that of the result after; in units both questions are
  comparisons with powers of two, and the branches for normal and subnormal values are
  the same rounding at the depth of the target grid.
-/

import VariablePrecision.Binary.Clamp
import VariablePrecision.Proofs.Target.Grid

namespace VariablePrecision.Binary

variable {f : Format} {x : Binary f} {t : Target}

/-! ## Exponents in units -/

theorem emax_lt_exponent_iff (ht : t.Valid f) :
    t.emax < x.exponent ↔ 2 ^ (t.top f + 1) ≤ x.absUnits := by
  have htop := ht.top_eq
  have hemax := ht.one_le_emax
  have hunit := f.unitExponent_add_one
  have hbias := f.bias_pos
  rw [← le_exponent_iff (by omega)]
  omega

theorem emin_le_exponent_iff (ht : t.Valid f) :
    t.emin ≤ x.exponent ↔ 2 ^ ((t.grid f).lowest + t.precision) ≤ x.absUnits := by
  have hlow := ht.lowest_eq
  have hemax := ht.emax_le_bias
  have hunit := f.unitExponent_add_one
  unfold Target.emin
  rw [← le_exponent_iff (by omega)]
  omega

/-- Values from the least normal exponent of a target on are normal. -/
theorem biasedExponent_ne_zero (ht : t.Valid f) (he : t.emin ≤ x.exponent) :
    x.biasedExponent ≠ 0 := by
  have hemax := ht.emax_le_bias
  unfold Target.emin exponent at he
  omega

theorem category_eq_normal (hx : x.isFinite) (hb : x.biasedExponent ≠ 0) :
    x.category = .normal := by
  have hle := biasedExponent_le hx
  have hpow := f.two_pow_exponentBits
  unfold category
  rw [if_neg hb, if_neg (by omega)]

/-! ## The two roundings -/

theorem quantumDepth_precision (ht : t.Valid f) : quantumDepth t.precision = t.precision :=
  quantumDepth_eq (Nat.le_trans ht.precision_le f.mantissaBits_le)

/-- Below the normal range of the target, the depth is that of its least quantum. -/
theorem roundDenormal_eq_nearest (ht : t.Valid f) (hx : x.isFinite)
    (he : x.exponent < t.emin) :
    x.roundDenormal t.emin t.precision =
      nearest f x.negative ((t.grid f).round x.absUnits 1) 1 := by
  have hlt : x.absUnits < 2 ^ ((t.grid f).lowest + t.precision) := by
    have := mt (emin_le_exponent_iff (x := x) ht).2 (by omega)
    omega
  have hdepth : (t.grid f).depth x.absUnits = (t.grid f).lowest := by
    have hlog := Grid.log2_le_of_lt
      (Nat.lt_of_lt_of_le hlt (Nat.pow_le_pow_right Nat.two_pos (Nat.le_succ _)))
    rw [Grid.depth, Target.grid_precision]
    omega
  have hlow := ht.lowest_eq
  have hemin : t.emin = 1 - t.emax := rfl
  rw [roundDenormal, quantumDepth_precision ht,
    roundToQuantum_eq_nearest hx (k := (t.grid f).lowest) (by omega), Grid.round_one, hdepth]

/-- In the normal range of the target, the depth is `precision` places behind the leading bit. -/
theorem roundNormal_eq_nearest (ht : t.Valid f) (hx : x.isFinite) (he : t.emin ≤ x.exponent) :
    x.roundNormal t.precision = nearest f x.negative ((t.grid f).round x.absUnits 1) 1 := by
  have hb := biasedExponent_ne_zero ht he
  have hlog := log2_absUnits hb
  have hlow := ht.lowest_eq
  have hemin : t.emin = 1 - t.emax := rfl
  have hdepth : (t.grid f).depth x.absUnits = x.absUnits.log2 - t.precision := by
    rw [Grid.depth, Target.grid_precision]
    omega
  rw [roundNormal, quantumDepth_precision ht,
    roundToQuantum_eq_nearest hx (k := x.absUnits.log2 - t.precision) (by omega), Grid.round_one,
    hdepth]

theorem roundSubnormal_of_relative {policy : ErrorPolicy} {emin : Int} {precision : Nat}
    (hx : x.isFinite) (hpolicy : policy.boundsAbsolute = false) :
    x.roundSubnormal emin precision policy = x.roundDenormal emin precision := by
  simp [roundSubnormal, hx, hpolicy]

theorem round_of_relative {policy : ErrorPolicy} {precision : Nat}
    (hx : x.category = .normal) (hpolicy : policy.boundsAbsolute = false) :
    x.round precision policy = x.roundNormal precision := by
  simp [round, hx, hpolicy]

/-! ## Clamping -/

section Branches

variable {side : Side} {ctx : Context}

/-- Infinities, zeros and values that are no number pass through. -/
theorem clamp_of_special (h : x.isFinite = false ∨ x.isZero = true) :
    x.clamp side t ctx = x := by
  rw [clamp, if_pos (by simpa using h)]

/-- Values beyond the range become infinite. -/
theorem clamp_of_emax_lt (hx : x.isFinite) (hz : x.isZero = false)
    (h : t.emax < x.exponent) : x.clamp side t ctx = infinity f x.negative := by
  rw [clamp, if_neg (by simp [hx, hz]), if_pos h]

/-- Values below the normal range become zero if they are flushed. -/
theorem clamp_of_flushes (ht : t.Valid f) (hx : x.isFinite) (hz : x.isZero = false)
    (h : x.exponent < t.emin ∧ ctx.flushes side) :
    x.clamp side t ctx = zero f x.negative := by
  have hemin : t.emin = 1 - t.emax := rfl
  have hemax := ht.one_le_emax
  rw [clamp, if_neg (by simp [hx, hz]), if_neg (by omega), if_pos h]

@[simp] theorem clamp_infinity {s : Bool} :
    (infinity f s).clamp side t ctx = infinity f s :=
  clamp_of_special (.inl isFinite_infinity)

@[simp] theorem clamp_zero {s : Bool} : (zero f s).clamp side t ctx = zero f s :=
  clamp_of_special (.inr (by simp [isZero, zero, ofMagnitude]))

end Branches

/-- The last step of clamping, which looks for a carry beyond the range. -/
theorem nearest_of_carry (ht : t.Valid f) {s : Bool} {n : Nat}
    (hn : f.grid.round n 1 = n) :
    (if (nearest f s n 1).isFinite ∧ t.emax < (nearest f s n 1).exponent then infinity f s
      else nearest f s n 1) =
      if 2 ^ (t.top f + 1) ≤ n then infinity f s else nearest f s n 1 := by
  rcases Nat.lt_or_ge n f.unitBound with hlt | hge
  · have hfin : (nearest f s n 1).isFinite := isFinite_nearest Nat.one_pos (by rwa [hn])
    have hunits : (nearest f s n 1).absUnits = n := by
      rw [absUnits_nearest Nat.one_pos (by rwa [hn]), hn]
    have hexp := emax_lt_exponent_iff (x := nearest f s n 1) ht
    rw [hunits] at hexp
    simp [hfin, hexp]
  · have htop := ht.top_lt
    rw [nearest_eq_infinity Nat.one_pos (by rwa [hn]), isFinite_infinity]
    simp

theorem clamp_eq_nearest (ht : t.Valid f) (hx : x.isFinite) {ctx : Context} {side : Side}
    (hpolicy : ctx.policy.boundsAbsolute = false) (hflush : ctx.flushes side = false) :
    x.clamp side t ctx = t.nearest f x.negative x.absUnits 1 := by
  have hround := ht.native_round_round (a := x.absUnits) Nat.one_pos
  unfold clamp Target.nearest
  -- the branches of the definition, each against the rounding on the grid
  by_cases hzero : x.isZero
  · -- zeros are kept
    have hunits := isZero_iff.1 hzero
    have hgrid : (t.grid f).round x.absUnits 1 = 0 := by
      rw [hunits]
      exact Grid.round_one_of_mem (Grid.mem_zero _)
    have hpos := Nat.two_pow_pos (t.top f + 1)
    rw [if_pos (by simp [hzero]), hgrid, if_neg (by omega)]
    conv_lhs => rw [← nearest_absUnits hx, hunits]
  rw [if_neg (by simp [hx, hzero])]
  by_cases hover : t.emax < x.exponent
  · -- rounding does not leave the binades beyond the range
    have hbig := (emax_lt_exponent_iff ht).1 hover
    have hle := ht.lowest_add_precision_le
    rw [if_pos hover, if_pos]
    exact Grid.two_pow_le_round Nat.one_pos (by omega) (by omega)
  rw [if_neg hover, if_neg (by simp [hflush])]
  dsimp only
  by_cases hsub : x.exponent < t.emin
  -- on both sides of the least normal exponent the rounding is that of the grid
  · rw [if_pos hsub, roundSubnormal_of_relative hx hpolicy, roundDenormal_eq_nearest ht hx hsub,
      nearest_of_carry ht hround]
  · have hcat := category_eq_normal hx (biasedExponent_ne_zero ht (by omega))
    rw [if_neg hsub, round_of_relative hcat hpolicy, roundNormal_eq_nearest ht hx (by omega),
      nearest_of_carry ht hround]

end VariablePrecision.Binary
