/-
  VariablePrecision.Proofs.Emulator.SingleRounding

  In full mode an operation is rounded twice, by the native operation and by the
  clamping of its result.  If the target is narrow, that is as good as one rounding of
  the exact result of the clamped operands: clamped operands are on the grid of the
  target, and the native format is more than twice as long.
-/

import VariablePrecision.Emulator.Operation
import VariablePrecision.Proofs.Binary.CorrectRounding
import VariablePrecision.Proofs.Rounding.Operations

namespace VariablePrecision

variable {f : Format} {t : Target} {x y : Binary f}

/-- The operation on exact numbers. -/
def Operation.exact : Operation → ℚ → ℚ → ℚ
  | add => (· + ·)
  | sub => (· - ·)
  | mul => (· * ·)
  | div => (· / ·)

/-- The native format has more than twice the mantissa bits of the target, and one exponent bit
    more: targets of up to 10 and 7 bits in binary32, of up to 25 and 10 bits in binary64. -/
structure Target.Narrow (f : Format) (t : Target) : Prop where
  precision_le : 2 * t.precision + 2 ≤ f.mantissaBits
  range_lt : t.range < f.exponentBits

namespace Target

/-! ## Narrow targets -/

theorem narrow_binary32_iff : t.Narrow .binary32 ↔ t.precision ≤ 10 ∧ t.range ≤ 7 := by
  have hbits : Format.binary32.mantissaBits = 23 ∧ Format.binary32.exponentBits = 8 := ⟨rfl, rfl⟩
  constructor
  · rintro ⟨hprec, hrange⟩
    omega
  · rintro ⟨hprec, hrange⟩
    exact ⟨by omega, by omega⟩

theorem narrow_binary64_iff : t.Narrow .binary64 ↔ t.precision ≤ 25 ∧ t.range ≤ 10 := by
  have hbits : Format.binary64.mantissaBits = 52 ∧ Format.binary64.exponentBits = 11 := ⟨rfl, rfl⟩
  constructor
  · rintro ⟨hprec, hrange⟩
    omega
  · rintro ⟨hprec, hrange⟩
    exact ⟨by omega, by omega⟩

theorem Narrow.emax_le (hn : t.Narrow f) : 2 * t.emax + 1 ≤ f.bias := by
  have hrange := hn.range_lt
  have hexp : 2 ≤ f.exponentBits := by cases f <;> decide
  have hpow : 2 * 2 ^ (t.range - 1) ≤ 2 ^ (f.exponentBits - 1) := by
    rw [← Nat.pow_succ']
    exact Nat.pow_le_pow_right Nat.two_pos (by omega)
  rw [emax_eq, Format.bias]
  omega

/-- The least quantum is far above the native unit. -/
theorem Narrow.lowest_ge (ht : t.Valid f) (hn : t.Narrow f) :
    f.mantissaBits + 3 ≤ (t.grid f).lowest ∧ f.unitExponent ≤ 2 * (t.grid f).lowest := by
  have hlow := ht.lowest_eq
  have hemax := hn.emax_le
  have hprec := hn.precision_le
  have hunit := f.unitExponent_add_one
  have hbias : 2 * f.mantissaBits + 6 ≤ f.bias := by cases f <;> decide
  omega

end Target

namespace Binary

/-! ## Clamped operands -/

/-- A finite result of clamping is on the grid of the target. -/
theorem mem_grid_clamp (ht : t.Valid f) {ctx : Context} {side : Side}
    (hpolicy : ctx.policy.boundsAbsolute = false) (hflush : ctx.flushes side = false)
    (hfin : (x.clamp side t ctx).isFinite) : (t.grid f).Mem (x.clamp side t ctx).absUnits := by
  have hx : x.isFinite := by
    by_contra hx
    rw [clamp_of_special (.inl (by simpa using hx))] at hfin
    exact hx hfin
  rw [clamp_eq_nearest ht hx hpolicy hflush] at hfin ⊢
  by_cases hlt : (t.grid f).round x.absUnits 1 < 2 ^ (t.top f + 1)
  · rw [(ht.absUnits_nearest Nat.one_pos hlt).2]
    exact Grid.mem_round _ Nat.one_pos
  · rw [Target.nearest, if_pos (by omega), isFinite_infinity] at hfin
    exact absurd hfin (by decide)

/-! ## Two roundings as one -/

/-- Clamping the native rounding of a ratio, where the two roundings are one on the grids. -/
theorem clamp_nearest (ht : t.Valid f) {ctx : Context} {side : Side} {s : Bool} {a d : Nat}
    (hd : 0 < d) (hpolicy : ctx.policy.boundsAbsolute = false)
    (hflush : ctx.flushes side = false)
    (hround : (t.grid f).round (f.grid.round a d) 1 = (t.grid f).round a d) :
    (nearest f s a d).clamp side t ctx = t.nearest f s a d := by
  rcases Nat.lt_or_ge (f.grid.round a d) f.unitBound with hlt | hge
  · rw [clamp_eq_nearest ht (isFinite_nearest hd hlt) hpolicy hflush, absUnits_nearest hd hlt,
      negative_nearest]
    unfold Target.nearest
    rw [hround]
  · -- a native overflow is an overflow of the target
    have htop := ht.top_lt
    have hle := ht.lowest_add_precision_le
    have hbig : 2 ^ (t.top f + 1) ≤ (t.grid f).round a d := by
      rw [← hround]
      exact Grid.two_pow_le_round Nat.one_pos (by omega) (by omega)
    rw [nearest_eq_infinity hd hge, clamp_infinity, Target.nearest, if_pos hbig]

variable {ctx : Context} {side : Side}

theorem clamp_add_rounds (ht : t.Valid f) (hn : t.Narrow f)
    (hpolicy : ctx.policy.boundsAbsolute = false) (hflush : ctx.flushes side = false)
    (hx : x.isFinite) (hy : y.isFinite) (hxm : (t.grid f).Mem x.absUnits)
    (hym : (t.grid f).Mem y.absUnits) :
    t.Rounds (x.toRat + y.toRat) ((x + y).clamp side t ctx) := by
  obtain ⟨s, hs, hadd⟩ := add_eq_nearest hx hy
  have hprec := hn.precision_le
  rw [← natAbs_units] at hxm hym
  have hround := Grid.round_round (g := f.grid) (h := t.grid f) (a := (x.units + y.units).natAbs)
    rfl (by simp; omega) Nat.one_pos (fun w hw hmid => by
      rw [Nat.div_one] at hw
      rw [Nat.mul_one]
      exact Grid.sum_eq_round_of_half_way rfl (by simp; omega) hxm hym hw hmid)
  rw [hadd, clamp_nearest ht Nat.one_pos hpolicy hflush hround, toRat_add, ← scaled_natAbs _ s hs]
  exact ht.rounds_nearest Nat.one_pos s

theorem clamp_mul_rounds (ht : t.Valid f) (hn : t.Narrow f)
    (hpolicy : ctx.policy.boundsAbsolute = false) (hflush : ctx.flushes side = false)
    (hx : x.isFinite) (hy : y.isFinite) (hxm : (t.grid f).Mem x.absUnits)
    (hym : (t.grid f).Mem y.absUnits) :
    t.Rounds (x.toRat * y.toRat) ((x * y).clamp side t ctx) := by
  have hprec := hn.precision_le
  have hd := Nat.two_pow_pos f.unitExponent
  have hround := Grid.round_round (g := f.grid) (h := t.grid f) (a := x.absUnits * y.absUnits)
    rfl (by simp; omega) hd (fun _ _ _ =>
      Grid.round_mul rfl (by simp; omega) hxm hym (hn.lowest_ge ht).2)
  rw [mul_eq_nearest hx hy, clamp_nearest ht hd hpolicy hflush hround, toRat_mul]
  exact ht.rounds_nearest hd _

theorem clamp_div_rounds (ht : t.Valid f) (hn : t.Narrow f)
    (hpolicy : ctx.policy.boundsAbsolute = false) (hflush : ctx.flushes side = false)
    (hx : x.isFinite) (hy : y.isFinite) (hz : y.isZero = false)
    (hxm : (t.grid f).Mem x.absUnits) (hym : (t.grid f).Mem y.absUnits) :
    t.Rounds (x.toRat / y.toRat) ((x / y).clamp side t ctx) := by
  have hprec := hn.precision_le
  have hd : 0 < y.absUnits := Nat.pos_of_ne_zero (isZero_eq_false_iff.1 hz)
  have hround := Grid.round_round (g := f.grid) (h := t.grid f)
    (a := x.absUnits * 2 ^ f.unitExponent) rfl (by simp; omega) hd (fun w hw hmid =>
      Grid.quotient_eq_round_of_half_way rfl (by simp; omega) (hn.lowest_ge ht).1 hxm hym hd hw
        hmid)
  rw [div_eq_nearest hx hy hz, clamp_nearest ht hd hpolicy hflush hround, toRat_div]
  exact ht.rounds_nearest hd _

/-- A native operation on numbers of a narrow target, clamped, is rounded once. -/
theorem clamp_apply_rounds (ht : t.Valid f) (hn : t.Narrow f)
    (hpolicy : ctx.policy.boundsAbsolute = false) (hflush : ctx.flushes side = false)
    (op : Operation) (hx : x.isFinite) (hy : y.isFinite)
    (hz : op = .div → y.isZero = false)
    (hxm : (t.grid f).Mem x.absUnits) (hym : (t.grid f).Mem y.absUnits) :
    t.Rounds (op.exact x.toRat y.toRat) ((op.apply x y).clamp side t ctx) := by
  cases op with
  | add => exact clamp_add_rounds ht hn hpolicy hflush hx hy hxm hym
  | sub =>
    have hadd := clamp_add_rounds (y := -y) ht hn hpolicy hflush hx hy hxm hym
    rwa [toRat_neg, ← sub_eq_add_neg] at hadd
  | mul => exact clamp_mul_rounds ht hn hpolicy hflush hx hy hxm hym
  | div => exact clamp_div_rounds ht hn hpolicy hflush hx hy (hz rfl) hxm hym

end Binary

namespace Emulator

/-- In full mode an operation on a narrow target is the exact operation on the clamped operands,
    rounded once. -/
theorem binaryOp_full_rounds (e : Emulator) (op : Operation) (x y : Binary f)
    (site : Option String) (hreg : e.registry = none) (hmode : e.config.mode = .full)
    (hrel : e.config.context.policy.mode = .relative) (hdaz : e.config.context.daz = false)
    (hftz : e.config.context.ftz = false) (ht : e.config.targets.get f = t) (hn : t.Narrow f)
    (hx : (x.clamp .operand t e.config.context).isFinite)
    (hy : (y.clamp .operand t e.config.context).isFinite)
    (hz : op = .div → (y.clamp .operand t e.config.context).isZero = false) :
    ∃ z, e.binaryOp op x y site = .ok z ∧
      t.Rounds (op.exact (x.clamp .operand t e.config.context).toRat
        (y.clamp .operand t e.config.context).toRat) z := by
  have hvalid : t.Valid f := ht ▸ e.config.valid f
  have hpolicy : e.config.context.policy.boundsAbsolute = false := by
    unfold ErrorPolicy.boundsAbsolute
    rw [hrel]
  have hoperand : e.config.context.flushes .operand = false := hdaz
  have hresult : e.config.context.flushes .result = false := hftz
  have hside : ∀ (side : Side) (z : Binary f),
      e.roundSide side t z = z.clamp side t e.config.context := by
    intro side z
    rw [roundSide, if_pos (by rw [hmode]; rfl)]
  refine ⟨e.emulate t op x y, ?_, ?_⟩
  · unfold binaryOp operationTarget
    rw [hreg, ht]
    rfl
  · rw [emulate, hside, hside, hside]
    exact Binary.clamp_apply_rounds hvalid hn hpolicy hresult op hx hy hz
      (Binary.mem_grid_clamp hvalid hpolicy hoperand hx)
      (Binary.mem_grid_clamp hvalid hpolicy hoperand hy)

/-- An emulator of 10 mantissa and 5 exponent bits that rounds operands and results. -/
def halfPrecision : Emulator where
  config :=
    { targets := ⟨⟨10, 5⟩, ⟨10, 5⟩⟩
      mode := .full
      valid := Targets.half_valid }
  registry := none
  knowsStack := false
  log := none

/-- One third in half precision. -/
theorem binaryOp_full_rounds_third :
    halfPrecision.binaryOp .div (.ofBits .binary32 0x3f800000) (.ofBits .binary32 0x40400000)
        none = .ok (.ofBits .binary32 0x3eaaa000) ∧
      Target.Rounds ⟨10, 5⟩ (Binary.toRat (.ofBits .binary32 0x3f800000) /
        Binary.toRat (.ofBits .binary32 0x40400000)) (.ofBits .binary32 0x3eaaa000) := by
  have hone : Binary.clamp (.ofBits .binary32 0x3f800000) .operand ⟨10, 5⟩
      halfPrecision.config.context = .ofBits .binary32 0x3f800000 := by decide +kernel
  have hthree : Binary.clamp (.ofBits .binary32 0x40400000) .operand ⟨10, 5⟩
      halfPrecision.config.context = .ofBits .binary32 0x40400000 := by decide +kernel
  have hthird : halfPrecision.binaryOp .div (.ofBits .binary32 0x3f800000)
      (.ofBits .binary32 0x40400000) none = .ok (.ofBits .binary32 0x3eaaa000) := by
    decide +kernel
  obtain ⟨z, hz, hround⟩ := binaryOp_full_rounds halfPrecision .div (.ofBits .binary32 0x3f800000)
    (.ofBits .binary32 0x40400000) none rfl rfl rfl rfl rfl
    (show halfPrecision.config.targets.get .binary32 = ⟨10, 5⟩ from rfl)
    (Target.narrow_binary32_iff.2 (by decide)) (by rw [hone]; decide) (by rw [hthree]; decide)
    (fun _ => by rw [hthree]; decide)
  rw [hthird] at hz
  rw [hone, hthree, ← Except.ok.inj hz] at hround
  exact ⟨hthird, hround⟩

end Emulator

end VariablePrecision
