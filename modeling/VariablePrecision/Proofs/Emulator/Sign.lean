/-
  VariablePrecision.Proofs.Emulator.Sign

  Emulated operations under a change of sign.

  The roundings before and after an operation hand signs on, as all clamping does, so that the law
  of the native operation is that of the emulated one: signs are taken together in products and
  quotients (`emulate_withSign`), and opposite operands have opposite sums, up to the sign of a zero
  (`emulate_neg_neg`).  A zero is not rounded, so the exception does not grow.

  A result that is a number comes from a native outcome that is one (`isNaN_eq_false_of_roundSide`).
-/

import VariablePrecision.Proofs.Binary.Sign
import VariablePrecision.Proofs.Emulator.StraightLine

namespace VariablePrecision.Emulator

variable {e : Emulator} {f : Format} {t : Target} {side : Side} {op : Operation}
  {x y : Binary f}

/-! ## One side -/

theorem roundSide_withSign (e : Emulator) (side : Side) (t : Target) (x : Binary f) (s : Bool) :
    e.roundSide side t (x.withSign s) = (e.roundSide side t x).withSign s := by
  unfold roundSide
  rw [Binary.clamp_withSign]
  exact (apply_ite (Binary.withSign · s) _ _ _).symm

theorem roundSide_neg (e : Emulator) (side : Side) (t : Target) (x : Binary f) :
    e.roundSide side t (-x) = -e.roundSide side t x := by
  unfold roundSide
  rw [Binary.clamp_neg]
  exact (apply_ite Neg.neg _ _ _).symm

theorem isNaN_eq_false_of_roundSide (h : (e.roundSide side t x).isNaN = false) :
    x.isNaN = false := by
  unfold roundSide at h
  split at h
  · exact Binary.isNaN_eq_false_of_clamp h
  · exact h

theorem roundSide_of_isZero (h : x.isZero) : e.roundSide side t x = x := by
  unfold roundSide
  rw [Binary.clamp_of_special (.inr h), ite_self]

/-! ## Emulated operations -/

theorem emulate_withSign (hop : op = .mul ∨ op = .div) (h : (e.emulate t op x y).isNaN = false)
    (s s' : Bool) :
    e.emulate t op (x.withSign s) (y.withSign s') =
      (e.emulate t op x y).withSign (s != s') := by
  unfold emulate at h ⊢
  rw [roundSide_withSign, roundSide_withSign,
    Binary.apply_withSign hop (isNaN_eq_false_of_roundSide h), roundSide_withSign]

theorem emulate_neg_neg (hop : op = .add ∨ op = .sub)
    (h : (e.emulate t op x y).isNaN = false) :
    e.emulate t op (-x) (-y) = -e.emulate t op x y ∨
      (e.emulate t op (-x) (-y)).isZero ∧ (e.emulate t op x y).isZero := by
  unfold emulate at h ⊢
  rw [roundSide_neg, roundSide_neg]
  rcases Binary.apply_neg_neg hop (isNaN_eq_false_of_roundSide h) with hneg | ⟨hzero, hzero'⟩
  · rw [hneg, roundSide_neg]
    exact .inl rfl
  · rw [roundSide_of_isZero hzero, roundSide_of_isZero hzero']
    exact .inr ⟨hzero, hzero'⟩

/-! ## Results -/

/-- Rounding is symmetric in the sign: the opposite value is rounded to the opposite value.  Hence,
    whatever the emulator and the site, an operation whose result is a number has the opposite
    result with the sign of one operand changed, for a product or a quotient, and an equal one with
    both signs changed, for a sum or a difference. -/
theorem rounding_sign_symmetric (f : Format) :
    (∀ (x : Binary f) (side : Side) (t : Target) (ctx : Context),
      (-x).clamp side t ctx = -x.clamp side t ctx) ∧
    ∀ (e : Emulator) (site : Option String) (op : Operation) (x y z : Binary f),
      e.binaryOp op x y site = .ok z → z.isNaN = false →
      (op = .mul ∨ op = .div →
        e.binaryOp op (-x) y site = .ok (-z) ∧ e.binaryOp op x (-y) site = .ok (-z)) ∧
      (op = .add ∨ op = .sub →
        ∃ w, e.binaryOp op (-x) (-y) site = .ok w ∧ Predicate.oeq.evaluate w (-z) = true) := by
  refine ⟨Binary.clamp_neg, fun e site op x y z hz hnumber => ⟨fun hop => ?_, fun hop => ?_⟩⟩
  · have hleft := exists_binaryOp_of_rel (-x) y
      (R := fun z z' => z.isNaN = false → z' = -z)
      (fun t h => (Binary.neg_of_withSign (emulate_withSign hop h)).1)
      (fun h => (Binary.neg_of_withSign (Binary.apply_withSign hop h)).1) hz
    have hright := exists_binaryOp_of_rel x (-y)
      (R := fun z z' => z.isNaN = false → z' = -z)
      (fun t h => (Binary.neg_of_withSign (emulate_withSign hop h)).2)
      (fun h => (Binary.neg_of_withSign (Binary.apply_withSign hop h)).2) hz
    obtain ⟨z₁, hz₁, h₁⟩ := hleft
    obtain ⟨z₂, hz₂, h₂⟩ := hright
    rw [hz₁, hz₂, h₁ hnumber, h₂ hnumber]
    exact ⟨rfl, rfl⟩
  · have hboth := exists_binaryOp_of_rel (-x) (-y)
      (R := fun z z' => z.isNaN = false → Predicate.oeq.evaluate z' (-z) = true)
      (fun t h => Binary.oeq_neg h (emulate_neg_neg hop h))
      (fun h => Binary.oeq_neg h (Binary.apply_neg_neg hop h)) hz
    obtain ⟨w, hw, heq⟩ := hboth
    exact ⟨w, hw, heq hnumber⟩

/-- The quotient of -1 and 3 is that of 1 and 3 with its sign changed, but the zero that is the
    difference of 1 and 1 keeps its sign when both signs are changed. -/
theorem rounding_sign_symmetric_third :
    (flushingHalf .full).binaryOp .div (.ofBits .binary32 0x3f800000)
        (.ofBits .binary32 0x40400000) none = .ok (.ofBits .binary32 0x3eaaa000) ∧
      (flushingHalf .full).binaryOp .div (-.ofBits .binary32 0x3f800000)
        (.ofBits .binary32 0x40400000) none = .ok (-.ofBits .binary32 0x3eaaa000) ∧
      (flushingHalf .full).binaryOp .sub (.ofBits .binary32 0x3f800000)
        (.ofBits .binary32 0x3f800000) none = .ok (.ofBits .binary32 0) ∧
      ∃ w, (flushingHalf .full).binaryOp .sub (-.ofBits .binary32 0x3f800000)
          (-.ofBits .binary32 0x3f800000) none = .ok w ∧
        Predicate.oeq.evaluate w (-.ofBits .binary32 0) = true ∧ w ≠ -.ofBits .binary32 0 := by
  have hthird : (flushingHalf .full).binaryOp .div (.ofBits .binary32 0x3f800000)
      (.ofBits .binary32 0x40400000) none = .ok (.ofBits .binary32 0x3eaaa000) := by
    decide +kernel
  have hzero : (flushingHalf .full).binaryOp .sub (.ofBits .binary32 0x3f800000)
      (.ofBits .binary32 0x3f800000) none = .ok (.ofBits .binary32 0) := by
    decide +kernel
  obtain ⟨-, hsymmetric⟩ := rounding_sign_symmetric .binary32
  obtain ⟨hneg, -⟩ := (hsymmetric _ _ _ _ _ _ hthird (by decide)).1 (.inr rfl)
  obtain ⟨w, hw, heq⟩ := (hsymmetric _ _ _ _ _ _ hzero (by decide)).2 (.inr rfl)
  have hpositive : (flushingHalf .full).binaryOp .sub (-.ofBits .binary32 0x3f800000)
      (-.ofBits .binary32 0x3f800000) none = .ok (.ofBits .binary32 0) := by
    decide +kernel
  refine ⟨hthird, hneg, hzero, w, hw, heq, ?_⟩
  rw [hpositive] at hw
  rw [← Except.ok.inj hw]
  decide

end VariablePrecision.Emulator
