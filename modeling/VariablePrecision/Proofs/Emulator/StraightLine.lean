/-
  VariablePrecision.Proofs.Emulator.StraightLine

  Straight-line programs under two emulators.

  A `Program` is a sequence of operations whose operands are given values or earlier
  results.  When all given values are ones that the target holds, so are all results,
  and rounding the operands never changes one: full mode and output-bound mode give the
  same results, one by one.
-/

import VariablePrecision.Proofs.Binary.Stable
import VariablePrecision.Proofs.Emulator.Operation

namespace VariablePrecision

variable {f : Format} {n : Nat}

/-! ## Programs -/

/-- What an operation works on, after `n` results: a given value or one of the results. -/
inductive Operand (f : Format) (n : Nat) where
  | given (x : Binary f)
  | earlier (i : Fin n)

/-- The value of an operand. -/
def Operand.value (results : Vector (Binary f) n) : Operand f n → Binary f
  | given x => x
  | earlier i => results[i]

/-- The operations that are left after `n` results. -/
inductive Program (f : Format) : Nat → Type where
  | done {n : Nat} : Program f n
  | step {n : Nat} (op : Operation) (left right : Operand f n) (site : Option String)
      (rest : Program f (n + 1)) : Program f n

/-- All results of the operations that are left, in their order. -/
def Program.run (e : Emulator) {n : Nat} :
    Program f n → Vector (Binary f) n → Except Error (List (Binary f))
  | done, _ => .ok []
  | step op left right site rest, results => do
      let z ← e.binaryOp op (left.value results) (right.value results) site
      let zs ← rest.run e (results.push z)
      return z :: zs

/-- A given value has the property. -/
def Operand.Given (P : Binary f → Prop) : Operand f n → Prop
  | given x => P x
  | earlier _ => True

/-- All given values of a program have the property. -/
def Program.Given (P : Binary f → Prop) {n : Nat} : Program f n → Prop
  | done => True
  | step _ left right _ rest => left.Given P ∧ right.Given P ∧ rest.Given P

/-- Operands have a property that given values and results have. -/
theorem Operand.value_of_given {P : Binary f → Prop} {o : Operand f n}
    {results : Vector (Binary f) n} (ho : o.Given P) (hresults : ∀ z ∈ results, P z) :
    P (o.value results) := by
  cases o with
  | given x => exact ho
  | earlier i => exact hresults _ (Vector.getElem_mem i.isLt)

/-! ## Two modes -/

namespace Emulator

/-- The value is one that the target of the emulator holds, so that as an operand it is left
    alone. -/
def Holds (e : Emulator) (x : Binary f) : Prop :=
  x.clamp .operand (e.config.targets.get f) e.config.context = x

variable {e e' : Emulator} {x y : Binary f}

theorem binaryOp_of_none (hreg : e.registry = none) (op : Operation) (site : Option String) :
    e.binaryOp op x y site = .ok (e.emulate (e.config.targets.get f) op x y) :=
  binaryOp_of_target (operationTarget_of_none hreg) op x y

/-- On values that the target holds, an operation has the same result in both modes, which the
    target holds again. -/
theorem binaryOp_full_eq_outputBound (hreg : e.registry = none) (hreg' : e'.registry = none)
    (hmode : e.config.mode = .full)
    (hconfig : e'.config.toOptions = { e.config.toOptions with mode := .outputBound })
    (hctx : e.config.context.Steady (e.config.targets.get f)) (hx : e.Holds x) (hy : e.Holds y)
    (op : Operation) (site : Option String) :
    ∃ z, e.binaryOp op x y site = .ok z ∧ e'.binaryOp op x y site = .ok z ∧ e.Holds z := by
  have htargets : e'.config.targets = e.config.targets := by rw [hconfig]
  have hcontext : e'.config.context = e.config.context := by rw [hconfig]
  have hmode' : e'.config.mode = .outputBound := by rw [hconfig]
  refine ⟨(op.apply x y).clamp .result (e.config.targets.get f) e.config.context, ?_, ?_,
    Binary.clamp_operand_clamp_result (e.config.valid f) hctx _⟩
  · -- full mode clamps the operands too, which they survive
    have hside : ∀ (side : Side) (z : Binary f), e.roundSide side (e.config.targets.get f) z =
        z.clamp side (e.config.targets.get f) e.config.context := by
      intro side z
      rw [roundSide, if_pos (by rw [hmode]; rfl)]
    rw [binaryOp_of_none hreg, emulate, hside, hside, hside, hx, hy]
  · -- output-bound mode leaves the operands alone from the start
    have hoperand : ∀ z : Binary f, e'.roundSide .operand (e'.config.targets.get f) z = z := by
      intro z
      rw [roundSide, if_neg (by rw [hmode']; decide)]
    have hresult : ∀ z : Binary f, e'.roundSide .result (e'.config.targets.get f) z =
        z.clamp .result (e.config.targets.get f) e.config.context := by
      intro z
      rw [roundSide, if_pos (by rw [hmode']; rfl), htargets, hcontext]
    rw [binaryOp_of_none hreg', emulate, hoperand, hoperand, hresult]

end Emulator

/-- From results that the target holds, the operations that are left have the same results in both
    modes. -/
theorem Program.run_of_holds {e e' : Emulator} (hreg : e.registry = none)
    (hreg' : e'.registry = none) (hmode : e.config.mode = .full)
    (hconfig : e'.config.toOptions = { e.config.toOptions with mode := .outputBound })
    (hctx : e.config.context.Steady (e.config.targets.get f)) (p : Program f n)
    (hp : p.Given e.Holds) (results : Vector (Binary f) n) (hresults : ∀ z ∈ results, e.Holds z) :
    ∃ zs, p.run e results = .ok zs ∧ p.run e' results = .ok zs := by
  -- the results so far are held, and each operation adds one that is held too
  induction p with
  | done => exact ⟨[], rfl, rfl⟩
  | step op left right site rest ih =>
    obtain ⟨hleft, hright, hrest⟩ := hp
    obtain ⟨z, hz, hz', hholds⟩ := Emulator.binaryOp_full_eq_outputBound hreg hreg' hmode
      hconfig hctx (left.value_of_given hleft hresults) (right.value_of_given hright hresults) op
      site
    have hpush : ∀ w ∈ results.push z, e.Holds w := by
      intro w hw
      rcases Vector.mem_push.1 hw with hw | rfl
      · exact hresults w hw
      · exact hholds
    obtain ⟨zs, hzs, hzs'⟩ := ih hrest (results.push z) hpush
    refine ⟨z :: zs, ?_, ?_⟩
    · rw [run, hz]
      change (rest.run e (results.push z) >>= _) = _
      rw [hzs]
      rfl
    · rw [run, hz']
      change (rest.run e' (results.push z) >>= _) = _
      rw [hzs']
      rfl

/-- Two emulators without registry that differ in their modes only, full and output-bound, give the
    same results for a straight-line program, provided that the target holds its given values, that
    operands are flushed only if results are, and that an absolute error is bounded below the
    normal range of the target only. -/
theorem Program.run_full_eq_outputBound (e e' : Emulator) (hreg : e.registry = none)
    (hreg' : e'.registry = none) (hmode : e.config.mode = .full)
    (hconfig : e'.config.toOptions = { e.config.toOptions with mode := .outputBound })
    (hbound : e.config.context.policy.mode = .relative ∨
      e.config.context.policy.absoluteExponent ≤ (e.config.targets.get f).emin)
    (hflush : e.config.context.daz = true → e.config.context.ftz = true) (p : Program f 0)
    (hp : p.Given fun x =>
      x.clamp .operand (e.config.targets.get f) e.config.context = x) :
    ∃ zs, p.run e #v[] = .ok zs ∧ p.run e' #v[] = .ok zs :=
  p.run_of_holds hreg hreg' hmode hconfig ⟨hflush, hbound⟩ hp #v[] (by simp)

/-- An emulator of 10 mantissa and 5 exponent bits that flushes to zero and bounds both errors. -/
def flushingHalf (mode : Mode) : Emulator where
  config :=
    { targets := ⟨⟨10, 5⟩, ⟨10, 5⟩⟩
      mode
      context :=
        { policy := { mode := .combined, absoluteExponent := -14 }, daz := true, ftz := true }
      valid := Targets.half_valid }
  registry := none
  knowsStack := false
  log := none

/-- The quotient of 1 and 3, its square, a hundredth of that, a last quotient that is flushed, an
    overflow, and the difference of two infinities. -/
def bothEndsProgram : Program .binary32 0 :=
  .step .div (.given (.ofBits .binary32 0x3f800000)) (.given (.ofBits .binary32 0x40400000)) none <|
  .step .mul (.earlier 0) (.earlier 0) none <|
  .step .div (.earlier 1) (.given (.ofBits .binary32 0x42c80000)) none <|
  .step .div (.earlier 2) (.given (.ofBits .binary32 0x476a6000)) none <|
  .step .div (.earlier 0) (.earlier 3) none <|
  .step .sub (.earlier 4) (.earlier 4) none .done

theorem run_full_eq_outputBound_bothEnds :
    (flushingHalf .full).registry = none ∧ (flushingHalf .outputBound).registry = none ∧
      bothEndsProgram.Given (fun x => x.clamp .operand
        ((flushingHalf .full).config.targets.get .binary32)
        (flushingHalf .full).config.context = x) ∧
      bothEndsProgram.run (flushingHalf .outputBound) #v[] =
        .ok ([0x3eaaa000, 0x3de38000, 0x3a900000, 0, 0x7f800000, 0x7fc00000].map
          (Binary.ofBits .binary32)) := by
  have hgiven : bothEndsProgram.Given (fun x => x.clamp .operand
      ((flushingHalf .full).config.targets.get .binary32)
      (flushingHalf .full).config.context = x) := by
    simp only [bothEndsProgram, Program.Given, Operand.Given]
    decide +kernel
  obtain ⟨zs, hfull, hbound⟩ := Program.run_full_eq_outputBound (flushingHalf .full)
    (flushingHalf .outputBound) rfl rfl rfl rfl (.inr (by decide)) (fun _ => rfl)
    bothEndsProgram hgiven
  have hresults : bothEndsProgram.run (flushingHalf .full) #v[] =
      .ok ([0x3eaaa000, 0x3de38000, 0x3a900000, 0, 0x7f800000, 0x7fc00000].map
        (Binary.ofBits .binary32)) := by
    decide +kernel
  rw [hfull] at hresults
  rw [hbound]
  exact ⟨rfl, rfl, hgiven, hresults⟩

end VariablePrecision
