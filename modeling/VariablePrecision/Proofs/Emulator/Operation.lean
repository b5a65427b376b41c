/-
  VariablePrecision.Proofs.Emulator.Operation

  What an operation comes to, by its target.

  `binaryOp` asks for a target first.  Without one it is the native operation, with one the
  emulated operation, and a failed search for one is the only way to fail.  Everything that is
  proved of operations starts from these three cases and from what the target is.
-/

import VariablePrecision.Emulator.Operation
import VariablePrecision.Proofs.Registry.Lookup

namespace VariablePrecision

/-- The record of the site is one of an operation in the format `f`, with the target `t`. -/
def Registry.Assigns (reg : Registry) (f : Format) (site : Option String) (t : Target) : Prop :=
  ∃ r ∈ reg.records, site = some r.id ∧
    ∃ info, r.kind = .operation info ∧ info.dataType.format = f ∧ info.target = t

namespace Emulator

variable {e e' : Emulator} {reg : Registry} {f : Format} {site : Option String} {t : Target}
  {op : Operation} {x y z : Binary f} {err : Error}

/-! ## Targets -/

/-- Without a registry the default target holds. -/
theorem operationTarget_of_none (hreg : e.registry = none) :
    e.operationTarget f site = .ok (some (e.config.targets.get f)) := by
  rw [operationTarget, hreg]
  rfl

/-- Operations that are not covered are left alone, and their sites are not looked up. -/
theorem operationTarget_of_not_covered (hreg : e.registry = some reg)
    (hcoverage : e.config.coverage.coversOperations = false) :
    e.operationTarget f site = .ok none := by
  unfold operationTarget
  rw [hreg]
  dsimp only
  rw [if_neg (by rw [hcoverage]; exact Bool.false_ne_true)]
  rfl

/-- An operation that is covered is looked up, and its format is checked. -/
theorem operationTarget_of_covered (hreg : e.registry = some reg)
    (hcoverage : e.config.coverage.coversOperations = true) (f : Format) (site : Option String) :
    e.operationTarget f site = reg.lookupOperation site >>= fun info =>
      Error.checkFormat site info.dataType.format f >>= fun _ => .ok (some info.target) := by
  unfold operationTarget
  rw [hreg]
  dsimp only
  rw [if_pos hcoverage]
  rfl

/-- It has the target that the record of its site assigns to it. -/
theorem operationTarget_of_assigns (hreg : e.registry = some reg)
    (hcoverage : e.config.coverage.coversOperations = true) (h : reg.Assigns f site t) :
    e.operationTarget f site = .ok (some t) := by
  obtain ⟨r, hr, rfl, info, hkind, hformat, rfl⟩ := h
  have hinfo := Registry.lookupOperation_eq_ok_iff.2 ⟨r, Registry.lookup_of_mem hr, hkind⟩
  rw [operationTarget_of_covered hreg hcoverage, hinfo]
  show (Error.checkFormat _ _ _ >>= _) = _
  rw [Error.checkFormat, if_pos hformat]
  rfl

/-! ## Results -/

theorem binaryOp_of_target (h : e.operationTarget f site = .ok (some t)) (op : Operation)
    (x y : Binary f) : e.binaryOp op x y site = .ok (e.emulate t op x y) := by
  rw [binaryOp, h]
  rfl

theorem binaryOp_of_no_target (h : e.operationTarget f site = .ok none) (op : Operation)
    (x y : Binary f) : e.binaryOp op x y site = .ok (op.apply x y) := by
  rw [binaryOp, h]
  rfl

theorem binaryOp_of_error (h : e.operationTarget f site = .error err)
    (op : Operation) (x y : Binary f) : e.binaryOp op x y site = .error err := by
  rw [binaryOp, h]
  rfl

/-- A result is that of the emulated operation, or that of the native one where there is no
    target. -/
theorem binaryOp_eq_ok_iff :
    e.binaryOp op x y site = .ok z ↔
      (∃ t, e.operationTarget f site = .ok (some t) ∧ e.emulate t op x y = z) ∨
        e.operationTarget f site = .ok none ∧ op.apply x y = z := by
  rw [binaryOp, bind_eq_ok_iff]
  constructor
  · rintro ⟨target, htarget, h⟩
    cases target with
    | none => exact .inr ⟨htarget, Except.ok.inj h⟩
    | some t => exact .inl ⟨t, htarget, Except.ok.inj h⟩
  · rintro (⟨t, htarget, rfl⟩ | ⟨htarget, rfl⟩)
    · exact ⟨some t, htarget, rfl⟩
    · exact ⟨none, htarget, rfl⟩

/-- Whether there is a result does not depend on the operands, so two operations at one site are
    related as their outcomes are, with a target and without. -/
theorem exists_binaryOp_of_rel (x' y' : Binary f) {R : Binary f → Binary f → Prop}
    (hemulate : ∀ t, R (e.emulate t op x y) (e.emulate t op x' y'))
    (hnative : R (op.apply x y) (op.apply x' y')) (h : e.binaryOp op x y site = .ok z) :
    ∃ z', e.binaryOp op x' y' site = .ok z' ∧ R z z' := by
  rcases binaryOp_eq_ok_iff.1 h with ⟨t, htarget, rfl⟩ | ⟨htarget, rfl⟩
  · exact ⟨_, binaryOp_of_target htarget op x' y', hemulate t⟩
  · exact ⟨_, binaryOp_of_no_target htarget op x' y', hnative⟩

/-- Of an emulator only the settings enter an emulated operation. -/
theorem emulate_congr (h : e'.config = e.config) (t : Target) (op : Operation) (x y : Binary f) :
    e'.emulate t op x y = e.emulate t op x y := by
  unfold emulate roundSide
  rw [h]

end Emulator

end VariablePrecision
