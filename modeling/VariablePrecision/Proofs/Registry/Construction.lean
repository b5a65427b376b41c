/-
  VariablePrecision.Proofs.Registry.Construction

  Registries and the records they are made of: making one keeps the records, and the
  records of a registry make it again.  A valid record has valid targets in its operation
  and in all of its arguments.
-/

import VariablePrecision.Registry.Basic

namespace VariablePrecision

/-! ## Records -/

theorem Record.Valid.operation {r : Record} {info : OperationInfo} (h : r.Valid)
    (hkind : r.kind = .operation info) : info.target.Valid info.dataType.format := by
  have huse : (⟨.operation, info.dataType.format, info.target⟩ : Record.Use) ∈ r.uses := by
    simp [Record.uses, Record.operation?, hkind]
  exact h _ huse

theorem Record.Valid.argument {r : Record} {a : ArgumentInfo} (h : r.Valid)
    (ha : a ∈ r.inputs ++ r.outputs) : a.target.Valid a.dataType.format :=
  h (.ofArgument a) (List.mem_append_right _ (List.mem_map_of_mem ha))

/-! ## Registries -/

namespace Registry

/-- The records of a registry make that registry. -/
theorem ofRecords_records (reg : Registry) : ofRecords reg.records = .ok reg := by
  have hfault : firstFault? [] reg.records = none :=
    firstFault?_eq_none_iff.2 ⟨reg.valid, reg.distinct, by simp⟩
  unfold ofRecords
  split
  · next h =>
    rw [hfault] at h
    contradiction
  · rfl

/-- Records without a fault make a registry. -/
theorem exists_ofRecords {records : List Record} (h : firstFault? [] records = none) :
    ∃ reg, ofRecords records = .ok reg := by
  obtain ⟨hvalid, hdistinct, -⟩ := firstFault?_eq_none_iff.1 h
  exact ⟨_, ofRecords_records ⟨records, hvalid, hdistinct⟩⟩

theorem records_of_ofRecords {records : List Record} {reg : Registry}
    (h : ofRecords records = .ok reg) : reg.records = records := by
  unfold ofRecords at h
  split at h
  · contradiction
  · rw [← Except.ok.inj h]

/-- Records that make a registry only have valid targets. -/
theorem valid_of_ofRecords {records : List Record} {reg : Registry}
    (h : ofRecords records = .ok reg) : ∀ r ∈ records, r.Valid := by
  rw [← records_of_ofRecords h]
  exact reg.valid

end Registry

end VariablePrecision
