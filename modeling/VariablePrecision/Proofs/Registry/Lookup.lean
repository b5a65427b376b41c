/-
  VariablePrecision.Proofs.Registry.Lookup

  What the lookups of a registry find.

  A lookup succeeds on the sites of its kind only, with the record of the site.  Since
  all records of a registry are valid, so are all targets that a lookup leads to.
-/

import Mathlib.Data.List.Nodup
import VariablePrecision.Proofs.Registry.Construction

namespace VariablePrecision.Registry

variable {reg : Registry} {site : Option String} {r : Record}

/-- A registry has one record for each of its sites. -/
theorem eq_of_id_eq (reg : Registry) {r r' : Record} (hr : r ∈ reg.records)
    (hr' : r' ∈ reg.records) (h : r.id = r'.id) : r = r' :=
  List.inj_on_of_nodup_map reg.distinct hr hr' h

/-- The record of a site is found by its name. -/
theorem get?_of_mem (h : r ∈ reg.records) : reg.get? r.id = some r := by
  cases hfind : reg.get? r.id with
  | none => exact absurd (BEq.rfl) (List.find?_eq_none.1 hfind r h)
  | some r' =>
    have hid : r'.id = r.id := by simpa using List.find?_some hfind
    rw [reg.eq_of_id_eq (List.mem_of_find?_eq_some hfind) h hid]

theorem mem_of_get? {id : String} (h : reg.get? id = some r) : r ∈ reg.records :=
  List.mem_of_find?_eq_some h

theorem lookup_eq_ok_iff :
    reg.lookup site = .ok r ↔ ∃ id, site = some id ∧ reg.get? id = some r := by
  rw [← Option.bind_eq_some_iff, lookup]
  split
  · next r' hr =>
    rw [hr]
    exact ⟨fun h => congrArg some (Except.ok.inj h),
      fun h => congrArg Except.ok (Option.some.inj h)⟩
  · next hr =>
    rw [hr]
    exact iff_of_false (by simp) (by simp)

theorem lookup_of_mem (h : r ∈ reg.records) : reg.lookup (some r.id) = .ok r :=
  lookup_eq_ok_iff.2 ⟨r.id, rfl, get?_of_mem h⟩

/-- Sites without a record are unknown, and so is a missing site. -/
theorem lookup_of_forall_ne (h : ∀ r ∈ reg.records, site ≠ some r.id) :
    reg.lookup site = .error (.unknownSite site) := by
  have hnone : site.bind reg.get? = none := by
    rw [Option.bind_eq_none_iff]
    rintro id rfl
    refine List.find?_eq_none.2 fun r hr hid => h r hr ?_
    rw [eq_of_beq hid]
  rw [lookup, hnone]

theorem lookupOperation_eq_ok_iff {info : OperationInfo} :
    reg.lookupOperation site = .ok info ↔
      ∃ r, reg.lookup site = .ok r ∧ r.kind = .operation info := by
  rw [lookupOperation, bind_eq_ok_iff]
  refine exists_congr fun r => and_congr_right fun _ => ?_
  cases r.kind with
  | operation info' =>
    constructor
    · intro h
      rw [Except.ok.inj h]
    · intro h
      rw [SiteKind.operation.inj h]
      rfl
  | call info' => exact iff_of_false (by simp) (by simp)

theorem lookupCall_eq_ok_iff :
    reg.lookupCall site = .ok r ↔ reg.lookup site = .ok r ∧ ∃ info, r.kind = .call info := by
  rw [lookupCall, bind_eq_ok_iff]
  constructor
  · rintro ⟨r', hr', h⟩
    cases hkind : r'.kind with
    | operation info =>
      rw [hkind] at h
      contradiction
    | call info =>
      rw [hkind] at h
      obtain rfl := Except.ok.inj h
      exact ⟨hr', info, hkind⟩
  · rintro ⟨hr, info, hkind⟩
    refine ⟨r, hr, ?_⟩
    rw [hkind]
    rfl

/-- A call is an unknown operation. -/
theorem lookupOperation_of_call {info : CallInfo} (h : reg.lookup site = .ok r)
    (hkind : r.kind = .call info) : reg.lookupOperation site = .error (.unknownSite site) := by
  rw [lookupOperation, h]
  simp only [bind, Except.bind, hkind]
  rfl

/-- An operation is an unknown call. -/
theorem lookupCall_of_operation {info : OperationInfo} (h : reg.lookup site = .ok r)
    (hkind : r.kind = .operation info) : reg.lookupCall site = .error (.unknownSite site) := by
  rw [lookupCall, h]
  simp only [bind, Except.bind, hkind]
  rfl

theorem valid_of_lookup (h : reg.lookup site = .ok r) : r.Valid := by
  obtain ⟨id, -, hr⟩ := lookup_eq_ok_iff.1 h
  exact reg.valid r (mem_of_get? hr)

/-- An operation site describes a target that is valid in its own format. -/
theorem valid_of_lookupOperation {info : OperationInfo}
    (h : reg.lookupOperation site = .ok info) : info.target.Valid info.dataType.format := by
  obtain ⟨r, hr, hkind⟩ := lookupOperation_eq_ok_iff.1 h
  exact (valid_of_lookup hr).operation hkind

/-- A call site describes values with targets that are valid in their own formats. -/
theorem valid_of_lookupCall (h : reg.lookupCall site = .ok r) :
    ∀ info ∈ r.inputs ++ r.outputs, info.target.Valid info.dataType.format := by
  intro info hinfo
  exact (valid_of_lookup (lookupCall_eq_ok_iff.1 h).1).argument hinfo

end VariablePrecision.Registry
