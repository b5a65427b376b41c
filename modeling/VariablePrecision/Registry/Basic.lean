/-
  VariablePrecision.Registry.Basic

  The registry: the records of all sites of a program, in the order of the profile,
  with valid targets and without two records of one site.  `ofRecords` builds it or
  reports the first record that breaks one of these rules; a record whose targets are
  out of bounds is reported as such even if its site is also a duplicate.
-/

import VariablePrecision.Registry.Record

namespace VariablePrecision

/-- The records of all sites of a program. -/
structure Registry where
  records : List Record
  valid : ∀ r ∈ records, r.Valid
  distinct : (records.map Record.id).Nodup
  deriving DecidableEq, Repr

namespace Registry

/-! ## Construction -/

/-- Why records do not make a registry. -/
inductive Fault where
  /-- A target of the record cannot be emulated. -/
  | badTarget (site : String) (use : Record.Use) (fault : Target.Fault)
  /-- An earlier record is of the same site. -/
  | duplicateSite (site : String)
  deriving DecidableEq, Repr

/-- The failure that a fault of a profile is. -/
def Fault.toError : Fault → Error
  | badTarget site use fault =>
      .malformedProfile ("site " ++ site ++ ", " ++ use.part.describe ++ ": " ++
        (fault.toError use.format).message)
  | duplicateSite site => .malformedProfile ("duplicate site " ++ site)

/-- The fault of one record after those of the sites `seen`. -/
def recordFault? (seen : List String) (r : Record) : Option Fault :=
  match r.fault? with
  | some (use, fault) => some (.badTarget r.id use fault)
  | none => if r.id ∈ seen then some (.duplicateSite r.id) else none

/-- The first fault of records that follow those of the sites `seen`. -/
def firstFault? (seen : List String) : List Record → Option Fault
  | [] => none
  | r :: rest =>
      match recordFault? seen r with
      | some fault => some fault
      | none => firstFault? (r.id :: seen) rest

theorem recordFault?_eq_none_iff {seen : List String} {r : Record} :
    recordFault? seen r = none ↔ r.Valid ∧ r.id ∉ seen := by
  unfold recordFault?
  cases h : r.fault? with
  | none =>
    have := Record.fault?_eq_none_iff.1 h
    by_cases hs : r.id ∈ seen <;> simp [hs, this]
  | some p =>
    have : ¬ r.Valid := fun hv => by simp [Record.fault?_eq_none_iff.2 hv] at h
    simp [this]

theorem firstFault?_eq_none_iff {seen : List String} {rs : List Record} :
    firstFault? seen rs = none ↔
      (∀ r ∈ rs, r.Valid) ∧ (rs.map Record.id).Nodup ∧ ∀ r ∈ rs, r.id ∉ seen := by
  induction rs generalizing seen with
  | nil => simp [firstFault?]
  | cons r rest ih =>
    cases h : recordFault? seen r with
    | some fault =>
      have hn : ¬ (r.Valid ∧ r.id ∉ seen) := fun hv => by
        simp [recordFault?_eq_none_iff.2 hv] at h
      simp only [firstFault?, h, List.map_cons, List.nodup_cons, List.mem_cons, forall_eq_or_imp]
      constructor
      · simp
      · rintro ⟨⟨hv, _⟩, _, hs, _⟩
        exact absurd ⟨hv, hs⟩ hn
    | none =>
      obtain ⟨hv, hs⟩ := recordFault?_eq_none_iff.1 h
      simp only [firstFault?, h, ih, List.map_cons, List.nodup_cons, List.mem_cons,
        forall_eq_or_imp, List.mem_map, not_exists, not_and]
      constructor
      · rintro ⟨h₁, h₂, h₃⟩
        exact ⟨⟨hv, h₁⟩, ⟨fun a ha hid => h₃ a ha (Or.inl hid), h₂⟩, hs,
          fun a ha hm => h₃ a ha (Or.inr hm)⟩
      · rintro ⟨⟨_, h₁⟩, ⟨h₂, h₃⟩, _, h₄⟩
        refine ⟨h₁, h₃, fun a ha => ?_⟩
        rintro (hid | hm)
        · exact h₂ a ha hid
        · exact h₄ a ha hm

/-- The registry of the given records. -/
def ofRecords (records : List Record) : Except Fault Registry :=
  match h : firstFault? [] records with
  | some fault => .error fault
  | none =>
      .ok ⟨records, (firstFault?_eq_none_iff.1 h).1, (firstFault?_eq_none_iff.1 h).2.1⟩

/-! ## Views -/

/-- The number of sites. -/
def size (reg : Registry) : Nat := reg.records.length

/-- There is no site. -/
def isEmpty (reg : Registry) : Bool := reg.records.isEmpty

/-- The sites, in the order of their records. -/
def ids (reg : Registry) : List String := reg.records.map Record.id

/-- The record of a site. -/
def get? (reg : Registry) (id : String) : Option Record :=
  reg.records.find? (·.id == id)

/-! ## Lookups -/

/-- The record of a site that must be known. -/
def lookup (reg : Registry) (site : Option String) : Except Error Record :=
  match site.bind reg.get? with
  | some r => .ok r
  | none => .error (.unknownSite site)

/-- The description of a site that must be an operation. -/
def lookupOperation (reg : Registry) (site : Option String) : Except Error OperationInfo := do
  match (← reg.lookup site).kind with
  | .operation info => return info
  | .call _ => throw (.unknownSite site)

/-- The record of a site that must be a call. -/
def lookupCall (reg : Registry) (site : Option String) : Except Error Record := do
  let r ← reg.lookup site
  match r.kind with
  | .operation _ => throw (.unknownSite site)
  | .call _ => return r

end Registry

end VariablePrecision
