/-
  VariablePrecision.Proofs.Registry.Records

  Which records make a registry, what it holds then, and what is reported otherwise.

  The rules are stated of the records alone: a record is `InBounds` if the target of its
  operation and those of all its arguments are valid, and no two records may be of one site.
  Records that obey them make a registry, which `Holds` them and nothing else.  Of all others
  the first record that breaks a rule is reported (`Report`).

  The records are gone through in order, each with the sites before it (`recordFault?`).  So a
  fault comes with a place in the list, before which there is none (`firstFault?_eq_some_iff`),
  and within a record with a place among its targets (`Record.fault?_eq_some_iff`).
-/

import VariablePrecision.Proofs.Registry.Lookup

namespace VariablePrecision

/-! ## Targets -/

namespace Target

variable {f : Format} {t : Target}

theorem check_eq_error_iff {e : Error} :
    t.check f = .error e ↔ ∃ fault, t.fault? f = some fault ∧ fault.toError f = e := by
  unfold check
  cases t.fault? f with
  | none => simp
  | some fault => simp

end Target

/-! ## The targets of a record -/

namespace Record

variable {r : Record} {part : Part} {f : Format} {t : Target}

/-- The target of the operation and those of all arguments are valid in their formats. -/
def InBounds (r : Record) : Prop :=
  (∀ info, r.kind = .operation info → info.target.Valid info.dataType.format) ∧
    ∀ arg ∈ r.inputs ++ r.outputs, arg.target.Valid arg.dataType.format

theorem valid_iff_inBounds : r.Valid ↔ r.InBounds := by
  refine ⟨fun h => ⟨fun _ => h.operation, fun _ => h.argument⟩, fun h use huse => ?_⟩
  rcases List.mem_append.1 huse with hop | harg
  · cases hkind : r.kind with
    | operation info =>
      rw [operation?, hkind] at hop
      rw [List.mem_singleton.1 hop]
      exact h.1 info hkind
    | call info =>
      rw [operation?, hkind] at hop
      contradiction
  · obtain ⟨arg, hmem, rfl⟩ := List.mem_map.1 harg
    exact h.2 arg hmem

/-- The first target that is out of bounds: the one of the operation, or one of an argument if
    that of the operation and those of the arguments before it are valid.  The inputs come before
    the outputs. -/
inductive FirstOutOfBounds (r : Record) : Part → Format → Target → Prop where
  | operation {info : OperationInfo} (hkind : r.kind = .operation info)
      (hbad : ¬ info.target.Valid info.dataType.format) :
      FirstOutOfBounds r .operation info.dataType.format info.target
  | argument {arg : ArgumentInfo} {before after : List ArgumentInfo}
      (hop : ∀ info, r.kind = .operation info → info.target.Valid info.dataType.format)
      (hargs : r.inputs ++ r.outputs = before ++ arg :: after)
      (hbefore : ∀ b ∈ before, b.target.Valid b.dataType.format)
      (hbad : ¬ arg.target.Valid arg.dataType.format) :
      FirstOutOfBounds r (.argument arg.name) arg.dataType.format arg.target

theorem uses_of_operation {info : OperationInfo} (hkind : r.kind = .operation info) :
    r.uses = ⟨.operation, info.dataType.format, info.target⟩ ::
      (r.inputs ++ r.outputs).map Use.ofArgument := by
  rw [uses, operation?, hkind]
  rfl

theorem uses_of_call {info : CallInfo} (hkind : r.kind = .call info) :
    r.uses = (r.inputs ++ r.outputs).map Use.ofArgument := by
  rw [uses, operation?, hkind]
  rfl

/-- An argument that is out of bounds is the first target to be so. -/
theorem firstOutOfBounds_of_map {before after : List Use}
    (hop : ∀ info, r.kind = .operation info → info.target.Valid info.dataType.format)
    (hargs : (r.inputs ++ r.outputs).map Use.ofArgument = before ++ ⟨part, f, t⟩ :: after)
    (hbefore : ∀ u ∈ before, u.target.Valid u.format) (hbad : ¬ t.Valid f) :
    r.FirstOutOfBounds part f t := by
  obtain ⟨front, rest, happend, rfl, hrest⟩ := List.map_eq_append_iff.1 hargs
  obtain ⟨arg, back, rfl, harg, -⟩ := List.map_eq_cons_iff.1 hrest
  cases harg
  exact .argument hop happend (fun b hb => hbefore _ (List.mem_map_of_mem hb)) hbad

/-- Targets are checked in this order. -/
theorem firstOutOfBounds_iff :
    r.FirstOutOfBounds part f t ↔ ∃ before after, r.uses = before ++ ⟨part, f, t⟩ :: after ∧
      (∀ u ∈ before, u.target.Valid u.format) ∧ ¬ t.Valid f := by
  constructor
  · intro h
    cases h with
    | operation hkind hbad => exact ⟨[], _, uses_of_operation hkind, by simp, hbad⟩
    | @argument arg before after hop hargs hbefore hbad =>
      have hmap : ∀ u ∈ before.map Use.ofArgument, u.target.Valid u.format := fun u hu => by
        obtain ⟨b, hb, rfl⟩ := List.mem_map.1 hu
        exact hbefore b hb
      cases hkind : r.kind with
      | operation info =>
        refine ⟨⟨.operation, info.dataType.format, info.target⟩ :: before.map Use.ofArgument,
          after.map Use.ofArgument, ?_, List.forall_mem_cons.2 ⟨hop info hkind, hmap⟩, hbad⟩
        rw [uses_of_operation hkind, hargs, List.map_append]
        rfl
      | call info =>
        refine ⟨before.map Use.ofArgument, after.map Use.ofArgument, ?_, hmap, hbad⟩
        rw [uses_of_call hkind, hargs, List.map_append]
        rfl
  · rintro ⟨before, after, huses, hbefore, hbad⟩
    cases hkind : r.kind with
    | operation info =>
      rw [uses_of_operation hkind] at huses
      cases before with
      | nil =>
        cases (List.cons.inj huses).1
        exact .operation hkind hbad
      | cons first before =>
        obtain ⟨rfl, hargs⟩ := List.cons.inj huses
        obtain ⟨hfirst, hbefore⟩ := List.forall_mem_cons.1 hbefore
        refine firstOutOfBounds_of_map (fun info' hkind' => ?_) hargs hbefore hbad
        cases hkind.symm.trans hkind'
        exact hfirst
    | call info =>
      rw [uses_of_call hkind] at huses
      refine firstOutOfBounds_of_map (fun info' hkind' => ?_) huses hbefore hbad
      cases hkind.symm.trans hkind'

theorem fault?_eq_some_iff {fault : Target.Fault} :
    r.fault? = some (⟨part, f, t⟩, fault) ↔
      r.FirstOutOfBounds part f t ∧ t.fault? f = some fault := by
  rw [firstOutOfBounds_iff, fault?, List.findSome?_eq_some_iff]
  constructor
  · rintro ⟨before, use, after, huses, hfault, hnone⟩
    obtain ⟨_, hfault, heq⟩ := Option.map_eq_some_iff.1 hfault
    cases heq
    refine ⟨⟨before, after, huses, fun u hu => ?_, ?_⟩, hfault⟩
    · exact Target.fault?_eq_none_iff.1 (Option.map_eq_none_iff.1 (hnone u hu))
    · rw [← Target.fault?_eq_none_iff, hfault]
      exact Option.some_ne_none _
  · rintro ⟨⟨before, after, huses, hbefore, -⟩, hfault⟩
    refine ⟨before, _, after, huses, by rw [hfault]; rfl, fun u hu => ?_⟩
    rw [Target.fault?_eq_none_iff.2 (hbefore u hu)]
    rfl

end Record

/-! ## The records of a list -/

namespace Registry

variable {seen : List String} {records : List Record} {r : Record} {fault : Fault}

theorem recordFault?_eq_some_iff :
    recordFault? seen r = some fault ↔
      (∃ use targetFault, r.fault? = some (use, targetFault) ∧
        fault = .badTarget r.id use targetFault) ∨
      (r.InBounds ∧ r.id ∈ seen ∧ fault = .duplicateSite r.id) := by
  rw [← Record.valid_iff_inBounds, ← Record.fault?_eq_none_iff, recordFault?]
  cases hfault : r.fault? with
  | some p =>
    obtain ⟨use, targetFault⟩ := p
    simp only [Option.some.injEq, Prod.mk.injEq, reduceCtorEq, false_and, or_false]
    constructor
    · rintro rfl
      exact ⟨use, targetFault, ⟨rfl, rfl⟩, rfl⟩
    · rintro ⟨_, _, ⟨rfl, rfl⟩, rfl⟩
      rfl
  | none =>
    by_cases hseen : r.id ∈ seen
    · simp [hseen, eq_comm]
    · simp [hseen]

/-- The records of a list are looked at one after the other. -/
theorem firstFault?_append (before rest : List Record) :
    firstFault? seen (before ++ rest) =
      (firstFault? seen before).or
        (firstFault? ((before.map Record.id).reverse ++ seen) rest) := by
  induction before generalizing seen with
  | nil => rfl
  | cons r before ih =>
    rw [List.cons_append, firstFault?, firstFault?]
    cases recordFault? seen r with
    | some fault => rfl
    | none =>
      rw [ih, List.map_cons, List.reverse_cons, List.append_assoc]
      rfl

/-- The first fault is that of one record, before which there is none. -/
theorem firstFault?_eq_some_iff :
    firstFault? seen records = some fault ↔
      ∃ before r after, records = before ++ r :: after ∧ firstFault? seen before = none ∧
        recordFault? ((before.map Record.id).reverse ++ seen) r = some fault := by
  constructor
  · intro h
    induction records generalizing seen with
    | nil => contradiction
    | cons r rest ih =>
      rw [firstFault?] at h
      cases hfirst : recordFault? seen r with
      | some fault' =>
        rw [hfirst] at h
        exact ⟨[], r, rest, rfl, rfl, hfirst.trans h⟩
      | none =>
        rw [hfirst] at h
        obtain ⟨before, r', after, rfl, hbefore, hfault⟩ := ih h
        refine ⟨r :: before, r', after, rfl, ?_, ?_⟩
        · rw [firstFault?, hfirst]
          exact hbefore
        · rwa [List.map_cons, List.reverse_cons, List.append_assoc]
  · rintro ⟨before, r, after, rfl, hbefore, hfault⟩
    rw [firstFault?_append, hbefore, firstFault?, hfault]
    rfl

theorem ofRecords_eq_error_iff :
    ofRecords records = .error fault ↔ firstFault? [] records = some fault := by
  unfold ofRecords
  split
  · next fault' h => rw [h, Except.error.injEq, Option.some.injEq]
  · next h => simp [h]

theorem firstFault?_nil_eq_none_iff :
    firstFault? [] records = none ↔
      (records.map Record.id).Nodup ∧ ∀ r ∈ records, r.InBounds := by
  simp [firstFault?_eq_none_iff, Record.valid_iff_inBounds, and_comm]

/-- The rules that the records of a registry obey. -/
theorem exists_ofRecords_iff :
    (∃ reg, ofRecords records = .ok reg) ↔
      (records.map Record.id).Nodup ∧ ∀ r ∈ records, r.InBounds := by
  constructor
  · rintro ⟨reg, hreg⟩
    rw [← records_of_ofRecords hreg]
    exact ⟨reg.distinct, fun r hr => Record.valid_iff_inBounds.1 (reg.valid r hr)⟩
  · rintro ⟨hdistinct, hbounds⟩
    exact exists_ofRecords (firstFault?_nil_eq_none_iff.2 ⟨hdistinct, hbounds⟩)

/-! ## What is reported -/

/-- The error that reports a record after those of the sites `seen`: a target out of bounds comes
    before a site that is there already. -/
def RecordReport (seen : List String) (r : Record) (err : Error) : Prop :=
  (∃ (part : Record.Part) (f : Format) (t : Target) (e : Error),
    r.FirstOutOfBounds part f t ∧ t.check f = .error e ∧
      err = .malformedProfile ("site " ++ r.id ++ ", " ++ part.describe ++ ": " ++ e.message)) ∨
  (r.InBounds ∧ r.id ∈ seen ∧ err = .malformedProfile ("duplicate site " ++ r.id))

/-- The error that reports a list of records: that of the first record to break a rule. -/
def Report (records : List Record) (err : Error) : Prop :=
  ∃ before r after, records = before ++ r :: after ∧
    (before.map Record.id).Nodup ∧ (∀ b ∈ before, b.InBounds) ∧
    RecordReport (before.map Record.id) r err

/-- The fault of a record as the error that it becomes. -/
theorem exists_recordFault?_iff {err : Error} :
    (∃ fault, recordFault? seen r = some fault ∧ fault.toError = err) ↔
      RecordReport seen r err := by
  simp only [recordFault?_eq_some_iff]
  constructor
  · rintro ⟨fault, ⟨⟨part, f, t⟩, targetFault, hfault, rfl⟩ | ⟨hbounds, hseen, rfl⟩, rfl⟩
    · obtain ⟨hfirst, ht⟩ := Record.fault?_eq_some_iff.1 hfault
      exact .inl ⟨part, f, t, _, hfirst, Target.check_eq_error_iff.2 ⟨_, ht, rfl⟩, rfl⟩
    · exact .inr ⟨hbounds, hseen, rfl⟩
  · rintro (⟨part, f, t, e, hfirst, hcheck, rfl⟩ | ⟨hbounds, hseen, rfl⟩)
    · obtain ⟨targetFault, ht, rfl⟩ := Target.check_eq_error_iff.1 hcheck
      exact ⟨_, .inl ⟨_, _, Record.fault?_eq_some_iff.2 ⟨hfirst, ht⟩, rfl⟩, rfl⟩
    · exact ⟨_, .inr ⟨hbounds, hseen, rfl⟩, rfl⟩

theorem recordReport_reverse {before : List Record} {err : Error} :
    RecordReport ((before.map Record.id).reverse ++ []) r err ↔
      RecordReport (before.map Record.id) r err := by
  rw [RecordReport, RecordReport, List.append_nil, List.mem_reverse]

theorem exists_ofRecords_eq_error_iff {err : Error} :
    (∃ fault, ofRecords records = .error fault ∧ fault.toError = err) ↔ Report records err := by
  constructor
  · rintro ⟨fault, hfault, herr⟩
    obtain ⟨before, r, after, hsplit, hbefore, hr⟩ :=
      firstFault?_eq_some_iff.1 (ofRecords_eq_error_iff.1 hfault)
    obtain ⟨hdistinct, hbounds⟩ := firstFault?_nil_eq_none_iff.1 hbefore
    exact ⟨before, r, after, hsplit, hdistinct, hbounds,
      recordReport_reverse.1 (exists_recordFault?_iff.1 ⟨fault, hr, herr⟩)⟩
  · rintro ⟨before, r, after, hsplit, hdistinct, hbounds, hreport⟩
    obtain ⟨fault, hr, herr⟩ := exists_recordFault?_iff.2 (recordReport_reverse.2 hreport)
    have hbefore := firstFault?_nil_eq_none_iff.2 ⟨hdistinct, hbounds⟩
    exact ⟨fault, ofRecords_eq_error_iff.2
      (firstFault?_eq_some_iff.2 ⟨before, r, after, hsplit, hbefore, hr⟩), herr⟩

/-! ## What is found -/

/-- The registry holds these records, in their order, and finds each by the name of its site. -/
structure Holds (reg : Registry) (records : List Record) : Prop where
  records_eq : reg.records = records
  size_eq : reg.size = records.length
  /-- Every record is found under its site. -/
  known : ∀ r ∈ records, reg.get? r.id = some r ∧ reg.lookup (some r.id) = .ok r
  /-- An operation is found as such and not as a call. -/
  operation : ∀ r ∈ records, ∀ info, r.kind = .operation info →
    reg.lookupOperation (some r.id) = .ok info ∧
      reg.lookupCall (some r.id) = .error (.unknownSite (some r.id))
  /-- A call is found as such and not as an operation. -/
  call : ∀ r ∈ records, ∀ info, r.kind = .call info →
    reg.lookupCall (some r.id) = .ok r ∧
      reg.lookupOperation (some r.id) = .error (.unknownSite (some r.id))
  /-- No other site is known, nor is a missing one. -/
  unknown : ∀ site, (∀ r ∈ records, site ≠ some r.id) →
    reg.lookup site = .error (.unknownSite site) ∧
      reg.lookupOperation site = .error (.unknownSite site) ∧
      reg.lookupCall site = .error (.unknownSite site)

theorem holds_records (reg : Registry) : reg.Holds reg.records where
  records_eq := rfl
  size_eq := rfl
  known r hr := ⟨get?_of_mem hr, lookup_of_mem hr⟩
  operation r hr info hkind :=
    ⟨lookupOperation_eq_ok_iff.2 ⟨r, lookup_of_mem hr, hkind⟩,
      lookupCall_of_operation (lookup_of_mem hr) hkind⟩
  call r hr info hkind :=
    ⟨lookupCall_eq_ok_iff.2 ⟨lookup_of_mem hr, info, hkind⟩,
      lookupOperation_of_call (lookup_of_mem hr) hkind⟩
  unknown site hsite := by
    have hlookup := lookup_of_forall_ne hsite
    refine ⟨hlookup, ?_, ?_⟩
    · rw [lookupOperation, hlookup]
      rfl
    · rw [lookupCall, hlookup]
      rfl

/-- Construction loses and invents nothing: the records that obey the rules become a registry
    that holds them, and all others are reported. -/
theorem ofRecords_spec (records : List Record) :
    ((∃ reg, ofRecords records = .ok reg) ↔
      (records.map Record.id).Nodup ∧ ∀ r ∈ records, r.InBounds) ∧
    (∀ reg, ofRecords records = .ok reg → reg.Holds records) ∧
    ∀ err, (∃ fault, ofRecords records = .error fault ∧ fault.toError = err) ↔
      Report records err := by
  refine ⟨exists_ofRecords_iff, fun reg hreg => ?_, fun _ => exists_ofRecords_eq_error_iff⟩
  rw [← records_of_ofRecords hreg]
  exact reg.holds_records

/-- An operation of the full format at the site "a". -/
def fullAddition : Record where
  id := "a"
  kind := .operation ⟨.arithmetic .add, .scalar .binary32, 1, .native .binary32⟩

/-- A call with one result. -/
def exponential (site : String) (target : Target) : Record where
  id := site
  kind := .call ⟨"exp", some "libm"⟩
  outputs := [⟨"y", 1, .scalar .binary64, target⟩]

theorem fullAddition_inBounds : fullAddition.InBounds := by
  refine ⟨fun info hkind => ?_, fun arg harg => absurd harg List.not_mem_nil⟩
  cases hkind
  exact Target.native_valid .binary32

theorem exponential_inBounds {site : String} {target : Target} (h : target.Valid .binary64) :
    (exponential site target).InBounds :=
  ⟨fun _ hkind => SiteKind.noConfusion hkind, List.forall_mem_singleton.2 h⟩

theorem exponential_firstOutOfBounds {site : String} {target : Target}
    (h : ¬ target.Valid .binary64) :
    (exponential site target).FirstOutOfBounds (.argument "y") .binary64 target :=
  @Record.FirstOutOfBounds.argument _ ⟨"y", 1, .scalar .binary64, target⟩ [] []
    (fun _ hkind => SiteKind.noConfusion hkind) rfl (fun _ hb => absurd hb List.not_mem_nil) h

/-- A good list, and one whose last record is both out of bounds and of a site seen before. -/
theorem ofRecords_spec_addition :
    (∃ reg, ofRecords [fullAddition, exponential "b" ⟨52, 11⟩] = .ok reg ∧
      reg.Holds [fullAddition, exponential "b" ⟨52, 11⟩]) ∧
    ∃ fault, ofRecords [fullAddition, exponential "a" ⟨52, 12⟩] = .error fault ∧
      fault.toError = .malformedProfile
        "site a, argument y: --range-binary64 invalid value provided (12): must be in 2..=11" := by
  constructor
  · obtain ⟨hiff, hholds, -⟩ := ofRecords_spec [fullAddition, exponential "b" ⟨52, 11⟩]
    have hbounds : (exponential "b" ⟨52, 11⟩).InBounds :=
      exponential_inBounds (Target.native_valid .binary64)
    obtain ⟨reg, hreg⟩ := hiff.2 ⟨by decide, List.forall_mem_cons.2
      ⟨fullAddition_inBounds, List.forall_mem_singleton.2 hbounds⟩⟩
    exact ⟨reg, hreg, hholds reg hreg⟩
  · have hbad : ¬ (⟨52, 12⟩ : Target).Valid .binary64 := fun h => absurd h.range_le (by decide)
    refine ((ofRecords_spec _).2.2 _).2 ⟨[fullAddition], _, [], rfl, by decide,
      List.forall_mem_singleton.2 fullAddition_inBounds, .inl ?_⟩
    exact ⟨_, _, _, _, exponential_firstOutOfBounds hbad, rfl, rfl⟩

end Registry

end VariablePrecision
