/-
  VariablePrecision.Proofs.Emulator.Refusal

  Which operations are refused, and what the result of the others depends on.

  An operation has to be described only where a registry is there and operations are covered.
  The registry then either assigns a target to the operation, by a record of its own format at
  its own site (`Registry.Assigns`), or says why it has none (`Registry.Refuses`); there is no
  third way (`assigns_or_refuses`).  So a refusal is never hidden behind a default, and of the
  whole registry nothing but the assigned target enters a result.

  The mode does not come into any of this: it is looked at once there is a target.
-/

import VariablePrecision.Proofs.Emulator.Operation

namespace VariablePrecision

namespace Registry

/-- Why a registry has no target for an operation in the format `f` at a site. -/
inductive Refuses (reg : Registry) (f : Format) : Option String → Error → Prop where
  /-- The operation comes without a site. -/
  | missing : Refuses reg f none (.unknownSite none)
  /-- There is no record of the site. -/
  | absent {id : String} (habsent : ∀ r ∈ reg.records, r.id ≠ id) :
      Refuses reg f (some id) (.unknownSite (some id))
  /-- The record of the site is one of a call. -/
  | call {r : Record} {info : CallInfo} (hr : r ∈ reg.records) (hkind : r.kind = .call info) :
      Refuses reg f (some r.id) (.unknownSite (some r.id))
  /-- The record of the site is one of an operation in another format. -/
  | format {r : Record} {info : OperationInfo} (hr : r ∈ reg.records)
      (hkind : r.kind = .operation info) (hformat : info.dataType.format ≠ f) :
      Refuses reg f (some r.id) (.formatMismatch r.id info.dataType.format f)

variable {reg : Registry} {f : Format} {site : Option String} {t t' : Target}

/-- No operation has two targets. -/
theorem Assigns.unique (h : reg.Assigns f site t) (h' : reg.Assigns f site t') : t = t' := by
  obtain ⟨r, hr, rfl, info, hkind, -, rfl⟩ := h
  obtain ⟨r', hr', hid, info', hkind', -, rfl⟩ := h'
  obtain rfl := reg.eq_of_id_eq hr hr' (Option.some.inj hid)
  rw [SiteKind.operation.inj (hkind.symm.trans hkind')]

/-- Every operation has a target or is refused. -/
theorem assigns_or_refuses (reg : Registry) (f : Format) (site : Option String) :
    (∃ t, reg.Assigns f site t) ∨ ∃ err, reg.Refuses f site err := by
  cases site with
  | none => exact .inr ⟨_, .missing⟩
  | some id =>
    by_cases hknown : ∃ r ∈ reg.records, r.id = id
    · obtain ⟨r, hr, rfl⟩ := hknown
      cases hkind : r.kind with
      | call info => exact .inr ⟨_, .call hr hkind⟩
      | operation info =>
        by_cases hformat : info.dataType.format = f
        · exact .inl ⟨_, r, hr, rfl, info, hkind, hformat, rfl⟩
        · exact .inr ⟨_, .format hr hkind hformat⟩
    · exact .inr ⟨_, .absent fun r hr hid => hknown ⟨r, hr, hid⟩⟩

end Registry

namespace Emulator

variable {e : Emulator} {reg : Registry} {f : Format} {site : Option String} {t : Target}
  {op : Operation} {x y z : Binary f}

/-! ## Targets -/

theorem operationTarget_of_refuses {err : Error} (hreg : e.registry = some reg)
    (hcoverage : e.config.coverage.coversOperations = true) (h : reg.Refuses f site err) :
    e.operationTarget f site = .error err := by
  rw [operationTarget_of_covered hreg hcoverage]
  cases h with
  | missing => rfl
  | absent habsent =>
    rw [Registry.lookupOperation, Registry.lookup_of_forall_ne fun r hr hid =>
      habsent r hr (Option.some.inj hid).symm]
    rfl
  | call hr hkind =>
    rw [Registry.lookupOperation_of_call (Registry.lookup_of_mem hr) hkind]
    rfl
  | @format r info hr hkind hformat =>
    rw [Registry.lookupOperation_eq_ok_iff.2 ⟨r, Registry.lookup_of_mem hr, hkind⟩]
    show (Error.checkFormat _ _ _ >>= _) = _
    rw [Error.checkFormat, if_neg hformat]
    rfl

/-! ## Results -/

/-- An operation fails exactly if it is covered and the registry refuses it. -/
theorem binaryOp_eq_error_iff {err : Error} :
    e.binaryOp op x y site = .error err ↔
      ∃ reg, e.registry = some reg ∧ e.config.coverage.coversOperations = true ∧
        reg.Refuses f site err := by
  constructor
  · intro herr
    cases hreg : e.registry with
    | none =>
      rw [binaryOp_of_target (operationTarget_of_none hreg)] at herr
      contradiction
    | some reg =>
      cases hcoverage : e.config.coverage.coversOperations with
      | false =>
        rw [binaryOp_of_no_target (operationTarget_of_not_covered hreg hcoverage)] at herr
        contradiction
      | true =>
        rcases reg.assigns_or_refuses f site with ⟨t, ht⟩ | ⟨err', href⟩
        · rw [binaryOp_of_target (operationTarget_of_assigns hreg hcoverage ht)] at herr
          contradiction
        · rw [binaryOp_of_error (operationTarget_of_refuses hreg hcoverage href)] at herr
          obtain rfl := Except.error.inj herr
          exact ⟨reg, rfl, rfl, href⟩
  · rintro ⟨reg, hreg, hcoverage, href⟩
    exact binaryOp_of_error (operationTarget_of_refuses hreg hcoverage href) op x y

/-- An operation fails exactly if there is a registry, operations are covered, and the registry
    refuses this one; the mode does not matter.  With a registry, the result is the native one if
    operations are not covered, whatever the site.  If they are, it is emulated in the target that
    the registry assigns, and nothing else in the registry matters: with the same settings, any
    registry that assigns the same target gives the same result. -/
theorem binaryOp_refused_or_assigned (e : Emulator) (op : Operation) (x y : Binary f)
    (site : Option String) :
    (∀ err, e.binaryOp op x y site = .error err ↔
      ∃ reg, e.registry = some reg ∧ e.config.coverage.coversOperations = true ∧
        reg.Refuses f site err) ∧
    (∀ reg, e.registry = some reg → e.config.coverage.coversOperations = false →
      e.binaryOp op x y site = .ok (op.apply x y)) ∧
    ∀ reg z, e.registry = some reg → e.config.coverage.coversOperations = true →
      e.binaryOp op x y site = .ok z →
      ∃ t, reg.Assigns f site t ∧ z = e.emulate t op x y ∧
        ∀ (e' : Emulator) (reg' : Registry), e'.config = e.config → e'.registry = some reg' →
          reg'.Assigns f site t → e'.binaryOp op x y site = .ok z := by
  refine ⟨fun err => binaryOp_eq_error_iff, fun reg hreg hcoverage =>
    binaryOp_of_no_target (operationTarget_of_not_covered hreg hcoverage) op x y, ?_⟩
  intro reg z hreg hcoverage hz
  rcases reg.assigns_or_refuses f site with ⟨t, ht⟩ | ⟨err, href⟩
  · rw [binaryOp_of_target (operationTarget_of_assigns hreg hcoverage ht)] at hz
    obtain rfl := Except.ok.inj hz
    refine ⟨t, ht, rfl, fun e' reg' hconfig hreg' ht' => ?_⟩
    have hcoverage' : e'.config.coverage.coversOperations = true := by rw [hconfig, hcoverage]
    rw [binaryOp_of_target (operationTarget_of_assigns hreg' hcoverage' ht'),
      emulate_congr hconfig]
  · rw [binaryOp_of_error (operationTarget_of_refuses hreg hcoverage href)] at hz
    contradiction

/-- The record of an operation whose binary32 numbers have 4 mantissa and 3 exponent bits. -/
def shortOperation (op : Operation) (dataType : DataType) : Record where
  id := "short"
  kind := .operation ⟨.arithmetic op, dataType, 1, ⟨4, 3⟩⟩

/-- The record of a call. -/
def mainCall : Record where
  id := "main"
  kind := .call ⟨"main", none⟩

/-- The registry of both. -/
def shortRegistry (op : Operation) (dataType : DataType)
    (hformat : dataType.format = .binary32) : Registry where
  records := [mainCall, shortOperation op dataType]
  valid := by
    have htarget : Target.Valid .binary32 ⟨4, 3⟩ := ⟨by decide, by decide, by decide, by decide⟩
    intro r hr use huse
    rcases List.mem_pair.1 hr with rfl | rfl
    · contradiction
    · rw [List.mem_singleton.1 huse]
      show Target.Valid dataType.format ⟨4, 3⟩
      rwa [hformat]
  distinct := by
    show ["main", "short"].Nodup
    decide

theorem shortRegistry_assigns (op : Operation) (dataType : DataType)
    (hformat : dataType.format = .binary32) :
    (shortRegistry op dataType hformat).Assigns .binary32 (some "short") ⟨4, 3⟩ :=
  ⟨shortOperation op dataType, List.mem_cons_of_mem _ (List.mem_singleton.2 rfl), rfl, _, rfl,
    hformat, rfl⟩

/-- Sums of single numbers. -/
def sumRegistry : Registry := shortRegistry .add (.scalar .binary32) rfl

/-- Products of arrays, with the same target. -/
def productRegistry : Registry := shortRegistry .mul (.array .binary32) rfl

/-- An emulator of a registry. -/
def ofRegistry (mode : Mode) (coverage : Coverage) (reg : Registry) : Emulator where
  config := { mode, coverage, valid := Configuration.standard.valid }
  registry := some reg
  knowsStack := false
  log := none

/-- In the mode that rounds nothing a call is refused, and so is an operation of another format;
    without coverage 1 + 2 ^ -5 is exact at a site that nobody knows; and with coverage it is 1,
    whichever of the two registries assigns the target. -/
theorem binaryOp_refused_or_assigned_short :
    (ofRegistry .ieee .all sumRegistry).binaryOp .add (.ofBits .binary64 0) (.ofBits .binary64 0)
        (some "main") = .error (.unknownSite (some "main")) ∧
      (ofRegistry .ieee .all sumRegistry).binaryOp .add (.ofBits .binary64 0)
        (.ofBits .binary64 0) (some "short") =
          .error (.formatMismatch "short" .binary32 .binary64) ∧
      (ofRegistry .full .arguments sumRegistry).binaryOp .add (.ofBits .binary32 0x3f800000)
        (.ofBits .binary32 0x3d000000) (some "nowhere") = .ok (.ofBits .binary32 0x3f840000) ∧
      (ofRegistry .full .all sumRegistry).binaryOp .add (.ofBits .binary32 0x3f800000)
        (.ofBits .binary32 0x3d000000) (some "short") = .ok (.ofBits .binary32 0x3f800000) ∧
      (ofRegistry .full .all productRegistry).binaryOp .add (.ofBits .binary32 0x3f800000)
        (.ofBits .binary32 0x3d000000) (some "short") = .ok (.ofBits .binary32 0x3f800000) := by
  have hmain : sumRegistry.Refuses .binary64 (some "main") (.unknownSite (some "main")) :=
    .call (r := mainCall) List.mem_cons_self rfl
  have hshort : sumRegistry.Refuses .binary64 (some "short")
      (.formatMismatch "short" .binary32 .binary64) :=
    .format (r := shortOperation .add (.scalar .binary32))
      (List.mem_cons_of_mem _ (List.mem_singleton.2 rfl)) rfl (by decide)
  have hcall := ((binaryOp_refused_or_assigned (ofRegistry .ieee .all sumRegistry) .add
    (.ofBits .binary64 0) (.ofBits .binary64 0) (some "main")).1 _).2 ⟨_, rfl, rfl, hmain⟩
  have hformat := ((binaryOp_refused_or_assigned (ofRegistry .ieee .all sumRegistry) .add
    (.ofBits .binary64 0) (.ofBits .binary64 0) (some "short")).1 _).2 ⟨_, rfl, rfl, hshort⟩
  have hnative := (binaryOp_refused_or_assigned (ofRegistry .full .arguments sumRegistry) .add
    (.ofBits .binary32 0x3f800000) (.ofBits .binary32 0x3d000000) (some "nowhere")).2.1
    sumRegistry rfl rfl
  have hsum : (ofRegistry .full .all sumRegistry).binaryOp .add (.ofBits .binary32 0x3f800000)
      (.ofBits .binary32 0x3d000000) (some "short") = .ok (.ofBits .binary32 0x3f800000) := by
    decide +kernel
  obtain ⟨t, ht, -, hsame⟩ :=
    (binaryOp_refused_or_assigned (ofRegistry .full .all sumRegistry) .add
      (.ofBits .binary32 0x3f800000) (.ofBits .binary32 0x3d000000) (some "short")).2.2
      sumRegistry _ rfl rfl hsum
  obtain rfl := ht.unique (shortRegistry_assigns .add (.scalar .binary32) rfl)
  refine ⟨hcall, hformat, ?_, hsum, ?_⟩
  · rw [hnative]
    decide +kernel
  · exact hsame (ofRegistry .full .all productRegistry) productRegistry rfl rfl
      (shortRegistry_assigns .mul (.array .binary32) rfl)

end Emulator

end VariablePrecision
