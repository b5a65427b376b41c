/-
  VariablePrecision.Proofs.Emulator.Agreement

  An operation that is emulated is a native operation between the two ends of a call.

  Operations and calls look up their targets in different ways, by the record of an
  operation site and by the descriptions of a call site.  Where the registry describes
  both sites alike (`Registry.Alike`), or where there is none, single numbers at an end of
  the call are rounded as the operation rounds its operands and its result
  (`gives_callHook_scalars`).
-/

import VariablePrecision.Proofs.Emulator.Operation
import VariablePrecision.Proofs.Emulator.Prefix

namespace VariablePrecision

/-- The number of values that an operation has on a side: two operands, and one result. -/
def Crossing.arity : Crossing → Nat
  | enter => 2
  | exit => 1

/-- A registry describes an operation site and the numbers at both ends of a call site alike: they
    are of the format `f` and have the target `t`. -/
structure Registry.Alike (reg : Registry) (f : Format) (t : Target)
    (operation call : Option String) : Prop where
  operation : ∃ r ∈ reg.records, operation = some r.id ∧
    ∃ info, r.kind = .operation info ∧ info.dataType.format = f ∧ info.target = t
  call : ∃ r ∈ reg.records, call = some r.id ∧ (∃ info, r.kind = .call info) ∧
    ∀ crossing : Crossing, ∀ i < crossing.arity, ∃ a,
      (crossing.descriptors r)[i]? = some a ∧ a.dataType.format = f ∧ a.target = t

namespace Emulator

/-- The emulator has the same target at an operation site and at both ends of a call site: that of
    the registry, or else the default one. -/
def Alike (e : Emulator) (f : Format) (t : Target) (operation call : Option String) : Prop :=
  match e.registry with
  | some reg => reg.Alike f t operation call
  | none => t = e.config.targets.get f

variable {e : Emulator} {f : Format} {t : Target} {operation call : Option String}

/-! ## Operations -/

theorem Alike.operationTarget_eq (h : e.Alike f t operation call)
    (hcoverage : e.config.coverage = .all) :
    e.operationTarget f operation = .ok (some t) := by
  unfold Alike at h
  cases hreg : e.registry with
  | none =>
    rw [hreg] at h
    rw [operationTarget_of_none hreg, show t = e.config.targets.get f from h]
  | some reg =>
    rw [hreg] at h
    exact operationTarget_of_assigns hreg (by rw [hcoverage]; rfl) h.operation

theorem Alike.binaryOp_eq (h : e.Alike f t operation call)
    (hcoverage : e.config.coverage = .all) (op : Operation) (x y : Binary f) :
    e.binaryOp op x y operation = .ok (e.emulate t op x y) :=
  binaryOp_of_target (h.operationTarget_eq hcoverage) op x y

/-! ## Ends of calls -/

/-- The descriptions of the call site fit numbers of the format, and give them the target. -/
theorem Alike.exists_describes (h : e.Alike f t operation call) (crossing : Crossing) :
    ∃ infos, e.Describes crossing call infos ∧ ∀ i < crossing.arity,
      (∀ err, ¬ Mismatch call infos i f err) ∧ e.targetAt infos i f = t := by
  unfold Alike at h
  cases hreg : e.registry with
  | none =>
    rw [hreg] at h
    exact ⟨none, .nothing hreg, fun i _ => ⟨not_mismatch_none, h.symm⟩⟩
  | some reg =>
    rw [hreg] at h
    obtain ⟨r, hr, rfl, ⟨info, hkind⟩, hnumbers⟩ := h.call
    refine ⟨_, .record hreg hr rfl hkind, fun i hi => ?_⟩
    obtain ⟨a, ha, hformat, rfl⟩ := hnumbers crossing i hi
    refine ⟨not_mismatch_of_getElem? ha hformat, ?_⟩
    rw [targetAt, Option.bind_some, ha, Option.map_some, Option.getD_some]

/-- Single numbers at an end of a call are rounded as those of the operation on that side. -/
theorem Alike.roundArguments_scalars (place : Place) (h : e.Alike f t operation place.site)
    (hcoverage : e.config.coverage = .all) (xs : List (Binary f))
    (hxs : xs.length ≤ place.crossing.arity) :
    (e.roundArguments place (xs.map (.scalar f))).fault = none ∧
      (e.roundArguments place (xs.map (.scalar f))).arguments =
        xs.map fun x => .scalar f (e.roundSide place.crossing.side t x) := by
  by_cases hmode : e.config.mode.rounds place.crossing.side = true
  · obtain ⟨infos, hinfos, hfits⟩ := h.exists_describes place.crossing
    have hfits' : ∀ p ∈ (xs.map (Argument.scalar f)).zipIdx,
        ∀ err, ¬ Mismatch place.site infos p.2 p.1.format err := by
      rintro ⟨a, i⟩ hp
      obtain ⟨hi, ha⟩ := List.mem_zipIdx' hp
      rw [List.length_map] at hi
      rw [List.getElem_map] at ha
      show ∀ err, ¬ Mismatch place.site infos i a.format err
      rw [ha]
      exact (hfits i (Nat.lt_of_lt_of_le hi hxs)).1
    obtain ⟨hfault, harguments⟩ := e.roundFrom_of_fits place hfits'
    have hon : e.RoundsAt place.crossing := ⟨hmode, by rw [hcoverage]; rfl⟩
    rw [roundArguments_of_ok hon hinfos.descriptors_eq]
    refine ⟨hfault, ?_⟩
    rw [harguments]
    refine List.ext_getElem (by simp) fun i _ hi => ?_
    rw [List.length_map] at hi
    have htarget := (hfits i (Nat.lt_of_lt_of_le hi hxs)).2
    simp only [List.getElem_map, List.getElem_zipIdx, Nat.zero_add]
    show Argument.scalar f (e.roundingAt place.crossing infos i f xs[i]) = _
    rw [roundingAt, htarget, roundSide, if_pos hmode]
  · -- neither an argument nor an operand or result is rounded
    have hoff : ¬ e.RoundsAt place.crossing := fun hon => hmode hon.1
    rw [roundArguments_of_not_roundsAt hoff]
    refine ⟨rfl, List.map_congr_left fun x _ => ?_⟩
    rw [roundSide, if_neg hmode]

/-- The hook of a call succeeds with the rounded numbers, and only changes the log. -/
theorem Alike.gives_callHook_scalars (h : e.Alike f t operation call)
    (hcoverage : e.config.coverage = .all) (crossing : Crossing) (xs : List (Binary f))
    (hxs : xs.length ≤ crossing.arity) (stack : CallStack) (files : Files) :
    ∃ log files', (e.callHook crossing stack call (xs.map (.scalar f))).Gives files
      (xs.map fun x => .scalar f (e.roundSide crossing.side t x), { e with log }) files' := by
  obtain ⟨hfault, harguments⟩ :=
    roundArguments_scalars (e.placeAt crossing stack call) h hcoverage xs hxs
  obtain ⟨log, files', hrecord⟩ := e.exists_run_record
    (e.roundArguments (e.placeAt crossing stack call) (xs.map (.scalar f))).lines files
  exact ⟨log, files', gives_callHook_iff.2 ⟨hfault, harguments, hrecord⟩⟩

/-- An operation gives what its native counterpart gives between the two ends of a call whose site
    is described alike: the operands are rounded as the arguments, and the result as the result of
    the call. -/
theorem binaryOp_eq_call (e : Emulator) (hcoverage : e.config.coverage = .all) (f : Format)
    (operation call : Option String)
    (hsites : ∀ reg, e.registry = some reg → ∃ t, reg.Alike f t operation call)
    (op : Operation) (x y : Binary f) (entry exit : CallStack) (files : Files) :
    ∃ x' y' z e₁ e₂ files₁ files₂,
      (e.callHook .enter entry call [.scalar f x, .scalar f y]).Gives files
        ([.scalar f x', .scalar f y'], e₁) files₁ ∧
      (e₁.callHook .exit exit call [.scalar f (op.apply x' y')]).Gives files₁
        ([.scalar f z], e₂) files₂ ∧
      e.binaryOp op x y operation = .ok z := by
  obtain ⟨t, h⟩ : ∃ t, e.Alike f t operation call := by
    unfold Alike
    cases hreg : e.registry with
    | none => exact ⟨_, rfl⟩
    | some reg => exact hsites reg hreg
  obtain ⟨log₁, files₁, hentry⟩ :=
    h.gives_callHook_scalars hcoverage .enter [x, y] (Nat.le_refl 2) entry files
  -- what was logged does not change the targets
  have h₁ : Alike { e with log := log₁ } f t operation call := h
  obtain ⟨log₂, files₂, hexit⟩ :=
    h₁.gives_callHook_scalars hcoverage .exit
      [op.apply (e.roundSide .operand t x) (e.roundSide .operand t y)] (Nat.le_refl 1) exit files₁
  exact ⟨_, _, _, _, _, _, _, hentry, hexit, h.binaryOp_eq hcoverage op x y⟩

/-- A quotient, and a call that computes quotients; both hold them with 4 mantissa and 3 exponent
    bits. -/
def quotientRegistry : Registry where
  records :=
    [{ id := "quotient"
       kind := .operation ⟨.arithmetic .div, .scalar .binary32, 1, ⟨4, 3⟩⟩ },
     { id := "divide"
       kind := .call { callee := "divide" }
       inputs :=
        [⟨"x", 1, .scalar .binary32, ⟨4, 3⟩⟩, ⟨"y", 1, .scalar .binary32, ⟨4, 3⟩⟩,
         ⟨"status", 1, .array .binary64, .native .binary64⟩]
       outputs := [⟨"z", 1, .scalar .binary32, ⟨4, 3⟩⟩] }]
  valid := by
    intro r hr
    rcases List.mem_pair.1 hr with rfl | rfl
    · rw [← Record.fault?_eq_none_iff]
      decide
    · rw [← Record.fault?_eq_none_iff]
      decide
  distinct := by decide

/-- An emulator of that registry that flushes small results, but not small operands. -/
def quotientEmulator : Emulator where
  config :=
    { mode := .full
      coverage := .all
      context := { policy := { mode := .combined, absoluteExponent := -4 }, ftz := true }
      valid := Configuration.standard.valid }
  registry := some quotientRegistry
  knowsStack := false
  log := none

/-- An eighth is below the normal range, and so is a half of it, which is flushed as a result. -/
theorem binaryOp_eq_call_flushed :
    quotientEmulator.config.coverage = .all ∧
    quotientRegistry.Alike .binary32 ⟨4, 3⟩ (some "quotient") (some "divide") ∧
    ∃ x' y' e₁ e₂ files₁ files₂,
      (quotientEmulator.callHook .enter .empty (some "divide")
        [.scalar .binary32 (.ofBits .binary32 0x3e000000),
         .scalar .binary32 (.ofBits .binary32 0x40000000)]).Gives {}
        ([.scalar .binary32 x', .scalar .binary32 y'], e₁) files₁ ∧
      (e₁.callHook .exit .empty (some "divide") [.scalar .binary32 (x' / y')]).Gives files₁
        ([.scalar .binary32 (.ofBits .binary32 0)], e₂) files₂ ∧
      quotientEmulator.binaryOp .div (.ofBits .binary32 0x3e000000) (.ofBits .binary32 0x40000000)
        (some "quotient") = .ok (.ofBits .binary32 0) := by
  have halike : quotientRegistry.Alike .binary32 ⟨4, 3⟩ (some "quotient") (some "divide") := by
    refine ⟨⟨_, List.mem_cons_self, rfl, _, rfl, rfl, rfl⟩,
      ⟨_, List.mem_cons_of_mem _ (List.mem_singleton.2 rfl), rfl, ⟨_, rfl⟩, ?_⟩⟩
    intro crossing i hi
    cases crossing with
    | enter =>
      have hi : i < 2 := hi
      obtain rfl | rfl : i = 0 ∨ i = 1 := by omega
      · exact ⟨_, rfl, rfl, rfl⟩
      · exact ⟨_, rfl, rfl, rfl⟩
    | exit =>
      obtain rfl : i = 0 := Nat.lt_one_iff.1 hi
      exact ⟨_, rfl, rfl, rfl⟩
  have hzero : quotientEmulator.binaryOp .div (.ofBits .binary32 0x3e000000)
      (.ofBits .binary32 0x40000000) (some "quotient") = .ok (.ofBits .binary32 0) := by
    decide
  obtain ⟨x', y', z, e₁, e₂, files₁, files₂, hentry, hexit, hquotient⟩ :=
    binaryOp_eq_call quotientEmulator rfl .binary32 (some "quotient") (some "divide")
      (fun reg hreg => ⟨⟨4, 3⟩, Option.some.inj hreg ▸ halike⟩) .div
      (.ofBits .binary32 0x3e000000) (.ofBits .binary32 0x40000000) .empty .empty {}
  rw [hzero] at hquotient
  rw [← Except.ok.inj hquotient] at hexit
  exact ⟨rfl, halike, x', y', e₁, e₂, files₁, files₂, hentry, hexit, hzero⟩

end Emulator

end VariablePrecision
