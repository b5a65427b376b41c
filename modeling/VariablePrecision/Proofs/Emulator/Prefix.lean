/-
  VariablePrecision.Proofs.Emulator.Prefix

  Which values are rounded at an end of a call, and where the rounding stops.

  The arguments are seen with their positions, and a `Mismatch` says why the descriptions
  of a call site do not fit the argument at a position.  The rounding of a list splits it
  in two (`Splits`): the arguments before the first mismatch are rounded, one line for
  each of their numbers, and those from there on stay as they are.  `roundFrom_splits`
  follows the recursion; what the rounding of a whole call does depends on the mode, the
  coverage and the registry as well (`cross_rounds_up_to_mismatch`).
-/

import VariablePrecision.Proofs.Emulator.LogText
import VariablePrecision.Proofs.Registry.Lookup

namespace VariablePrecision

/-! ## Numbers -/

/-- A number among the values at an end of a call. -/
structure Number where
  /-- The position of the argument. -/
  index : Nat
  /-- The position of the number, if the argument is an array. -/
  element : Option Nat
  format : Format
  value : Binary format

namespace Argument

/-- The numbers of the argument at a position, in their order. -/
def numbers (index : Nat) : Argument → List Number
  | .scalar f x => [⟨index, none, f, x⟩]
  | .array f xs => xs.mapIdx fun k x => ⟨index, some k, f, x⟩

/-- The argument with each of its numbers changed. -/
def map (g : (f : Format) → Binary f → Binary f) : Argument → Argument
  | .scalar f x => .scalar f (g f x)
  | .array f xs => .array f (xs.map (g f))

end Argument

/-- The line that tells how a number was changed at a place. -/
def Number.line (place : Emulator.Place) (g : (f : Format) → Binary f → Binary f) (n : Number) :
    LogLine where
  depth := place.depth
  crossing := place.crossing
  site := place.site
  index := n.index
  element := n.element
  format := n.format
  before := n.value
  after := g n.format n.value

namespace Emulator

/-! ## Descriptions -/

/-- What an emulator knows about the values at an end of a call: without a registry nothing, and
    with one what the record of a call site says. -/
inductive Describes (e : Emulator) (crossing : Crossing) (site : Option String) :
    Option (List ArgumentInfo) → Prop where
  | nothing (hreg : e.registry = none) : Describes e crossing site none
  | record {reg : Registry} {r : Record} {info : CallInfo} (hreg : e.registry = some reg)
      (hr : r ∈ reg.records) (hsite : site = some r.id) (hkind : r.kind = .call info) :
      Describes e crossing site (some (crossing.descriptors r))

/-- Why the descriptions do not fit an argument of a format at a position: there is none for the
    position, or it is one of another format.  Where nothing is described, all arguments fit. -/
inductive Mismatch (site : Option String) (infos : Option (List ArgumentInfo)) (index : Nat)
    (f : Format) : Error → Prop where
  | missing {l : List ArgumentInfo} (hinfos : infos = some l) (hend : l.length ≤ index) :
      Mismatch site infos index f (.argumentMismatch (siteText site) index)
  | format {l : List ArgumentInfo} {info : ArgumentInfo} (hinfos : infos = some l)
      (hinfo : l[index]? = some info) (hne : info.dataType.format ≠ f) :
      Mismatch site infos index f (.formatMismatch (siteText site) info.dataType.format f)

/-- The target of the description at a position, or else the default target of the format. -/
def targetAt (e : Emulator) (infos : Option (List ArgumentInfo)) (index : Nat) (f : Format) :
    Target :=
  ((infos.bind (·[index]?)).map ArgumentInfo.target).getD (e.config.targets.get f)

/-- The rounding of the numbers of the argument at a position. -/
def roundingAt (e : Emulator) (crossing : Crossing) (infos : Option (List ArgumentInfo))
    (index : Nat) (f : Format) (x : Binary f) : Binary f :=
  x.clamp crossing.side (e.targetAt infos index f) e.config.context

/-- Arguments with their positions are split where the first one does not fit, which is the fault;
    there is none if all of them fit. -/
structure Splits (site : Option String) (infos : Option (List ArgumentInfo))
    (arguments before rest : List (Argument × Nat)) (fault : Option Error) : Prop where
  split : arguments = before ++ rest
  fit : ∀ p ∈ before, ∀ err, ¬ Mismatch site infos p.2 p.1.format err
  reason : rest = [] ∧ fault = none ∨
    ∃ a k later err, rest = (a, k) :: later ∧ Mismatch site infos k a.format err ∧
      fault = some err

variable {e : Emulator} {place : Place} {crossing : Crossing} {site : Option String}
  {infos : Option (List ArgumentInfo)} {index : Nat} {f : Format}

/-- Nothing is at fault exactly if all arguments fit. -/
theorem Splits.fault_eq_none_iff {arguments before rest : List (Argument × Nat)}
    {fault : Option Error} (h : Splits site infos arguments before rest fault) :
    fault = none ↔ ∀ p ∈ arguments, ∀ err, ¬ Mismatch site infos p.2 p.1.format err := by
  rcases h.reason with ⟨hrest, hfault⟩ | ⟨a, k, later, err, hrest, hmismatch, hfault⟩
  · refine iff_of_true hfault ?_
    rw [h.split, hrest, List.append_nil]
    exact h.fit
  · refine iff_of_false (by simp [hfault]) fun hfit => ?_
    exact hfit (a, k) (by simp [h.split, hrest]) err hmismatch

/-! ## One argument -/

theorem not_mismatch_none (err : Error) : ¬ Mismatch site none index f err := by
  intro h
  cases h <;> contradiction

/-- A description of the right format fits. -/
theorem not_mismatch_of_getElem? {l : List ArgumentInfo} {info : ArgumentInfo}
    (hinfo : l[index]? = some info) (hformat : info.dataType.format = f) (err : Error) :
    ¬ Mismatch site (some l) index f err := by
  intro h
  cases h with
  | missing hinfos hend =>
    obtain rfl := Option.some.inj hinfos
    rw [List.getElem?_eq_none hend] at hinfo
    contradiction
  | format hinfos hinfo' hne =>
    obtain rfl := Option.some.inj hinfos
    obtain rfl := Option.some.inj (hinfo.symm.trans hinfo')
    exact hne hformat

/-- An argument has its target unless the descriptions do not fit it. -/
theorem argumentTarget_cases (e : Emulator) (place : Place) (infos : Option (List ArgumentInfo))
    (index : Nat) (f : Format) :
    (e.argumentTarget place infos index f = .ok (e.targetAt infos index f) ∧
      ∀ err, ¬ Mismatch place.site infos index f err) ∨
    ∃ err, e.argumentTarget place infos index f = .error err ∧
      Mismatch place.site infos index f err := by
  cases infos with
  | none => exact .inl ⟨rfl, not_mismatch_none⟩
  | some l =>
    cases hinfo : l[index]? with
    | none =>
      refine .inr ⟨.argumentMismatch (siteText place.site) index, ?_,
        .missing rfl (List.getElem?_eq_none_iff.1 hinfo)⟩
      simp only [argumentTarget, hinfo]
      rfl
    | some info =>
      by_cases hformat : info.dataType.format = f
      · refine .inl ⟨?_, not_mismatch_of_getElem? hinfo hformat⟩
        simp only [argumentTarget, targetAt, hinfo, Option.bind_some, Option.map_some,
          Option.getD_some, Error.checkFormat, if_pos hformat]
        rfl
      · refine .inr ⟨_, ?_, .format rfl hinfo hformat⟩
        simp only [argumentTarget, hinfo, Error.checkFormat, if_neg hformat]
        rfl

/-- Each number of an argument is rounded, and has its line. -/
theorem roundArgument_eq (e : Emulator) (place : Place) (infos : Option (List ArgumentInfo))
    (index : Nat) (a : Argument) :
    e.roundArgument place (e.targetAt infos index a.format) index a =
      (a.map (e.roundingAt place.crossing infos index),
        (a.numbers index).map (Number.line place (e.roundingAt place.crossing infos index))) := by
  cases a with
  | scalar f x => rfl
  | array f xs =>
    -- both sides are compared number by number
    refine Prod.ext (congrArg (Argument.array f) (List.ext_getElem ?_ ?_))
      (List.ext_getElem ?_ ?_)
    · simp
    · intro k _ _
      simp only [List.getElem_map, List.getElem_mapIdx]
      rfl
    · simp [roundArgument, Argument.numbers]
    · intro k _ _
      simp only [roundArgument, Argument.numbers, List.getElem_map, List.getElem_mapIdx]
      rfl

/-! ## All arguments -/

/-- The arguments before the first mismatch are rounded, and the others are left alone. -/
theorem roundFrom_splits (e : Emulator) (place : Place) (infos : Option (List ArgumentInfo))
    (arguments : List Argument) (index : Nat) :
    ∃ before rest,
      Splits place.site infos (arguments.zipIdx index) before rest
        (e.roundFrom place infos index arguments).fault ∧
      (e.roundFrom place infos index arguments).arguments =
        (before.map fun (a, i) => a.map (e.roundingAt place.crossing infos i)) ++
          rest.map Prod.fst ∧
      (e.roundFrom place infos index arguments).lines =
        before.flatMap fun (a, i) =>
          (a.numbers i).map (Number.line place (e.roundingAt place.crossing infos i)) := by
  induction arguments generalizing index with
  | nil => exact ⟨[], [], ⟨rfl, by simp, .inl ⟨rfl, rfl⟩⟩, rfl, rfl⟩
  | cons a rest ih =>
    rw [roundFrom, List.zipIdx_cons]
    rcases e.argumentTarget_cases place infos index a.format with
      ⟨htarget, hfit⟩ | ⟨err, htarget, hmismatch⟩
    · obtain ⟨before, later, hsplits, harguments, hlines⟩ := ih (index + 1)
      rw [htarget]
      dsimp only
      rw [roundArgument_eq]
      refine ⟨(a, index) :: before, later, ⟨?_, ?_, hsplits.reason⟩, ?_, ?_⟩
      · rw [hsplits.split, List.cons_append]
      · exact List.forall_mem_cons.2 ⟨hfit, hsplits.fit⟩
      · rw [harguments, List.map_cons, List.cons_append]
      · rw [hlines, List.flatMap_cons]
    · -- nothing is before the mismatch
      rw [htarget]
      refine ⟨[], (a, index) :: rest.zipIdx (index + 1), ⟨rfl, by simp, ?_⟩, ?_, rfl⟩
      · exact .inr ⟨a, index, _, err, rfl, hmismatch, rfl⟩
      · simp

/-- If all arguments fit, all of them are rounded. -/
theorem roundFrom_of_fits (e : Emulator) (place : Place) {infos : Option (List ArgumentInfo)}
    {arguments : List Argument}
    (h : ∀ p ∈ arguments.zipIdx, ∀ err, ¬ Mismatch place.site infos p.2 p.1.format err) :
    (e.roundFrom place infos 0 arguments).fault = none ∧
      (e.roundFrom place infos 0 arguments).arguments =
        arguments.zipIdx.map fun (a, i) => a.map (e.roundingAt place.crossing infos i) := by
  obtain ⟨before, rest, hsplits, harguments, -⟩ := e.roundFrom_splits place infos arguments 0
  have hfault := hsplits.fault_eq_none_iff.2 h
  rcases hsplits.reason with ⟨rfl, -⟩ | ⟨a, k, later, err, -, -, hsome⟩
  · rw [List.map_nil, List.append_nil] at harguments
    rw [hsplits.split, List.append_nil]
    exact ⟨hfault, harguments⟩
  · rw [hfault] at hsome
    contradiction

/-! ## Ends of calls -/

/-- Mode and coverage ask for the rounding of the values at an end of calls. -/
def RoundsAt (e : Emulator) (crossing : Crossing) : Prop :=
  e.config.mode.rounds crossing.side ∧ e.config.coverage.coversArguments

theorem Describes.descriptors_eq (h : e.Describes place.crossing place.site infos) :
    e.descriptors place = .ok infos := by
  unfold descriptors
  cases h with
  | nothing hreg =>
    rw [hreg]
    rfl
  | record hreg hr hsite hkind =>
    have hlookup := Registry.lookupCall_eq_ok_iff.2 ⟨Registry.lookup_of_mem hr, _, hkind⟩
    rw [hreg]
    dsimp only
    rw [hsite, hlookup]
    rfl

theorem roundArguments_of_not_roundsAt (h : ¬ e.RoundsAt place.crossing)
    (arguments : List Argument) : e.roundArguments place arguments = { arguments } := by
  rw [RoundsAt, ← Bool.and_eq_true] at h
  exact if_neg h

theorem roundArguments_of_ok (h : e.RoundsAt place.crossing)
    (hinfos : e.descriptors place = .ok infos) (arguments : List Argument) :
    e.roundArguments place arguments = e.roundFrom place infos 0 arguments := by
  rw [RoundsAt, ← Bool.and_eq_true] at h
  rw [roundArguments, if_pos h, hinfos]

end Emulator

end VariablePrecision
