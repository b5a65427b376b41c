/-
  VariablePrecision.Proofs.Emulator.Log

  What an emulator tells of the values at one end of a call.

  Rounding changes numbers but never the shape of the values, and without a registry it
  never stops early: each number has its line.  All lines are of one place, and the depth
  there is the number of tabs that each of them starts with.  The hook of the call writes
  these lines and succeeds unless the rounding stops (`gives_callHook_iff`).
-/

import VariablePrecision.Backend.Instances
import VariablePrecision.Proofs.Files.Action
import VariablePrecision.Proofs.Files.Writer

namespace VariablePrecision

open FileAction (gives_pure_iff not_gives_throw gives_bind_iff gives_lift_iff)

/-! ## Lines -/

namespace LogLine

/-- The number of tabs that a line starts with. -/
def tabs (l : LogLine) : Nat := (l.render.toList.takeWhile (· = '\t')).length

theorem tabs_eq_depth (l : LogLine) : l.tabs = l.depth := by
  -- the name of the end of the call follows the tabs, and it starts with a letter
  have hname : ∃ rest, l.crossing.name.toList = 'e' :: rest := by
    cases l.crossing with
    | enter => exact ⟨['n', 't', 'e', 'r'], rfl⟩
    | exit => exact ⟨['x', 'i', 't'], rfl⟩
  obtain ⟨rest, hrest⟩ := hname
  have hrender : ∃ later, l.render = l.indent ++ (l.crossing.name ++ later) := by
    rw [render, parts, List.append_assoc, List.append_assoc, List.append_assoc, List.cons_append,
      List.cons_append, String.join_cons, String.join_cons]
    exact ⟨_, rfl⟩
  obtain ⟨later, hlater⟩ := hrender
  rw [tabs, hlater, String.toList_append, String.toList_append, hrest, indent,
    String.toList_ofList, List.takeWhile_append_of_pos (by simp), List.cons_append,
    List.takeWhile_cons_of_neg (by simp), List.append_nil, List.length_replicate]

/-- Writing the parts of lines one after the other is writing the lines. -/
theorem join_parts (lines : List LogLine) :
    String.join (lines.flatMap parts) = String.join (lines.map render) := by
  induction lines with
  | nil => rfl
  | cons l rest ih =>
    rw [List.flatMap_cons, String.join_append, ih, List.map_cons, String.join_cons]
    rfl

end LogLine

/-! ## Shapes -/

/-- The type of a value and the number of its numbers. -/
def Argument.shape : Argument → DataType × Nat
  | .scalar f _ => (.scalar f, 1)
  | .array f xs => (.array f, xs.length)

/-- The number of numbers in some values. -/
def Argument.count : List Argument → Nat
  | [] => 0
  | a :: rest => a.shape.2 + count rest

theorem Argument.count_congr {arguments seen : List Argument}
    (h : seen.map shape = arguments.map shape) : count seen = count arguments := by
  induction seen generalizing arguments with
  | nil =>
    rw [List.map_eq_nil_iff.1 h.symm]
  | cons a rest ih =>
    obtain ⟨b, later, rfl, hb, hlater⟩ := List.map_eq_cons_iff.1 h.symm
    rw [count, count, hb, ih hlater.symm]

namespace Emulator

variable {e : Emulator} {place : Place} {infos : Option (List ArgumentInfo)} {target : Target}
  {index : Nat}

theorem shape_roundArgument (a : Argument) :
    (e.roundArgument place target index a).1.shape = a.shape := by
  cases a with
  | scalar f x => rfl
  | array f xs => simp [roundArgument, Argument.shape]

theorem length_roundArgument (a : Argument) :
    (e.roundArgument place target index a).2.length = a.shape.2 := by
  cases a with
  | scalar f x => rfl
  | array f xs => simp [roundArgument, Argument.shape]

theorem depth_of_mem_roundArgument {a : Argument} {l : LogLine}
    (h : l ∈ (e.roundArgument place target index a).2) : l.depth = place.depth := by
  cases a with
  | scalar f x =>
    obtain rfl := List.mem_singleton.1 h
    rfl
  | array f xs =>
    obtain ⟨rounded, hrounded, rfl⟩ := List.mem_map.1 h
    obtain ⟨k, hk, rfl⟩ := List.mem_mapIdx.1 hrounded
    rfl

/-! ## All values -/

theorem shapes_roundFrom (arguments : List Argument) :
    (e.roundFrom place infos index arguments).arguments.map Argument.shape =
      arguments.map Argument.shape := by
  induction arguments generalizing index with
  | nil => rfl
  | cons a rest ih =>
    unfold roundFrom
    split
    · rfl
    · show (e.roundArgument place _ index a).1.shape :: List.map _ _ = _
      rw [shape_roundArgument, ih]
      rfl

/-- Values keep their shapes at an end of a call. -/
theorem shapes_roundArguments (arguments : List Argument) :
    (e.roundArguments place arguments).arguments.map Argument.shape =
      arguments.map Argument.shape := by
  unfold roundArguments
  split
  · split
    · rfl
    · exact shapes_roundFrom arguments
  · rfl

theorem depth_of_mem_roundFrom {arguments : List Argument} {l : LogLine}
    (h : l ∈ (e.roundFrom place infos index arguments).lines) : l.depth = place.depth := by
  induction arguments generalizing index with
  | nil => cases h
  | cons a rest ih =>
    unfold roundFrom at h
    split at h
    · cases h
    · rcases List.mem_append.1 h with h | h
      · exact depth_of_mem_roundArgument h
      · exact ih h

theorem depth_of_mem_roundArguments {arguments : List Argument} {l : LogLine}
    (h : l ∈ (e.roundArguments place arguments).lines) : l.depth = place.depth := by
  unfold roundArguments at h
  split at h
  · split at h
    · cases h
    · exact depth_of_mem_roundFrom h
  · cases h

/-! ## Without a registry -/

theorem fault_roundFrom (arguments : List Argument) :
    (e.roundFrom place none index arguments).fault = none := by
  induction arguments generalizing index with
  | nil => rfl
  | cons a rest ih => exact ih

theorem length_roundFrom (arguments : List Argument) :
    (e.roundFrom place none index arguments).lines.length = Argument.count arguments := by
  induction arguments generalizing index with
  | nil => rfl
  | cons a rest ih =>
    show ((e.roundArgument place _ index a).2 ++ _).length = _
    rw [List.length_append, length_roundArgument, ih, Argument.count]

theorem fault_roundArguments (hreg : e.registry = none) (arguments : List Argument) :
    (e.roundArguments place arguments).fault = none := by
  unfold roundArguments descriptors
  rw [hreg]
  split
  · exact fault_roundFrom arguments
  · rfl

/-- When values are rounded at all, each of their numbers has a line. -/
theorem length_roundArguments (hreg : e.registry = none)
    (hmode : e.config.mode.rounds place.crossing.side = true)
    (hcoverage : e.config.coverage.coversArguments = true) (arguments : List Argument) :
    (e.roundArguments place arguments).lines.length = Argument.count arguments := by
  unfold roundArguments descriptors
  rw [hreg, if_pos (by rw [hmode, hcoverage]; rfl)]
  exact length_roundFrom arguments

/-! ## The hook -/

variable {e' : Emulator} {crossing : Crossing} {stack : CallStack} {site : Option String}
  {arguments answer : List Argument} {files files' : Files}

/-- The end of a call as the log shows it. -/
def placeAt (e : Emulator) (crossing : Crossing) (stack : CallStack) (site : Option String) :
    Place where
  crossing
  depth := if e.knowsStack then stack.depth else 0
  site

/-- At an end of a call the log is written once all values are rounded. -/
theorem run_cross (e : Emulator) (crossing : Crossing) (stack : CallStack) (site : Option String)
    (arguments : List Argument) (files : Files) :
    (e.cross crossing stack site arguments).run files =
      let outcome := e.roundArguments (e.placeAt crossing stack site) arguments
      ((outcome, ((e.record outcome.lines).run files).1),
        ((e.record outcome.lines).run files).2) := rfl

/-- An end of a call succeeds unless the rounding stops early. -/
theorem gives_callHook_iff :
    (e.callHook crossing stack site arguments).Gives files (answer, e') files' ↔
      let outcome := e.roundArguments (e.placeAt crossing stack site) arguments
      outcome.fault = none ∧ outcome.arguments = answer ∧
        (e.record outcome.lines).run files = (e', files') := by
  dsimp only
  generalize houtcome : e.roundArguments (e.placeAt crossing stack site) arguments = outcome
  have hcross : (e.cross crossing stack site arguments).run files =
      ((outcome, ((e.record outcome.lines).run files).1),
        ((e.record outcome.lines).run files).2) := by
    rw [← houtcome, run_cross]
  rw [callHook, gives_bind_iff]
  -- the log is written in both cases, and the fault is looked at after that
  constructor
  · rintro ⟨⟨given, d⟩, mid, hgiven, h⟩
    obtain ⟨heq, rfl⟩ := Prod.mk.inj (hcross.symm.trans (gives_lift_iff.1 hgiven))
    obtain ⟨rfl, rfl⟩ := Prod.mk.inj heq
    dsimp only at h
    cases hfault : outcome.fault with
    | some err =>
      rw [hfault] at h
      exact absurd h not_gives_throw
    | none =>
      rw [hfault] at h
      obtain ⟨heq, rfl⟩ := gives_pure_iff.1 h
      obtain ⟨rfl, rfl⟩ := Prod.mk.inj heq
      exact ⟨rfl, rfl, rfl⟩
  · rintro ⟨hfault, rfl, hrecord⟩
    refine ⟨_, _, gives_lift_iff.2 hcross, ?_⟩
    dsimp only
    rw [hfault, hrecord]
    exact gives_pure_iff.2 ⟨rfl, rfl⟩

/-- Rounding does not look at the log. -/
theorem roundArguments_withLog (log : Option FileWriter) (place : Place)
    (arguments : List Argument) :
    roundArguments { e with log } place arguments = e.roundArguments place arguments := by
  have hfrom : ∀ infos index, roundFrom { e with log } place infos index arguments =
      e.roundFrom place infos index arguments := by
    -- the position moves on with each argument
    intro infos
    induction arguments with
    | nil => exact fun _ => rfl
    | cons a rest ih =>
      intro index
      rw [roundFrom, roundFrom, ih]
      rfl
  unfold roundArguments
  simp only [hfrom]
  rfl

theorem run_record {w : FileWriter} (hlog : e.log = some w) (lines : List LogLine) :
    (e.record lines).run files =
      ({ e with log := some (w.after (lines.flatMap LogLine.parts)) },
        ((w.writeAll (lines.flatMap LogLine.parts)).run files).2) := by
  rw [← FileWriter.run_writeAll_eq_after w _ files, record, hlog]
  rfl

theorem run_record_none (hlog : e.log = none) (lines : List LogLine) :
    (e.record lines).run files = (e, files) := by
  rw [record, hlog]
  rfl

/-- Nothing but the log of an emulator changes. -/
theorem exists_run_record (e : Emulator) (lines : List LogLine) (files : Files) :
    ∃ log files', (e.record lines).run files = ({ e with log }, files') := by
  cases hlog : e.log with
  | none =>
    refine ⟨none, files, ?_⟩
    rw [run_record_none hlog, ← hlog]
  | some w => exact ⟨_, _, run_record hlog lines⟩

end Emulator

end VariablePrecision
