/-
  VariablePrecision.Emulator.Call

  Rounding the values at the ends of a call.  On entry arguments are rounded as
  operands, on exit as results.  They are taken from left to right; where the registry
  describes too few of them, or one of another format, the rounding stops, and what was
  rounded before stays rounded.
-/

import VariablePrecision.Emulator.LogLine
import VariablePrecision.Emulator.Operation

namespace VariablePrecision.Emulator

/-- What becomes of the values at an end of a call. -/
structure Outcome where
  arguments : List Argument
  /-- One line per rounded number. -/
  lines : List LogLine := []
  fault : Option Error := none
  deriving DecidableEq, Repr

/-- An end of a call: which one, at what depth, and of which site. -/
structure Place where
  crossing : Crossing
  depth : Nat
  site : Option String
  deriving DecidableEq, Repr

/-- The target of the argument at a position.  Without descriptions it is the default target. -/
def argumentTarget (e : Emulator) (place : Place) (infos : Option (List ArgumentInfo))
    (index : Nat) (f : Format) : Except Error Target := do
  match infos with
  | none => return e.config.targets.get f
  | some infos =>
      match infos[index]? with
      | none => throw (.argumentMismatch (siteText place.site) index)
      | some info =>
          Error.checkFormat place.site info.dataType.format f
          return info.target

/-- A number at a place, with the line that tells of its rounding. -/
def roundNumber {f : Format} (e : Emulator) (place : Place) (target : Target) (index : Nat)
    (element : Option Nat) (x : Binary f) : Binary f × LogLine :=
  let y := x.clamp place.crossing.side target e.config.context
  (y, { depth := place.depth, crossing := place.crossing, site := place.site, index, element,
        format := f, before := x, after := y })

/-- An argument at a place, with the lines that tell of its rounding. -/
def roundArgument (e : Emulator) (place : Place) (target : Target) (index : Nat) :
    Argument → Argument × List LogLine
  | .scalar f x =>
      let (y, line) := e.roundNumber place target index none x
      (.scalar f y, [line])
  | .array f xs =>
      let rounded := xs.mapIdx fun k x => e.roundNumber place target index (some k) x
      (.array f (rounded.map Prod.fst), rounded.map Prod.snd)

/-- The arguments from a position on. -/
def roundFrom (e : Emulator) (place : Place) (infos : Option (List ArgumentInfo)) (index : Nat) :
    List Argument → Outcome
  | [] => { arguments := [] }
  | a :: rest =>
      match e.argumentTarget place infos index a.format with
      | .error err => { arguments := a :: rest, fault := some err }
      | .ok target =>
          let (b, lines) := e.roundArgument place target index a
          let outcome := e.roundFrom place infos (index + 1) rest
          { outcome with arguments := b :: outcome.arguments, lines := lines ++ outcome.lines }

/-- The descriptions of the values at a place, `none` without a registry. -/
def descriptors (e : Emulator) (place : Place) : Except Error (Option (List ArgumentInfo)) := do
  match e.registry with
  | none => return none
  | some reg => return some (place.crossing.descriptors (← reg.lookupCall place.site))

/-- The values at an end of a call, rounded if mode and coverage ask for it. -/
def roundArguments (e : Emulator) (place : Place) (arguments : List Argument) : Outcome :=
  if e.config.mode.rounds place.crossing.side && e.config.coverage.coversArguments then
    match e.descriptors place with
    | .error err => { arguments, fault := some err }
    | .ok infos => e.roundFrom place infos 0 arguments
  else { arguments }

/-- Writes lines into the log, if there is one. -/
def record (e : Emulator) (lines : List LogLine) : StateM Files Emulator := do
  match e.log with
  | some w => return { e with log := some (← w.writeAll (lines.flatMap LogLine.parts)) }
  | none => return e

/-- Passes an end of a call.  The log tells of all rounded numbers, also when the rounding stops
    early. -/
def cross (e : Emulator) (crossing : Crossing) (stack : CallStack) (site : Option String)
    (arguments : List Argument) : StateM Files (Outcome × Emulator) := do
  let depth := if e.knowsStack then stack.depth else 0
  let outcome := e.roundArguments { crossing, depth, site } arguments
  return (outcome, ← e.record outcome.lines)

end VariablePrecision.Emulator
