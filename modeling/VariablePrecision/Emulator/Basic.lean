/-
  VariablePrecision.Emulator.Basic

  The emulator: a configuration, the registry it was given or read, and the log it
  writes.  Here is how it starts and ends; its two activities, rounding operations and
  rounding the values at the ends of calls, have modules of their own.
-/

import VariablePrecision.CallStack
import VariablePrecision.Emulator.Options
import VariablePrecision.Files.Writer
import VariablePrecision.Profile.Reader
import VariablePrecision.Profile.Writer

namespace VariablePrecision

namespace Profile

/-- The registry that the profile in a file describes.  A directory can be opened, but holds no
    profile. -/
def load (path : String) : FileAction Registry := do
  match ← Files.entry path with
  | .directory => throw (.malformedProfile PathFault.isDirectory.reason)
  | .file bytes =>
      match readBytes bytes with
      | .ok reg => return reg
      | .error e => throw e

/-- Writes the profile of a registry into a file. -/
def store (path : String) (reg : Registry) : FileAction Unit := do
  let w ← (← FileWriter.create path).write (write reg)
  let _ ← w.flush

end Profile

/-- A backend that emulates other formats. -/
structure Emulator where
  config : Configuration
  /-- The targets of single sites; without a registry the default targets hold everywhere. -/
  registry : Option Registry
  /-- The call stack of the program is known, so that logs can be indented. -/
  knowsStack : Bool
  log : Option FileWriter

namespace Emulator

/-- The emulator of a configuration.  The input file is read only if no registry is given; the log
    is made last. -/
def ofConfiguration (config : Configuration) (knowsStack : Bool) (registry : Option Registry) :
    FileAction Emulator := do
  let registry ←
    match registry, config.inputFile with
    | some reg, _ => pure (some reg)
    | none, some path => some <$> Profile.load path
    | none, none => pure none
  let log ←
    match config.logFile with
    | some path => some <$> FileWriter.create path
    | none => pure none
  return { config, registry, knowsStack, log }

/-- The emulator whose options are given as tokens. -/
def init (tokens : List String) (knowsStack : Bool) (registry : Option Registry) :
    FileAction Emulator :=
  match Configuration.parse tokens with
  | .ok config => ofConfiguration config knowsStack registry
  | .error e => throw e

/-- Stores the registry, if the options ask for it, and puts the log into its file. -/
def finalize (e : Emulator) : FileAction Emulator := do
  match e.config.outputFile, e.registry with
  | some path, some reg => Profile.store path reg
  | _, _ => pure ()
  match e.log with
  | some w => return { e with log := some (← w.flush) }
  | none => return e

/-- The files once the emulator is gone. -/
def close (e : Emulator) (files : Files) : Files :=
  match e.log with
  | some w => w.flushInto files
  | none => files

/-- The settings in one line. -/
def header (e : Emulator) : String :=
  let policy := e.config.context.policy
  "load backend with precision-binary32 = " ++ toString e.config.targets.binary32.precision ++
    ", range-binary32 = " ++ toString e.config.targets.binary32.range ++
    ", precision-binary64 = " ++ toString e.config.targets.binary64.precision ++
    ", range-binary64 = " ++ toString e.config.targets.binary64.range ++
    ", mode = " ++ e.config.mode.name ++ ", error-mode = " ++ policy.mode.name ++
    ", max-abs-error-exponent = " ++ toString policy.absoluteExponent ++
    ", daz = " ++ toString e.config.context.daz ++ ", ftz = " ++ toString e.config.context.ftz ++
    " and instrument = " ++ e.config.coverage.name

end Emulator

end VariablePrecision
