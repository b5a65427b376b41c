/-
  VariablePrecision.Emulator.Options

  The settings of the emulator: the target formats, which values are rounded and how,
  and the files it reads and writes.  `Options.parse` reads them from tokens, and a
  `Configuration` is a set of options whose targets can be emulated.
-/

import VariablePrecision.CommandLine.Parse
import VariablePrecision.Context
import VariablePrecision.Target

namespace VariablePrecision

/-- Which side of an operation is rounded. -/
inductive Mode where
  /-- Neither side. -/
  | ieee
  /-- Both sides. -/
  | full
  | inputBound
  | outputBound
  deriving DecidableEq, Repr

namespace Mode

/-- The name by which settings and messages call the mode. -/
def name : Mode → String
  | ieee => "ieee"
  | full => "full"
  | inputBound => "ib"
  | outputBound => "ob"

/-- Values on the given side are rounded. -/
def rounds : Mode → Side → Bool
  | ieee, _ => false
  | full, _ => true
  | inputBound, side => side = .operand
  | outputBound, side => side = .result

/-- The names that settings may use. -/
def choices : List (String × Mode) :=
  [("ieee", ieee), ("full", full), ("ib", inputBound), ("input-bound", inputBound),
    ("ob", outputBound), ("output-bound", outputBound)]

end Mode

/-- Which sites of a registry are rounded. -/
inductive Coverage where
  | arguments
  | operations
  | all
  | none
  deriving DecidableEq, Repr

namespace Coverage

/-- The name by which settings and messages call the coverage. -/
def name : Coverage → String
  | arguments => "arguments"
  | operations => "operations"
  | all => "all"
  | none => "none"

/-- Operations are rounded. -/
def coversOperations : Coverage → Bool
  | operations | all => true
  | arguments | none => false

/-- Arguments and results of calls are rounded. -/
def coversArguments : Coverage → Bool
  | arguments | all => true
  | operations | none => false

/-- The names that settings may use. -/
def choices : List (String × Coverage) :=
  [("arguments", arguments), ("operations", operations), ("all", all), ("none", none)]

end Coverage

/-- The names of error modes that settings may use. -/
def ErrorMode.choices : List (String × ErrorMode) :=
  [("rel", relative), ("relative", relative), ("abs", absolute), ("absolute", absolute),
    ("all", combined), ("combined", combined)]

/-- The settings of the emulator. -/
structure Options where
  targets : Targets := {}
  mode : Mode := .outputBound
  coverage : Coverage := .none
  context : Context := {}
  inputFile : Option String := none
  outputFile : Option String := none
  logFile : Option String := none
  deriving DecidableEq, Repr

namespace Options

/-! ## Updates -/

/-- Changes the target of a native format. -/
def updateTarget (f : Format) (update : Target → Target) (o : Options) : Options :=
  match f with
  | .binary32 => { o with targets.binary32 := update o.targets.binary32 }
  | .binary64 => { o with targets.binary64 := update o.targets.binary64 }

/-- Replaces the precision emulated in a native format. -/
def setPrecision (f : Format) (n : Int) : Options → Options :=
  updateTarget f fun t => { t with precision := n.toNat }

/-- Replaces the range emulated in a native format. -/
def setRange (f : Format) (n : Int) : Options → Options :=
  updateTarget f fun t => { t with range := n.toNat }

/-! ## Tokens -/

/-- The exponent of an absolute bound may be this far from zero. -/
def absoluteExponentLimit : Int := 2048

/-- The option for the precision emulated in a native format. -/
def precisionEntry (f : Format) : CommandLine.Entry Options :=
  CommandLine.integerEntry ("precision-" ++ f.name) Target.precisionMin f.mantissaBits
    (setPrecision f)

/-- The option for the range emulated in a native format. -/
def rangeEntry (f : Format) : CommandLine.Entry Options :=
  CommandLine.integerEntry ("range-" ++ f.name) Target.rangeMin f.exponentBits (setRange f)

/-- All options of the emulator. -/
def table : List (CommandLine.Entry Options) := [
  precisionEntry .binary32,
  precisionEntry .binary64,
  rangeEntry .binary32,
  rangeEntry .binary64,
  CommandLine.choiceEntry "mode" Mode.choices fun m o => { o with mode := m },
  CommandLine.choiceEntry "error-mode" ErrorMode.choices
    fun m o => { o with context.policy.mode := m },
  CommandLine.integerEntry "max-abs-error-exponent" (-absoluteExponentLimit) absoluteExponentLimit
    (fun n o => { o with context.policy.absoluteExponent := n }) true,
  CommandLine.choiceEntry "instrument" Coverage.choices fun c o => { o with coverage := c },
  CommandLine.flagEntry "daz" fun o => { o with context.daz := true },
  CommandLine.flagEntry "ftz" fun o => { o with context.ftz := true },
  CommandLine.pathEntry "prec-input-file" fun p o => { o with inputFile := some p },
  CommandLine.pathEntry "prec-output-file" fun p o => { o with outputFile := some p },
  CommandLine.pathEntry "prec-log-file" fun p o => { o with logFile := some p }]

/-- The options that the tokens give; the first token is the name of the backend. -/
def parse (tokens : List String) : Except Error Options :=
  match CommandLine.parse table {} tokens with
  | .ok o => .ok o
  | .error fault => .error fault.toError

end Options

/-- Settings whose targets can be emulated. -/
structure Configuration extends Options where
  valid : ∀ f, (targets.get f).Valid f

namespace Configuration

/-- The default settings. -/
def standard : Configuration where
  valid f := by cases f <;> exact Target.native_valid _

/-- The configuration with the given options, provided that their targets are valid. -/
def ofOptions (o : Options) : Except Error Configuration :=
  match h32 : (o.targets.get .binary32).fault? .binary32,
      h64 : (o.targets.get .binary64).fault? .binary64 with
  | some fault, _ => .error (fault.toError .binary32)
  | none, some fault => .error (fault.toError .binary64)
  | none, none =>
      .ok { o with
        valid := fun f => by
          cases f
          · exact Target.fault?_eq_none_iff.1 h32
          · exact Target.fault?_eq_none_iff.1 h64 }

/-- The configuration that the tokens give. -/
def parse (tokens : List String) : Except Error Configuration := do
  ofOptions (← Options.parse tokens)

end Configuration

end VariablePrecision
