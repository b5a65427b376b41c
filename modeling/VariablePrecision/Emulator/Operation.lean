/-
  VariablePrecision.Emulator.Operation

  Rounding around an operation.  Without a registry every operation has the default
  target of its format.  With one, operations are rounded only if the options cover
  them, and then each must be at an operation site of its own format.
-/

import VariablePrecision.Binary.Clamp
import VariablePrecision.Emulator.Basic

namespace VariablePrecision.Emulator

variable {f : Format}

/-- The target of an operation in the format `f`, `none` if it is left alone. -/
def operationTarget (e : Emulator) (f : Format) (site : Option String) :
    Except Error (Option Target) := do
  match e.registry with
  | none => return some (e.config.targets.get f)
  | some reg =>
      if e.config.coverage.coversOperations then
        let info ← reg.lookupOperation site
        Error.checkFormat site info.dataType.format f
        return some info.target
      else return none

/-- A value on one side of an operation, rounded if the mode asks for it. -/
def roundSide (e : Emulator) (side : Side) (target : Target) (x : Binary f) : Binary f :=
  if e.config.mode.rounds side then x.clamp side target e.config.context else x

/-- An operation as if it was done in the target format. -/
def emulate (e : Emulator) (target : Target) (op : Operation) (x y : Binary f) : Binary f :=
  e.roundSide .result target
    (op.apply (e.roundSide .operand target x) (e.roundSide .operand target y))

/-- The result of an operation at a site. -/
def binaryOp (e : Emulator) (op : Operation) (x y : Binary f) (site : Option String) :
    Except Error (Binary f) := do
  match ← e.operationTarget f site with
  | some target => return e.emulate target op x y
  | none => return op.apply x y

end VariablePrecision.Emulator
