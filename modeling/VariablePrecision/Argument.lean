/-
  VariablePrecision.Argument

  The arguments and results of a call of the instrumented program: single numbers, or
  arrays of numbers of one format.
-/

import VariablePrecision.Context
import VariablePrecision.Registry.Record

namespace VariablePrecision

/-- A value that is passed to or from a call. -/
inductive Argument where
  | scalar (f : Format) (x : Binary f)
  | array (f : Format) (xs : List (Binary f))
  deriving DecidableEq, Repr

namespace Argument

/-- The type of the value. -/
def dataType : Argument → DataType
  | scalar f _ => .scalar f
  | array f _ => .array f

/-- The format of the numbers. -/
def format (a : Argument) : Format := a.dataType.format

end Argument

/-- The two ends of a call. -/
inductive Crossing where
  | enter
  | exit
  deriving DecidableEq, Repr

namespace Crossing

/-- The name of the end in logs. -/
def name : Crossing → String
  | enter => "enter"
  | exit => "exit"

/-- Arguments are operands of the call, and what it leaves are its results. -/
def side : Crossing → Side
  | enter => .operand
  | exit => .result

/-- The description of the values at this end of a call site. -/
def descriptors (c : Crossing) (r : Record) : List ArgumentInfo :=
  match c with
  | enter => r.inputs
  | exit => r.outputs

end Crossing

end VariablePrecision
