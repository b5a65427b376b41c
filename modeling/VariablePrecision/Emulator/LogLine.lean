/-
  VariablePrecision.Emulator.LogLine

  The log of rounded arguments: one line per number, indented by the depth of the call.
-/

import VariablePrecision.Argument
import VariablePrecision.Decimal.Notation

namespace VariablePrecision

/-- Logs write the fewest digits that read back, a half going away from zero, always with an
    exponent, which has no sign unless it is negative. -/
def logNotation : Decimal.Notation where
  tie := .up
  positionalFrom := 0
  positionalBelow := 0
  exponentPlus := false
  nanText := "NaN"
  infinityText := "inf"

/-- The rounding of one number at an end of a call. -/
structure LogLine where
  depth : Nat
  crossing : Crossing
  site : Option String
  /-- The position of the argument. -/
  index : Nat
  /-- The position of the number, if the argument is an array. -/
  element : Option Nat
  format : Format
  before : Binary format
  after : Binary format
  deriving DecidableEq, Repr

namespace LogLine

/-- The position of the number among the arguments. -/
def position (l : LogLine) : String :=
  match l.element with
  | some k => toString l.index ++ "[" ++ toString k ++ "]"
  | none => toString l.index

/-- The tabs that a line starts with. -/
def indent (l : LogLine) : String := .ofList (List.replicate l.depth '\t')

/-- The parts of a number in the log. -/
def numberParts {f : Format} (x : Binary f) : List String :=
  (logNotation.parts x).map String.ofList

/-- The parts of the line, which are written one after the other. -/
def parts (l : LogLine) : List String :=
  [l.indent, l.crossing.name, " ", siteText l.site, " arg ", l.position, ": "] ++
    numberParts l.before ++ [" -> "] ++ numberParts l.after ++ ["\n"]

/-- The line as it stands in the log. -/
def render (l : LogLine) : String := String.join l.parts

end LogLine

end VariablePrecision
