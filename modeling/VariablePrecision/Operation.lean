/-
  VariablePrecision.Operation

  The four operations that are emulated, with their symbols and their native meaning.
-/

import VariablePrecision.Binary.Arithmetic
import VariablePrecision.Error

namespace VariablePrecision

/-- An arithmetic operation on two values. -/
inductive Operation where
  | add
  | sub
  | mul
  | div
  deriving DecidableEq, Repr

namespace Operation

/-- All operations, in their usual order. -/
def all : List Operation := [add, sub, mul, div]

/-- The native operation, rounded once. -/
def apply {f : Format} : Operation → Binary f → Binary f → Binary f
  | add => (· + ·)
  | sub => (· - ·)
  | mul => (· * ·)
  | div => (· / ·)

/-- The symbol of an operation. -/
def symbol : Operation → Char
  | add => '+'
  | sub => '-'
  | mul => '*'
  | div => '/'

/-- The operation with the given symbol. -/
def ofSymbol (c : Char) : Except Error Operation :=
  match all.find? (·.symbol == c) with
  | some op => .ok op
  | none => .error (.unknownOperator c.toString)

end Operation

end VariablePrecision
