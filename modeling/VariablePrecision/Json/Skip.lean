/-
  VariablePrecision.Json.Skip

  Passing over a value that nobody asked for.  The value must be well formed, but its
  depth and the size of its numbers have no limit: the brackets that are still open
  stand on a stack, and each round passes over one scalar or one opening bracket and
  whatever closing brackets follow.
-/

import VariablePrecision.Json.Number
import VariablePrecision.Json.Text

namespace VariablePrecision.Json

/-- A bracket that is open. -/
inductive Bracket where
  | list
  | object
  deriving DecidableEq, Repr

namespace Bracket

/-- The mark that closes the bracket. -/
def closing : Bracket → Char
  | list => ']'
  | object => '}'

/-- The fault of a text that ends inside. -/
def unfinished : Bracket → Fault
  | list => .endOfList
  | object => .endOfObject

/-- The fault of two values without a comma. -/
def missingComma : Bracket → Fault
  | list => .expectedListCommaOrEnd
  | object => .expectedObjectCommaOrEnd

end Bracket

namespace Reader

/-- What stands before a value inside a bracket: nothing, or a key and its colon. -/
def skipKey : Bracket → Reader Unit
  | .list => pure ()
  | .object => do
      match ← token? with
      | none => throw .endOfObject
      | some '"' =>
          advance
          lift fun cs => return ((), ← skipText cs)
          colon
      | some _ => throw .keyMustBeText

/-- Passes over closing brackets until another value follows, and gives the brackets that are
    still open then; a comma is due once a value has been read. -/
def closeBrackets (due : Bool) : List Bracket → Reader (List Bracket)
  | [] => return []
  | b :: outer => do
      match ← token? with
      | none => throw b.unfinished
      | some c =>
          if due && c = ',' then
            advance
            skipKey b
            return b :: outer
          else if c = b.closing then
            advance
            closeBrackets true outer
          else if due then throw b.missingComma
          else
            skipKey b
            return b :: outer

/-- Passes over a scalar that starts with the given character. -/
def skipScalar (c : Char) : Reader Unit := do
  if c = 'n' then
    advance
    literal ['u', 'l', 'l']
  else if c = 't' then
    advance
    literal ['r', 'u', 'e']
  else if c = 'f' then
    advance
    literal ['a', 'l', 's', 'e']
  else if c = '-' then
    advance
    lift fun cs => return ((), ← skipNumber cs)
  else if c.isDigit then
    lift fun cs => return ((), ← skipNumber cs)
  else if c = '"' then
    advance
    lift fun cs => return ((), ← skipText cs)
  else throw .expectedValue

/-- Passes over a value inside the given open brackets, and over the rest of them.  Each round
    consumes a character, so there is at most one for each of those left. -/
def skipUpTo : List Char → List Bracket → Reader Unit
  | [], _ => throw .endOfValue
  | _ :: rounds, opened => do
      let opened ←
        match ← token? with
        | none => throw .endOfValue
        | some '[' => do
            advance
            closeBrackets false (.list :: opened)
        | some '{' => do
            advance
            closeBrackets false (.object :: opened)
        | some c => do
            skipScalar c
            closeBrackets true opened
      if opened.isEmpty then return () else skipUpTo rounds opened

/-- Passes over a value. -/
def skipValue : Reader Unit := do
  skipUpTo (← get) []

end Reader

end VariablePrecision.Json
