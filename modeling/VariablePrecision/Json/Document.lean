/-
  VariablePrecision.Json.Document

  JSON values to be written, and their layout: one member or element per line, two
  blanks per level, and empty lists and objects closed at once.
-/

import VariablePrecision.Json.Text

namespace VariablePrecision.Json

/-- A value to be written. -/
inductive Document where
  | null
  | natural (n : Nat)
  | real (x : Binary .binary64)
  | text (s : String)
  | list (items : List Document)
  | object (members : List (String × Document))

namespace Document

/-- The start of a line at the given level. -/
def newline (level : Nat) : List Char := '\n' :: List.replicate (2 * level) ' '

/-- A real number, or `null` when it is none. -/
def realChars (x : Binary .binary64) : List Char :=
  if x.isFinite then reportNotation.chars x else ['n', 'u', 'l', 'l']

mutual

/-- The characters of a value whose first line is already begun. -/
def chars (level : Nat) : Document → List Char
  | .null => ['n', 'u', 'l', 'l']
  | .natural n => Decimal.digitChars n
  | .real x => realChars x
  | .text s => writtenText s
  | .list [] => ['[', ']']
  | .list (item :: rest) =>
      '[' :: newline (level + 1) ++ item.chars (level + 1) ++
        restItems (level + 1) rest ++ newline level ++ [']']
  | .object [] => ['{', '}']
  | .object ((key, value) :: rest) =>
      '{' :: newline (level + 1) ++ writtenText key ++ [':', ' '] ++ value.chars (level + 1) ++
        restMembers (level + 1) rest ++ newline level ++ ['}']

/-- Further elements of a list. -/
def restItems (level : Nat) : List Document → List Char
  | [] => []
  | item :: rest => ',' :: newline level ++ item.chars level ++ restItems level rest

/-- Further members of an object. -/
def restMembers (level : Nat) : List (String × Document) → List Char
  | [] => []
  | (key, value) :: rest =>
      ',' :: newline level ++ writtenText key ++ [':', ' '] ++ value.chars level ++
        restMembers level rest

end

/-- The text of a value. -/
def render (d : Document) : String := .ofList (d.chars 0)

end Document

end VariablePrecision.Json
