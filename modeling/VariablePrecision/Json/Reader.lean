/-
  VariablePrecision.Json.Reader

  The reader: a computation on the characters that are left, which stops at the first
  fault.  Here are its smallest steps: blanks, single marks, literals, and the two
  questions "is there another element?" and "is there another member?", asked between
  the brackets of a list or an object.
-/

import VariablePrecision.Json.Bytes
import VariablePrecision.Json.Fault

namespace VariablePrecision.Json

/-- A computation on the characters that are left. -/
abbrev Reader := StateT (List Char) (Except Fault)

/-- The blanks that may stand between tokens. -/
def isBlank (c : Char) : Bool := c = ' ' || c = '\t' || c = '\n' || c = '\r'

namespace Reader

/-- The next character, which stays unread. -/
def peek? : Reader (Option Char) := do return (← get).head?

/-- Leaves the next character behind. -/
def advance : Reader Unit := modify List.tail

/-- Leaves blanks behind. -/
def skipBlanks : Reader Unit := modify (·.dropWhile isBlank)

/-- The first character of the next token, which stays unread. -/
def token? : Reader (Option Char) := do
  skipBlanks
  peek?

/-- Runs a function on the characters that are left. -/
def lift {α : Type} (step : List Char → Except Fault (α × List Char)) : Reader α := step

/-- Reads the rest of a literal whose first character is known. -/
def literal : List Char → Reader Unit
  | [] => pure ()
  | c :: rest => do
      match ← peek? with
      | none => throw .endOfValue
      | some d =>
          if c = d then
            advance
            literal rest
          else throw .expectedLiteral

/-! ## Lists -/

/-- Whether a list goes on, standing before an element or before the closing bracket. -/
def nextElement (first : Bool) : Reader Bool := do
  match ← token? with
  | none => throw .endOfList
  | some ']' => return false
  | some c =>
      if first then return true
      else if c = ',' then
        advance
        match ← token? with
        | none => throw .endOfValue
        | some ']' => throw .trailingComma
        | some _ => return true
      else throw .expectedListCommaOrEnd

/-- The closing bracket of a list that is not read further. -/
def endList : Reader Unit := do
  match ← token? with
  | none => throw .endOfList
  | some ']' => advance
  | some ',' =>
      advance
      match ← token? with
      | some ']' => throw .trailingComma
      | _ => throw .trailingCharacters
  | some _ => throw .trailingCharacters

/-- Collects elements until the list ends; each consumes characters, so there is at most one round
    for each of those left. -/
def elementsUpTo {α : Type} (element : Reader α) : List Char → Bool → Reader (List α)
  | [], _ => throw .endOfList
  | _ :: rounds, first => do
      if ← nextElement first then
        let a ← element
        return a :: (← elementsUpTo element rounds false)
      else return []

/-- The elements of a list, from behind its opening bracket. -/
def elements {α : Type} (element : Reader α) : Reader (List α) := do
  elementsUpTo element (← get) true

/-! ## Objects -/

/-- Whether an object goes on, standing before the quote of a key or before the closing
    bracket. -/
def nextMember (first : Bool) : Reader Bool := do
  match ← token? with
  | none => throw .endOfObject
  | some '}' => return false
  | some c =>
      if first then
        if c = '"' then return true else throw .keyMustBeText
      else if c = ',' then
        advance
        match ← token? with
        | none => throw .endOfValue
        | some '"' => return true
        | some '}' => throw .trailingComma
        | some _ => throw .keyMustBeText
      else throw .expectedObjectCommaOrEnd

/-- The colon between a key and its value. -/
def colon : Reader Unit := do
  match ← token? with
  | none => throw .endOfObject
  | some ':' => advance
  | some _ => throw .expectedColon

/-- The closing bracket of an object that is not read further. -/
def endObject : Reader Unit := do
  match ← token? with
  | none => throw .endOfObject
  | some '}' => advance
  | some ',' => throw .trailingComma
  | some _ => throw .trailingCharacters

/-! ## Whole texts -/

/-- Nothing but blanks may follow. -/
def endOfInput : Reader Unit := do
  match ← token? with
  | none => pure ()
  | some _ => throw .trailingCharacters

/-- Reads all bytes of a file. -/
def run {α : Type} (reader : Reader α) (bytes : ByteArray) : Except Fault α := do
  let whole : Reader α := do
    let a ← reader
    endOfInput
    return a
  return (← StateT.run whole (seenBytes bytes)).1

end Reader

end VariablePrecision.Json
