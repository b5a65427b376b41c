/-
  VariablePrecision.Json.Schema

  Readers of known structures: numbers of 32 bits, texts, optional texts, lists,
  choices among variants, and records of named fields.

  A record is read from an object, whose members may come in any order and may include
  unknown ones, or from a list of its fields in order.  It is gathered in a draft in
  which every field is absent at first; once the members are read, the draft is
  finished into the record, or the first required field that is absent is reported.
-/

import VariablePrecision.Json.Skip

namespace VariablePrecision.Json

namespace Reader

/-! ## Scalars -/

/-- Reports the value that is next, which is of another kind than expected. -/
def mismatch {α : Type} (expected : String) : Reader α := do
  let reject {α : Type} (found : Found) : Reader α := throw (.invalidType found expected)
  match ← peek? with
  | none => throw .endOfValue
  | some c =>
      if c = 'n' then
        advance
        literal ['u', 'l', 'l']
        reject .null
      else if c = 't' then
        advance
        literal ['r', 'u', 'e']
        reject (.boolean true)
      else if c = 'f' then
        advance
        literal ['a', 'l', 's', 'e']
        reject (.boolean false)
      else if c = '-' then
        advance
        reject (← lift (readNumber true)).found
      else if c.isDigit then reject (← lift (readNumber false)).found
      else if c = '"' then reject (.text (← text))
      else if c = '[' then reject .sequence
      else if c = '{' then reject .map
      else throw .expectedValue

/-- A number as one of 32 bits without a sign. -/
def toWord : Number → Reader UInt32
  | .integer n =>
      if 0 ≤ n ∧ n < UInt32.size then return .ofNat n.toNat
      else throw (.invalidValue (.integer n) "u32")
  | .real x => throw (.invalidType (.real x) "u32")

/-- A number of 32 bits without a sign. -/
def word : Reader UInt32 := do
  match ← token? with
  | none => throw .endOfValue
  | some c =>
      if c = '-' then
        advance
        toWord (← lift (readNumber true))
      else if c.isDigit then toWord (← lift (readNumber false))
      else mismatch "u32"

/-- A text. -/
def string : Reader String := do
  match ← token? with
  | none => throw .endOfValue
  | some '"' => text
  | some _ => mismatch "a string"

/-- A text, or `null`. -/
def optionalString : Reader (Option String) := do
  match ← token? with
  | some 'n' =>
      advance
      literal ['u', 'l', 'l']
      return none
  | _ => return some (← string)

/-- The value `null`. -/
def null : Reader Unit := do
  match ← token? with
  | none => throw .endOfValue
  | some 'n' =>
      advance
      literal ['u', 'l', 'l']
  | some _ => mismatch "unit"

/-! ## Lists and variants -/

/-- A list of values of one kind. -/
def list {α : Type} (element : Reader α) : Reader (List α) := do
  match ← token? with
  | none => throw .endOfValue
  | some '[' =>
      advance
      let items ← elements element
      endList
      return items
  | some _ => mismatch "a sequence"

/-- The variant of the given name. -/
def variantNamed {β : Type} (known : List (String × β)) (name : String) : Reader β :=
  match known.lookup name with
  | some b => pure b
  | none => throw (.unknownVariant name (known.map Prod.fst))

/-- A variant that is written as a bare name, or as an object with its name as the only key and
    its content as the value. -/
def variant {α β : Type} (known : List (String × β)) (bare content : β → Reader α) : Reader α := do
  match ← token? with
  | none => throw .endOfValue
  | some '"' =>
      let b ← variantNamed known (← text)
      bare b
  | some '{' =>
      advance
      match ← token? with
      | none => throw .endOfObject
      | some '"' =>
          let b ← variantNamed known (← text)
          colon
          let a ← content b
          match ← token? with
          | none => throw .endOfObject
          | some '}' =>
              advance
              return a
          | some _ => throw .expectedValue
      | some '}' => throw .expectedValue
      | some _ => throw .keyMustBeText
  | some _ => throw .expectedValue

/-- A variant without content. -/
def enumeration {β : Type} (known : List (String × β)) : Reader β :=
  variant known pure fun b => do
    null
    return b

end Reader

/-! ## Records -/

/-- A field of a record that is gathered in drafts of type `σ`. -/
structure Field (σ : Type) where
  name : String
  /-- A record cannot be finished without the field. -/
  required : Bool
  /-- The draft has the field already. -/
  isSet : σ → Bool
  /-- Reads the value of the field into the draft. -/
  read : σ → Reader σ

/-- A field from its place in the draft and the reader of its value. -/
def Field.of {σ α : Type} (name : String) (required : Bool) (get : σ → Option α)
    (set : σ → α → σ) (value : Reader α) : Field σ where
  name := name
  required := required
  isSet draft := (get draft).isSome
  read draft := return set draft (← value)

/-- The description of a record of type `α`, gathered in drafts of type `σ`. -/
structure Schema (σ α : Type) where
  name : String
  fields : List (Field σ)
  empty : σ
  finish : σ → Except Fault α

/-- The value of a required field of a finished draft. -/
def require {α : Type} (name : String) : Option α → Except Fault α
  | some a => .ok a
  | none => .error (.missingField name)

namespace Schema

variable {σ α : Type}

/-- What a value of the wrong kind is told to be. -/
def expected (s : Schema σ α) : String := "struct " ++ s.name

/-- What a list of the wrong length is told to be. -/
def expectedLength (s : Schema σ α) : String :=
  s.expected ++ " with " ++ toString s.fields.length ++
    (if s.fields.length = 1 then " element" else " elements")

/-- Reads fields from the elements of a list, the next one being at `index`. -/
def readElements (s : Schema σ α) : List (Field σ) → Nat → Bool → σ → Reader σ
  | [], _, _, draft => return draft
  | f :: rest, index, first, draft => do
      if ← Reader.nextElement first then
        s.readElements rest (index + 1) false (← f.read draft)
      else if f.required then throw (.invalidLength index s.expectedLength)
      else s.readElements rest (index + 1) first draft

/-- Reads one member, its key being next. -/
def readMember (s : Schema σ α) (draft : σ) : Reader σ := do
  let key ← Reader.text
  match s.fields.find? (·.name == key) with
  | some f =>
      if f.isSet draft then throw (.duplicateField f.name)
      else
        Reader.colon
        f.read draft
  | none =>
      Reader.colon
      Reader.skipValue
      return draft

/-- Reads members until the object ends; each consumes characters, so there is at most one round
    for each of those left. -/
def readMembers (s : Schema σ α) : List Char → Bool → σ → Reader σ
  | [], _, _ => throw .endOfObject
  | _ :: rounds, first, draft => do
      if ← Reader.nextMember first then
        let draft ← s.readMember draft
        s.readMembers rounds false draft
      else return draft

/-- Finishes a draft within a reader. -/
def finished (s : Schema σ α) (draft : σ) : Reader α :=
  match s.finish draft with
  | .ok a => pure a
  | .error fault => throw fault

/-- The reader of the record. -/
def reader (s : Schema σ α) : Reader α := do
  match ← Reader.token? with
  | none => throw .endOfValue
  | some '[' =>
      Reader.advance
      let a ← s.finished (← s.readElements s.fields 0 true s.empty)
      Reader.endList
      return a
  | some '{' =>
      Reader.advance
      let a ← s.finished (← s.readMembers (← get) true s.empty)
      Reader.endObject
      return a
  | some _ => Reader.mismatch s.expected

end Schema

end VariablePrecision.Json
