/-
  VariablePrecision.CommandLine.Parse

  Reading tokens from left to right into settings.  An option with a value takes it
  from its own token, after an equals sign, or from the next token; in the second case
  it stays *pending*, and its value is looked at only when the next option or the end
  is reached.  The first refusal ends the reading.
-/

import VariablePrecision.CommandLine.Basic

namespace VariablePrecision.CommandLine

variable {σ : Type}

/-- An option that takes its value from the next token, with the value once it came. -/
structure Pending (σ : Type) where
  key : String
  allowsNegative : Bool
  set : String → Except Refusal (σ → σ)
  text : Option String := none

/-- How far the tokens are read. -/
structure State (σ : Type) where
  settings : σ
  /-- The options that have been looked at. -/
  seen : List String := []
  pending : Option (Pending σ) := none

namespace State

/-- Notes that an option is given; no option may be given twice. -/
def note (st : State σ) (key : String) : Except Fault (State σ) :=
  if key ∈ st.seen then .error ⟨key, "", .repeated⟩ else .ok { st with seen := key :: st.seen }

/-- Gives an option its value. -/
def assign (st : State σ) (key : String) (set : String → Except Refusal (σ → σ))
    (text : String) : Except Fault (State σ) := do
  let st ← st.note key
  match set text with
  | .ok update => return { st with settings := update st.settings }
  | .error refusal => throw ⟨key, text, refusal⟩

/-- Looks at the pending option, which must have its value by now. -/
def settle (st : State σ) : Except Fault (State σ) :=
  match st.pending with
  | none => .ok st
  | some p =>
      match p.text with
      | none => .error ⟨p.key, "", .disallowedValue⟩
      | some text => { st with pending := none }.assign p.key p.set text

/-- The pending option, if it still has no value. -/
def awaiting? (st : State σ) : Option (Pending σ) := st.pending.filter (·.text.isNone)

/-- Takes an option with the value in its own token, if there is one. -/
def take (st : State σ) (entry : Entry σ) (attached : Option String) :
    Except Fault (State σ) := do
  match entry.action, attached with
  | .help, some text => throw ⟨entry.name, text, .unexpectedValue⟩
  | .flag _, some text => throw ⟨entry.name, text, .unexpectedValue⟩
  | .help, none =>
      let _ ← st.settle
      throw ⟨noKey, "", .helpRequested⟩
  | .flag set, none =>
      let st ← (← st.settle).note entry.name
      return { st with settings := set st.settings }
  | .value _ set, some text => (← st.settle).assign entry.name set text
  | .value allowsNegative set, none =>
      return { ← st.settle with pending := some { key := entry.name, allowsNegative, set } }

/-- Takes an option by its name, the part of the token behind the two dashes. -/
def takeLong (st : State σ) (table : List (Entry σ)) (cs : List Char) :
    Except Fault (State σ) :=
  let name := cs.takeWhile (· ≠ '=')
  match table.find? (·.name == String.ofList name) with
  | some entry =>
      st.take entry
        (match cs.dropWhile (· ≠ '=') with
        | _ :: text => some (.ofList text)
        | [] => none)
  | none => .error (unexpected ('-' :: '-' :: name))

/-- Takes options by their letters, the part of the token behind the dash.  What follows the letter
    of an option with a value is that value. -/
def takeLetters (st : State σ) (table : List (Entry σ)) : List Char → Except Fault (State σ)
  | [] => .ok st
  | c :: rest =>
      match table.find? (·.letter == some c) with
      | none => .error (unexpected ['-', c])
      | some entry =>
          match entry.action with
          | .value _ _ =>
              st.take entry
                (match rest with
                | [] => none
                | '=' :: text => some (.ofList text)
                | text => some (.ofList text))
          | _ => do (← st.take entry none).takeLetters table rest

/-- Takes a token that is not an option: the value of a pending option, or nothing known. -/
def takePlain (st : State σ) (token : String) : Except Fault (State σ) :=
  match st.awaiting? with
  | some p => .ok { st with pending := some { p with text := some token } }
  | none => .error (unexpected token.toList)

/-- Takes a token. -/
def step (st : State σ) (table : List (Entry σ)) (token : String) : Except Fault (State σ) :=
  match token.toList with
  | '-' :: '-' :: cs => st.takeLong table cs
  | '-' :: c :: rest =>
      if st.awaiting?.any (·.allowsNegative) && looksNumeric (c :: rest) then st.takePlain token
      else st.takeLetters table (c :: rest)
  | _ => st.takePlain token

/-- Takes all tokens.  Two dashes end the options, and nothing may follow them. -/
def run (st : State σ) (table : List (Entry σ)) : List String → Except Fault (State σ)
  | [] => st.settle
  | token :: rest =>
      if token = "--" then
        match rest with
        | [] => st.settle
        | extra :: _ => .error (unexpected extra.toList)
      else do (← st.step table token).run table rest

end State

/-- The settings that the tokens give, starting from defaults.  The first token is the name of the
    program and says nothing. -/
def parse (table : List (Entry σ)) (defaults : σ) (tokens : List String) : Except Fault σ := do
  let st ← State.run { settings := defaults } (table ++ [helpEntry]) (tokens.drop 1)
  return st.settings

end VariablePrecision.CommandLine
