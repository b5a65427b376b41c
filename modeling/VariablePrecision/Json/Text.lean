/-
  VariablePrecision.Json.Text

  Quoted texts, read and written.  Reading understands every escape, joins the two
  halves of a surrogate pair, and refuses bare control characters.  A text that is kept
  must be UTF-8, and one that is passed over need not be.  Writing escapes the quote, the
  backslash and the controls, and nothing else.
-/

import VariablePrecision.Json.Reader

namespace VariablePrecision.Json

/-! ## Reading -/

/-- The value of a hexadecimal digit. -/
def hexDigit? (c : Char) : Option Nat :=
  if '0' ≤ c ∧ c ≤ '9' then some (c.toNat - '0'.toNat)
  else if 'a' ≤ c ∧ c ≤ 'f' then some (c.toNat - 'a'.toNat + 10)
  else if 'A' ≤ c ∧ c ≤ 'F' then some (c.toNat - 'A'.toNat + 10)
  else none

/-- The value of the four hexadecimal digits at the front.  They are four bytes of the text, so
    fewer bytes are an unfinished text and other ones a bad escape. -/
def fourHexDigits (cs : List Char) : Except Fault Nat :=
  if (String.ofList (cs.take 4)).utf8ByteSize < 4 then .error .endOfText
  else
    match (cs.take 4).mapM hexDigit? with
    | some ds => .ok (ds.foldl (fun n d => 16 * n + d) 0)
    | none => .error .invalidEscape

/-- The first half of a surrogate pair. -/
def isLeadingSurrogate (n : Nat) : Bool := 0xD800 ≤ n && n ≤ 0xDBFF

/-- The second half of a surrogate pair. -/
def isTrailingSurrogate (n : Nat) : Bool := 0xDC00 ≤ n && n ≤ 0xDFFF

/-- The character of an escape by code units, from behind its `u`, and the number of characters
    that it takes. -/
def codeUnitEscape (cs : List Char) : Except Fault (Char × Nat) := do
  let n ← fourHexDigits cs
  if isTrailingSurrogate n then throw .loneSurrogate
  else if isLeadingSurrogate n then
    match cs.drop 4 with
    | [] | ['\\'] => throw .endOfText
    | '\\' :: 'u' :: rest =>
        let m ← fourHexDigits rest
        if isTrailingSurrogate m then
          return (.ofNat (0x10000 + (n - 0xD800) * 0x400 + (m - 0xDC00)), 10)
        else throw .loneSurrogate
    | _ => throw .unpairedSurrogate
  else return (.ofNat n, 4)

/-- The character of an escape, from behind its backslash, and the number of characters that it
    takes. -/
def escapedChar : List Char → Except Fault (Char × Nat)
  | [] => .error .endOfText
  | '"' :: _ => .ok ('"', 1)
  | '\\' :: _ => .ok ('\\', 1)
  | '/' :: _ => .ok ('/', 1)
  | 'b' :: _ => .ok ('\x08', 1)
  | 'f' :: _ => .ok ('\x0c', 1)
  | 'n' :: _ => .ok ('\n', 1)
  | 'r' :: _ => .ok ('\r', 1)
  | 't' :: _ => .ok ('\t', 1)
  | 'u' :: rest => do
      let (c, n) ← codeUnitEscape rest
      return (c, n + 1)
  | _ :: _ => .error .invalidEscape

/-- Control characters may not stand bare in a text. -/
def isControl (c : Char) : Bool := c.toNat < 0x20

/-- The characters of a text from behind its opening quote, and what follows its closing one. -/
def readText : List Char → Except Fault (List Char × List Char)
  | [] => .error .endOfText
  | c :: rest =>
      if c = '"' then .ok ([], rest)
      else if c = '\\' then do
        let (d, n) ← escapedChar rest
        let (text, rest') ← readText (rest.drop n)
        return (d :: text, rest')
      else if c = strayByte then do
        -- stray bytes are found once the closing quote is reached, behind all other faults
        let _ ← readText rest
        throw .invalidUnicode
      else if isControl c then .error .controlCharacter
      else do
        let (text, rest') ← readText rest
        return (c :: text, rest')
termination_by cs => cs.length
decreasing_by all_goals simp only [List.length_drop, List.length_cons]; omega

/-- The number of characters of an escape whose character does not matter, from behind its
    backslash.  Escapes by code units only need their digits. -/
def escapeLength : List Char → Except Fault Nat
  | 'u' :: digits => do
      let _ ← fourHexDigits digits
      return 5
  | cs => do return (← escapedChar cs).2

/-- What follows a text whose content does not matter, from behind its opening quote. -/
def skipText : List Char → Except Fault (List Char)
  | [] => .error .endOfText
  | c :: rest =>
      if c = '"' then .ok rest
      else if c = '\\' then do
        let n ← escapeLength rest
        skipText (rest.drop n)
      else if c = strayByte then skipText rest
      else if isControl c then .error .controlCharacter
      else skipText rest
termination_by cs => cs.length
decreasing_by all_goals simp only [List.length_drop, List.length_cons]; omega

namespace Reader

/-- A text, its opening quote being next. -/
def text : Reader String := do
  advance
  return .ofList (← lift readText)

end Reader

/-! ## Writing -/

/-- How a character is written inside quotes. -/
def writtenChar (c : Char) : List Char :=
  if c = '"' then ['\\', '"']
  else if c = '\\' then ['\\', '\\']
  else if c = '\x08' then ['\\', 'b']
  else if c = '\x0c' then ['\\', 'f']
  else if c = '\n' then ['\\', 'n']
  else if c = '\r' then ['\\', 'r']
  else if c = '\t' then ['\\', 't']
  else if isControl c then
    ['\\', 'u', '0', '0', Nat.digitChar (c.toNat / 16), Nat.digitChar (c.toNat % 16)]
  else [c]

/-- A text between quotes. -/
def writtenText (s : String) : List Char :=
  '"' :: s.toList.flatMap writtenChar ++ ['"']

end VariablePrecision.Json
