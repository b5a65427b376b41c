/-
  VariablePrecision.Text.Utf8

  Bytes read as text.  Bytes that are no UTF-8 are replaced: a byte that begins no
  character gives one replacement character, and so does a character that breaks off,
  whatever the number of its bytes.
-/

namespace VariablePrecision.Text

/-- The character that stands for bytes that are no text. -/
def replacement : Char := '\ufffd'

/-- A character of several bytes that is not complete yet. -/
structure Unfinished where
  /-- The number that the bytes make so far. -/
  code : Nat
  /-- The number of bytes that are missing. -/
  missing : Nat
  /-- The least value of the next byte. -/
  low : UInt8 := 0x80
  /-- The greatest value of the next byte. -/
  high : UInt8 := 0xbf
  deriving DecidableEq, Repr

/-- The character of several bytes that a byte begins.  The bounds of the byte after it leave out
    codes that have a shorter form, that are surrogates, or that are too large. -/
def Unfinished.ofLead? (b : UInt8) : Option Unfinished :=
  if 0xc2 ≤ b ∧ b ≤ 0xdf then some { code := b.toNat - 0xc0, missing := 1 }
  else if b = 0xe0 then some { code := 0, missing := 2, low := 0xa0 }
  else if b = 0xed then some { code := 0xd, missing := 2, high := 0x9f }
  else if 0xe1 ≤ b ∧ b ≤ 0xef then some { code := b.toNat - 0xe0, missing := 2 }
  else if b = 0xf0 then some { code := 0, missing := 3, low := 0x90 }
  else if 0xf1 ≤ b ∧ b ≤ 0xf3 then some { code := b.toNat - 0xf0, missing := 3 }
  else if b = 0xf4 then some { code := 4, missing := 3, high := 0x8f }
  else none

/-- What is decoded so far. -/
structure Decoder where
  /-- The complete characters, the last one first. -/
  reversed : List Char := []
  unfinished : Option Unfinished := none
  deriving DecidableEq, Repr

namespace Decoder

/-- The decoder with one more character, and nothing unfinished. -/
def push (d : Decoder) (c : Char) : Decoder := { reversed := c :: d.reversed }

/-- Reads the first byte of a character. -/
def start (d : Decoder) (b : UInt8) : Decoder :=
  if b < 0x80 then d.push (.ofNat b.toNat)
  else
    match Unfinished.ofLead? b with
    | some u => { d with unfinished := some u }
    | none => d.push replacement

/-- Reads a byte. -/
def step (d : Decoder) (b : UInt8) : Decoder :=
  match d.unfinished with
  | none => d.start b
  | some u =>
      if u.low ≤ b ∧ b ≤ u.high then
        let code := 64 * u.code + b.toNat % 64
        if u.missing ≤ 1 then d.push (.ofNat code)
        else { d with unfinished := some { code, missing := u.missing - 1 } }
      else (d.push replacement).start b

/-- The characters once no byte follows. -/
def finish (d : Decoder) : List Char :=
  (if d.unfinished.isSome then replacement :: d.reversed else d.reversed).reverse

end Decoder

/-- The text of bytes. -/
def ofUtf8 (bytes : ByteArray) : String :=
  match String.fromUTF8? bytes with
  | some text => text
  | none => .ofList (bytes.toList.foldl Decoder.step {}).finish

end VariablePrecision.Text
