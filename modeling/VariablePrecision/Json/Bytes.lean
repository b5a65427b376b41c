/-
  VariablePrecision.Json.Bytes

  The characters in which the reader sees the bytes of a file.

  Only texts that are kept have to be UTF-8; bytes between the quotes of a text that is
  passed over may be any.  So a byte that belongs to no character is not refused here: it
  is handed on as a mark, one for each byte.
-/

namespace VariablePrecision.Json

/-- The mark of a byte that belongs to no character.  No text may hold a bare control, whichever it
    is, so one of them is free to be the mark. -/
def strayByte : Char := '\x00'

/-- A character as the reader sees it.  A null character is seen as another control, which makes no
    difference. -/
def seen (c : Char) : Char := if c = strayByte then '\x01' else c

/-- What the reader sees of bytes from a place on. -/
def seenFrom (bytes : ByteArray) (i : Nat) : List Char :=
  if i < bytes.size then
    match bytes.utf8DecodeChar? i with
    | some c => seen c :: seenFrom bytes (i + c.utf8Size)
    | none => strayByte :: seenFrom bytes (i + 1)
  else []
termination_by bytes.size - i
decreasing_by
  · have := c.utf8Size_pos
    omega
  · omega

/-- What the reader sees of bytes. -/
def seenBytes (bytes : ByteArray) : List Char := seenFrom bytes 0

end VariablePrecision.Json
