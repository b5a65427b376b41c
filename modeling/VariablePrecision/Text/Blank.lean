/-
  VariablePrecision.Text.Blank

  The characters that count as white space between words: the `White_Space` property.
-/

namespace VariablePrecision.Text

/-- White space of any script. -/
def isBlank (c : Char) : Bool :=
  let n := c.toNat
  (0x9 ≤ n && n ≤ 0xd) || n = 0x20 || n = 0x85 || n = 0xa0 || n = 0x1680 ||
    (0x2000 ≤ n && n ≤ 0x200a) || n = 0x2028 || n = 0x2029 || n = 0x202f || n = 0x205f ||
    n = 0x3000

/-- The first word of a text, if there is one. -/
def firstWord? (cs : List Char) : Option (List Char) :=
  let word := (cs.dropWhile isBlank).takeWhile (!isBlank ·)
  if word.isEmpty then none else some word

end VariablePrecision.Text
