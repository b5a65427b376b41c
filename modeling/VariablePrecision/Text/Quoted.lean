/-
  VariablePrecision.Text.Quoted

  A text as messages quote it: between double quotes, with backslash escapes for the
  quote, the backslash and the usual controls, and the hexadecimal code point of every
  other character that shows nothing of its own.
-/

import VariablePrecision.Text.Unprintable

namespace VariablePrecision.Text

/-- One character of a quoted text. -/
def quotedChar (c : Char) : List Char :=
  if c = '"' then ['\\', '"']
  else if c = '\\' then ['\\', '\\']
  else if c = '\n' then ['\\', 'n']
  else if c = '\r' then ['\\', 'r']
  else if c = '\t' then ['\\', 't']
  else if c = '\x00' then ['\\', '0']
  else if isPrintable c then [c]
  else ['\\', 'u', '\x7b'] ++ Nat.toDigits 16 c.toNat ++ ['\x7d']

/-- A text between quotes. -/
def quoted (s : String) : String :=
  .ofList ('"' :: s.toList.flatMap quotedChar ++ ['"'])

end VariablePrecision.Text
