/-
  VariablePrecision.Decimal.Notation

  How a value is written in decimal: which exponents are written positionally, how
  the exponent of the others looks, and the texts of the special values.  The digits
  are the fewest that read back.
-/

import VariablePrecision.Decimal.Shortest

namespace VariablePrecision.Decimal

/-- The decisions of a decimal notation. -/
structure Notation where
  /-- Of two equally near shortest decimals, the one that is written. -/
  tie : Tie
  /-- The least exponent of the leading digit that is written positionally. -/
  positionalFrom : Int
  /-- The first exponent of the leading digit that is too large to be written positionally. -/
  positionalBelow : Int
  /-- A positive exponent has a sign. -/
  exponentPlus : Bool
  /-- The text of a not-a-number. -/
  nanText : String
  /-- The text of the positive infinity. -/
  infinityText : String
  deriving DecidableEq, Repr

/-- The decimal digits of a natural number. -/
def digitChars (n : Nat) : List Char := Nat.toDigits 10 n

namespace Notation

/-- The mark before an exponent, with its sign. -/
def exponentMark (n : Notation) (e : Int) : List Char :=
  'e' :: (if e < 0 then ['-'] else if n.exponentPlus then ['+'] else [])

/-- A decimal with its point, at least one digit standing on each side of it. -/
def positional (d : Decimal) : List Char :=
  let digits := digitChars d.digits
  if 0 ≤ d.exponent then digits ++ List.replicate d.exponent.toNat '0' ++ ['.', '0']
  else
    let places := d.exponent.natAbs
    if digits.length ≤ places then
      ['0', '.'] ++ List.replicate (places - digits.length) '0' ++ digits
    else
      digits.take (digits.length - places) ++ ['.'] ++ digits.drop (digits.length - places)

/-- A decimal with one digit before the point and an exponent, part by part. -/
def scientific (n : Notation) (d : Decimal) : List (List Char) :=
  let digits := digitChars d.digits
  let fraction := digits.drop 1
  let e := d.exponent + digits.length - 1
  [digits.take 1] ++ (if fraction.isEmpty then [] else [['.'], fraction]) ++
    [n.exponentMark e, digitChars e.natAbs]

/-- A decimal in the notation that its leading digit calls for.  A positional one is a single
    part, and so is zero. -/
def decimalParts (n : Notation) (d : Decimal) : List (List Char) :=
  let leading := d.exponent + (digitChars d.digits).length - 1
  if n.positionalFrom ≤ leading ∧ leading < n.positionalBelow then [positional d]
  else if d.digits = 0 then [(n.scientific d).flatten]
  else n.scientific d

/-- The parts of a value: a sign, and the text of an infinity or the parts of a decimal. -/
def parts {f : Format} (n : Notation) (x : Binary f) : List (List Char) :=
  if x.isNaN then [n.nanText.toList]
  else
    (if x.negative then [['-']] else []) ++
      (if x.isInfinite then [n.infinityText.toList] else n.decimalParts (shortest x n.tie))

/-- The characters of a value. -/
def chars {f : Format} (n : Notation) (x : Binary f) : List Char := (n.parts x).flatten

/-- The text of a value. -/
def render {f : Format} (n : Notation) (x : Binary f) : String := .ofList (n.chars x)

end Notation

end VariablePrecision.Decimal
