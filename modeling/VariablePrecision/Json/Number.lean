/-
  VariablePrecision.Json.Number

  Numbers of a JSON text.  Integers that fit 64 bits, with or without a sign, stay
  exact; every other number becomes a binary64 value.  Its digits are gathered into a
  64-bit significand, later digits only counting for the exponent, and the significand
  is then scaled by native operations with powers of ten.
-/

import VariablePrecision.Binary.Arithmetic
import VariablePrecision.Json.Reader

namespace VariablePrecision.Json

/-- A number that was read. -/
inductive Number where
  | integer (n : Int)
  | real (x : Binary .binary64)
  deriving DecidableEq, Repr

/-- A number as something that was met. -/
def Number.found : Number → Found
  | integer n => .integer n
  | real x => .real x

/-- The value of a decimal digit. -/
def digitValue (c : Char) : Nat := c.toNat - '0'.toNat

/-- Appends digits to a significand while it fits 64 bits.  The second component counts the digits
    that are left over. -/
def absorbDigits (significand : Nat) : List Char → Nat × Nat
  | [] => (significand, 0)
  | c :: rest =>
      let longer := 10 * significand + digitValue c
      if longer < UInt64.size then absorbDigits longer rest else (significand, rest.length + 1)

/-! ## Scaling -/

/-- The greatest power of ten among the binary64 values. -/
def greatestTenPower : Nat := 308

/-- A power of ten up to the greatest. -/
def tenPower (k : Nat) : Binary .binary64 := .ofNat .binary64 (10 ^ k)

/-- The value over `10 ^ k`, in steps of at most the greatest power. -/
def divideByTenPower (x : Binary .binary64) (k : Nat) : Binary .binary64 :=
  if k ≤ greatestTenPower then x / tenPower k
  else if x.isZero then x
  else divideByTenPower (x / tenPower greatestTenPower) (k - greatestTenPower)
termination_by k
decreasing_by simp only [greatestTenPower] at *; omega

/-- The value `significand * 10 ^ exponent`, which may not be infinite. -/
def scaledReal (significand : Nat) (exponent : Int) : Except Fault (Binary .binary64) :=
  let x := Binary.ofNat .binary64 significand
  if exponent < 0 then .ok (divideByTenPower x exponent.natAbs)
  else if exponent ≤ greatestTenPower then
    let y := x * tenPower exponent.toNat
    if y.isInfinite then .error .numberOutOfRange else .ok y
  else if x.isZero then .ok x
  else .error .numberOutOfRange

/-! ## Reading -/

/-- The digits after an exponent mark, with their sign. -/
def readExponent (cs : List Char) : Except Fault (Int × List Char) :=
  let (negative, cs) :=
    match cs with
    | '+' :: rest => (false, rest)
    | '-' :: rest => (true, rest)
    | _ => (false, cs)
  match cs with
  | [] => .error .endOfValue
  | c :: _ =>
      if c.isDigit then
        let n := (cs.takeWhile Char.isDigit).foldl (fun n d => 10 * n + digitValue d) 0
        .ok (if negative then -(n : Int) else n, cs.dropWhile Char.isDigit)
      else .error .invalidNumber

/-- A real number whose digits are read, standing before an exponent mark or behind its end. -/
def finishReal (significand : Nat) (exponent : Int) (cs : List Char) :
    Except Fault (Binary .binary64 × List Char) := do
  let (shift, rest) ←
    match cs with
    | 'e' :: rest | 'E' :: rest => readExponent rest
    | _ => .ok (0, cs)
  return (← scaledReal significand (exponent + shift), rest)

/-- A real number whose digits before the point are read, from behind the point. -/
def readFraction (significand : Nat) (exponent : Int) (cs : List Char) :
    Except Fault (Binary .binary64 × List Char) :=
  let digits := cs.takeWhile Char.isDigit
  let rest := cs.dropWhile Char.isDigit
  if digits.isEmpty then
    .error (if rest.isEmpty then .endOfValue else .invalidNumber)
  else
    let (significand, left) := absorbDigits significand digits
    finishReal significand (exponent - ((digits.length : Int) - left)) rest

/-- The integer of the given sign, if it fits 64 bits; a negative zero is a real number. -/
def signedNumber (negative : Bool) (n : Nat) : Number :=
  if negative then
    if n = 0 ∨ UInt64.size < 2 * n then .real (-Binary.ofNat .binary64 n) else .integer (-(n : Int))
  else .integer n

/-- A number from behind its sign. -/
def readNumber (negative : Bool) (cs : List Char) : Except Fault (Number × List Char) :=
  match cs with
  | [] => .error .endOfValue
  | c :: next =>
      if !c.isDigit || (c = '0' && (next.head?.any Char.isDigit)) then .error .invalidNumber
      else
        let (significand, left) := absorbDigits 0 (cs.takeWhile Char.isDigit)
        let real (x : Binary .binary64) : Number := .real (if negative then -x else x)
        match cs.dropWhile Char.isDigit with
        | '.' :: rest => (readFraction significand left rest).map fun (x, r) => (real x, r)
        | rest =>
            if left = 0 ∧ ¬ rest.head?.any (fun e => e = 'e' || e = 'E') then
              .ok (signedNumber negative significand, rest)
            else (finishReal significand left rest).map fun (x, r) => (real x, r)

/-! ## Skipping -/

/-- What follows the exponent of a number whose value does not matter. -/
def skipExponent (cs : List Char) : Except Fault (List Char) :=
  let cs :=
    match cs with
    | '+' :: rest | '-' :: rest => rest
    | _ => cs
  if cs.head?.any Char.isDigit then .ok (cs.dropWhile Char.isDigit) else .error .invalidNumber

/-- What follows a number whose value does not matter, from behind the digits before its point. -/
def skipFraction (cs : List Char) : Except Fault (List Char) :=
  match cs with
  | '.' :: rest =>
      if rest.head?.any Char.isDigit then
        match rest.dropWhile Char.isDigit with
        | 'e' :: rest | 'E' :: rest => skipExponent rest
        | rest => .ok rest
      else .error .invalidNumber
  | 'e' :: rest | 'E' :: rest => skipExponent rest
  | _ => .ok cs

/-- What follows a number whose value does not matter, from behind its sign. -/
def skipNumber (cs : List Char) : Except Fault (List Char) :=
  match cs with
  | [] => .error .invalidNumber
  | c :: next =>
      if !c.isDigit || (c = '0' && (next.head?.any Char.isDigit)) then .error .invalidNumber
      else skipFraction (cs.dropWhile Char.isDigit)

end VariablePrecision.Json
