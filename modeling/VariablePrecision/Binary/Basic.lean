/-
  VariablePrecision.Binary.Basic

  Values of a native format, kept as a sign and a magnitude: the magnitude is the
  encoding without its sign bit, so that the exponent field is its quotient and the
  mantissa field its remainder by `2 ^ mantissaBits`.  Magnitudes grow with the value
  they stand for, which makes "the next value up" the next natural number.

  A finite value is an integer number of *units*, the least positive value of its
  format; `units` is that integer and carries the exact meaning of a value.
-/

import VariablePrecision.Format

namespace VariablePrecision

/-- A value of the format `f`. -/
structure Binary (f : Format) where
  /-- Whether the sign bit is set. -/
  negative : Bool
  /-- The encoding without its sign bit. -/
  magnitude : Nat
  /-- The magnitude fits below the sign bit. -/
  magnitude_lt : magnitude < f.magnitudeBound
  deriving DecidableEq, Repr

/-- The five kinds of value. -/
inductive Category where
  | nan
  | infinite
  | zero
  | subnormal
  | normal
  deriving DecidableEq, Repr

namespace Binary

variable {f : Format}

/-! ## Encoding -/

/-- The value with the given encoding; bits above the sign bit are ignored. -/
def ofBits (f : Format) (bits : Nat) : Binary f where
  negative := bits / f.magnitudeBound % 2 = 1
  magnitude := bits % f.magnitudeBound
  magnitude_lt := Nat.mod_lt _ (Nat.two_pow_pos _)

/-- The encoding of a value. -/
def toBits (x : Binary f) : Nat :=
  (if x.negative then f.magnitudeBound else 0) + x.magnitude

/-! ## Construction -/

/-- The value of the given sign and magnitude, infinite when the magnitude is that of the
    infinities or more. -/
def ofMagnitude (negative : Bool) (magnitude : Nat) : Binary f where
  negative := negative
  magnitude := min magnitude f.infinityMagnitude
  magnitude_lt := Nat.lt_of_le_of_lt (Nat.min_le_right _ _) f.infinityMagnitude_lt

/-- The zero of the given sign. -/
def zero (f : Format) (negative : Bool) : Binary f := ofMagnitude negative 0

/-- The infinity of the given sign. -/
def infinity (f : Format) (negative : Bool) : Binary f := ofMagnitude negative f.infinityMagnitude

/-- The quiet not-a-number that invalid operations give. -/
def nan (f : Format) : Binary f where
  negative := false
  magnitude := f.infinityMagnitude + 2 ^ (f.mantissaBits - 1)
  magnitude_lt := by cases f <;> decide

/-- The value with the sign replaced. -/
def withSign (x : Binary f) (negative : Bool) : Binary f := { x with negative := negative }

/-- The value with the sign cleared. -/
def abs (x : Binary f) : Binary f := x.withSign false

/-- The value with the sign flipped. -/
def neg (x : Binary f) : Binary f := x.withSign (!x.negative)

/-- The value with the sign of `y`. -/
def copySign (x y : Binary f) : Binary f := x.withSign y.negative

instance : Neg (Binary f) := ⟨neg⟩

/-! ## Fields -/

/-- The exponent field as stored, with its bias. -/
def biasedExponent (x : Binary f) : Nat := x.magnitude / 2 ^ f.mantissaBits

/-- The mantissa field, without the implicit leading bit. -/
def mantissa (x : Binary f) : Nat := x.magnitude % 2 ^ f.mantissaBits

/-- The exponent field without its bias.  Zeros and subnormals read `-bias`. -/
def exponent (x : Binary f) : Int := (x.biasedExponent : Int) - f.bias

/-- The position of the lowest set bit of the mantissa field, its width when no bit is set. -/
def lowestBit (x : Binary f) : Nat :=
  ((List.range f.mantissaBits).find? x.mantissa.testBit).getD f.mantissaBits

/-- The integer `m` and exponent `e` with magnitude `m * 2 ^ e`, implicit bit included. -/
def significand (x : Binary f) : Nat × Int :=
  if x.biasedExponent = 0 then
    (x.mantissa, 1 - (f.bias : Int) - f.mantissaBits)
  else
    (2 ^ f.mantissaBits + x.mantissa, (x.biasedExponent : Int) - f.bias - f.mantissaBits)

/-! ## Classification -/

/-- The kind of a value, from its two fields. -/
def category (x : Binary f) : Category :=
  if x.biasedExponent = 0 then
    if x.mantissa = 0 then .zero else .subnormal
  else if x.biasedExponent = 2 ^ f.exponentBits - 1 then
    if x.mantissa = 0 then .infinite else .nan
  else .normal

/-- Neither an infinity nor a not-a-number. -/
def isFinite (x : Binary f) : Bool := x.magnitude < f.infinityMagnitude

/-- An infinity of either sign. -/
def isInfinite (x : Binary f) : Bool := x.magnitude = f.infinityMagnitude

/-- Not a number. -/
def isNaN (x : Binary f) : Bool := f.infinityMagnitude < x.magnitude

/-- A zero of either sign. -/
def isZero (x : Binary f) : Bool := x.magnitude = 0

/-! ## Exact value -/

/-- The magnitude of a finite value as a number of units. -/
def absUnits (x : Binary f) : Nat :=
  if x.biasedExponent = 0 then x.mantissa
  else (2 ^ f.mantissaBits + x.mantissa) * 2 ^ (x.biasedExponent - 1)

/-- A finite value as a number of units. -/
def units (x : Binary f) : Int :=
  if x.negative then -(x.absUnits : Int) else x.absUnits

/-! ## Powers of two -/

/-- The power `2 ^ e`: an infinity above the range, zero below half the least subnormal, and
    exact in between. -/
def exp2 (f : Format) (e : Int) : Binary f :=
  let biased := e + f.bias
  if 2 ^ f.exponentBits - 1 ≤ biased then infinity f false
  else if 1 ≤ biased then ofMagnitude false (biased.toNat * 2 ^ f.mantissaBits)
  else if -(f.mantissaBits : Int) < biased then
    ofMagnitude false (2 ^ ((f.mantissaBits : Int) - 1 + biased).toNat)
  else zero f false

/-! ## Order -/

/-- The magnitude with its sign; on numbers it grows with the value, zeros coinciding. -/
def rank (x : Binary f) : Int :=
  if x.negative then -(x.magnitude : Int) else x.magnitude

/-- How two values compare, `none` when one of them is not a number. -/
def compare (x y : Binary f) : Option Ordering :=
  if x.isNaN || y.isNaN then none
  else some (Ord.compare x.rank y.rank)

end Binary

end VariablePrecision
