/-
  VariablePrecision.Analysis.Phenomena

  Three phenomena of a native operation, each measured in bits:

    cancellation   leading bits that a subtraction of close values loses;
    absorption     bits of the smaller term of a sum that fall below the last place of
                   the result;
    round-off      the size of the exponent of the rounding error, which error-free
                   transformations compute.
-/

import VariablePrecision.Operation

namespace VariablePrecision.Analysis

variable {f : Format}

/-- A number of bits, provided that it is positive. -/
def positiveBits (bits : Int) : Option Nat := if 0 < bits then some bits.toNat else none

/-- How many exponents the result lies below the larger operand. -/
def cancellation (x y res : Binary f) : Option Nat :=
  positiveBits (max x.exponent y.exponent - res.exponent)

/-- The operand of smaller magnitude, the second one of equals. -/
def smallerOperand (x y : Binary f) : Binary f :=
  if x.abs.compare y.abs = some .lt then x else y

/-- How many significant bits of the smaller operand lie below the last place of the result. -/
def absorption (x y res : Binary f) : Option Nat :=
  let small := smallerOperand x y
  if small.isZero then none
  else
    let significant : Int := (f.mantissaBits : Int) + 1 - small.lowestBit
    let lost := res.exponent - small.exponent - small.lowestBit
    positiveBits (min lost significant)

/-- The rounding error of an addition, by the six operations of the two-sum scheme. -/
def sumError (x y res : Binary f) : Binary f :=
  let yPart := res - x
  let xPart := res - yPart
  (x - xPart) + (y - yPart)

/-- The rounding error of an operation whose native result is `res`.  For a division the
    remainder is computed first and then divided again. -/
def roundingError : Operation → Binary f → Binary f → Binary f → Binary f
  | .add, x, y, res => sumError x y res
  | .sub, x, y, res => sumError x (-y) res
  | .mul, x, y, res => x.mulAdd y (-res)
  | .div, x, y, res => -(res.mulAdd y (-x)) / y

/-- The size of the exponent of the rounding error, when there is a finite one. -/
def roundoff (op : Operation) (x y res : Binary f) : Option Nat :=
  let error := roundingError op x y res
  if error.isFinite && !error.isZero then some error.exponent.natAbs else none

end VariablePrecision.Analysis
