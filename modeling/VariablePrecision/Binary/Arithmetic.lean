/-
  VariablePrecision.Binary.Arithmetic

  Addition, subtraction, multiplication, division and the fused multiply-add, each
  correctly rounded to nearest even.  On finite operands the exact result is written
  in units and rounded once by `nearest`; the special values follow the usual rules:
  a not-a-number operand or an undefined form gives the quiet not-a-number, and an
  exact zero is negative only if both of its terms are.
-/

import VariablePrecision.Binary.Rounding

namespace VariablePrecision.Binary

variable {f : Format}

/-- The signed exact sum `s / d`, in units, rounded; `negativeZero` is the sign of an exact
    zero. -/
def nearestSum (f : Format) (s : Int) (d : Nat) (negativeZero : Bool) : Binary f :=
  if s = 0 then zero f negativeZero else nearest f (s < 0) s.natAbs d

/-- The sum of two values. -/
def add (x y : Binary f) : Binary f :=
  if x.isNaN || y.isNaN then nan f
  else if x.isInfinite then
    if y.isInfinite && x.negative != y.negative then nan f else x
  else if y.isInfinite then y
  else nearestSum f (x.units + y.units) 1 (x.negative && y.negative)

/-- The difference of two values. -/
def sub (x y : Binary f) : Binary f := x.add (-y)

/-- The product of two values. -/
def mul (x y : Binary f) : Binary f :=
  let negative := x.negative != y.negative
  if x.isNaN || y.isNaN then nan f
  else if x.isInfinite || y.isInfinite then
    if x.isZero || y.isZero then nan f else infinity f negative
  else nearest f negative (x.absUnits * y.absUnits) (2 ^ f.unitExponent)

/-- The quotient of two values. -/
def div (x y : Binary f) : Binary f :=
  let negative := x.negative != y.negative
  if x.isNaN || y.isNaN then nan f
  else if x.isInfinite then
    if y.isInfinite then nan f else infinity f negative
  else if y.isInfinite then zero f negative
  else if y.isZero then
    if x.isZero then nan f else infinity f negative
  else nearest f negative (x.absUnits * 2 ^ f.unitExponent) y.absUnits

/-- The value of `x * y + z`, rounded once. -/
def mulAdd (x y z : Binary f) : Binary f :=
  let negative := x.negative != y.negative
  if x.isNaN || y.isNaN || z.isNaN then nan f
  else if x.isInfinite || y.isInfinite then
    if x.isZero || y.isZero then nan f
    else if z.isInfinite && z.negative != negative then nan f
    else infinity f negative
  else if z.isInfinite then z
  else
    nearestSum f (x.units * y.units + z.units * (2 ^ f.unitExponent : Nat)) (2 ^ f.unitExponent)
      (negative && z.negative)

instance : Add (Binary f) := ⟨add⟩
instance : Sub (Binary f) := ⟨sub⟩
instance : Mul (Binary f) := ⟨mul⟩
instance : Div (Binary f) := ⟨div⟩

end VariablePrecision.Binary
