/-
  VariablePrecision.Binary.Rounding

  The one place where a real number becomes a value of a format.  Every operation
  first computes its exact result as a ratio of natural numbers, counted in units of
  the format, and then rounds once:

    nearestEven  rounds a ratio to a natural number, ties to the even one;
    nearest      picks the scale at which the ratio has a full significand, rounds
                 there, and reads the outcome as a magnitude.

  Scaling by `2 ^ p` and adding `p` to the exponent field are the same step on
  magnitudes, so a carry into the next binade, the passage from subnormal to normal
  and the passage to infinity need no cases of their own.
-/

import VariablePrecision.Binary.Basic

namespace VariablePrecision

/-- The natural number nearest to `a / d`, the even one of two that are equally near. -/
def nearestEven (a d : Nat) : Nat :=
  let q := a / d
  let r := a % d
  if d < 2 * r ∨ (2 * r = d ∧ q % 2 = 1) then q + 1 else q

namespace Binary

/-- The magnitude nearest to `a / d` units, ties to the even magnitude; it is that of the
    infinities or more when the ratio is out of range. -/
def nearestMagnitude (f : Format) (a d : Nat) : Nat :=
  let p := (a / d).log2 - f.mantissaBits
  p * 2 ^ f.mantissaBits + nearestEven a (d * 2 ^ p)

/-- The value of the given sign nearest to `a / d` units. -/
def nearest (f : Format) (negative : Bool) (a d : Nat) : Binary f :=
  ofMagnitude negative (nearestMagnitude f a d)

/-- The value nearest to the natural number `n`. -/
def ofNat (f : Format) (n : Nat) : Binary f :=
  nearest f false (n * 2 ^ f.unitExponent) 1

end Binary

end VariablePrecision
