/-
  VariablePrecision.Decimal.Shortest

  The decimal number with the fewest digits that reads back as a given value.

  The reals that round to a value form an interval around it, closed when its
  mantissa is even.  Among the grids of multiples of a power of ten the coarsest with
  a point in that interval gives the fewest digits; if any point of a grid lies in
  the interval, one of the two neighbours of the value does, so only these are
  tested.  All comparisons are made on natural numbers, in quarters of a unit.
-/

import VariablePrecision.Binary.Basic

namespace VariablePrecision

/-- The number `digits * 10 ^ exponent`. -/
structure Decimal where
  digits : Nat
  exponent : Int
  deriving DecidableEq, Repr

namespace Decimal

/-- Which of two equally near neighbours is taken. -/
inductive Tie where
  /-- The one with an even last digit. -/
  | even
  /-- The one of larger magnitude. -/
  | up
  deriving DecidableEq, Repr

/-- The reals that round to a positive value, in quarters of a unit. -/
structure Interval where
  low : Nat
  value : Nat
  high : Nat
  closed : Bool
  deriving DecidableEq, Repr

/-- The interval of a finite value.  Below a power of two the neighbours are half as far away,
    except at the bottom of the range. -/
def interval {f : Format} (x : Binary f) : Interval :=
  let gap := 2 ^ (x.biasedExponent - 1)
  { low := 4 * x.absUnits - (if x.mantissa = 0 ∧ 1 < x.biasedExponent then gap else 2 * gap)
    value := 4 * x.absUnits
    high := 4 * x.absUnits + 2 * gap
    closed := x.mantissa % 2 = 0 }

namespace Interval

/-- The interval with both ends and its value multiplied. -/
def scale (i : Interval) (n : Nat) : Interval :=
  { i with low := i.low * n, value := i.value * n, high := i.high * n }

/-- Whether a number lies in the interval. -/
def contains (i : Interval) (n : Nat) : Bool :=
  if i.closed then i.low ≤ n && n ≤ i.high else i.low < n && n < i.high

/-- The multiple of `step` in the interval that is nearest to its value, divided by `step`. -/
def nearestMultiple? (i : Interval) (step : Nat) (tie : Tie) : Option Nat :=
  let below := i.value / step
  let rest := i.value % step
  let takeUp : Bool :=
    step < 2 * rest || (2 * rest == step && (tie == .up || below % 2 == 1))
  match i.contains (below * step), i.contains ((below + 1) * step) with
  | true, true => some (if takeUp then below + 1 else below)
  | true, false => some below
  | false, true => some (below + 1)
  | false, false => none

end Interval

/-- The point of the grid of multiples of `10 ^ k` that reads back as the value. -/
def onGrid? {f : Format} (x : Binary f) (tie : Tie) (k : Int) : Option Decimal :=
  let quarters := 4 * 2 ^ f.unitExponent
  (((interval x).scale (10 ^ (-k).toNat)).nearestMultiple? (quarters * 10 ^ k.toNat) tie).map
    fun digits => ⟨digits, k⟩

/-- An exponent above that of the leading digit of a value, from the number of its bits: the
    logarithm of two to the base ten is 0.30103. -/
def topExponent {f : Format} (x : Binary f) : Int :=
  ((x.absUnits.log2 : Int) + 1 - f.unitExponent) * 30103 / 100000 + 2

/-- The exponents to try, from the coarsest grid down to one that holds every value. -/
def gridExponents {f : Format} (x : Binary f) : List Int :=
  let top := topExponent x
  (List.range (top + f.unitExponent + 1).toNat).map fun (i : Nat) => top - i

/-- The decimal with the fewest digits that reads back as the magnitude of a finite value. -/
def shortest {f : Format} (x : Binary f) (tie : Tie) : Decimal :=
  if x.isZero then ⟨0, 0⟩
  else ((gridExponents x).findSome? (onGrid? x tie)).getD ⟨0, 0⟩

end Decimal

end VariablePrecision
