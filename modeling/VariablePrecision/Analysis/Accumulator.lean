/-
  VariablePrecision.Analysis.Accumulator

  Running statistics of a series of bit counts: least, greatest, total, number, and
  the mean rounded to binary64.
-/

import VariablePrecision.Binary.Arithmetic

namespace VariablePrecision.Analysis

/-- Statistics of a series of bit counts; all fields are zero for the empty series. -/
structure Accumulator where
  min : Nat := 0
  max : Nat := 0
  sum : Nat := 0
  count : Nat := 0
  deriving DecidableEq, Repr

namespace Accumulator

/-- The statistics with one more count. -/
def record (acc : Accumulator) (bits : Nat) : Accumulator where
  min := if acc.count = 0 then bits else Min.min acc.min bits
  max := if acc.count = 0 then bits else Max.max acc.max bits
  sum := acc.sum + bits
  count := acc.count + 1

/-- The statistics with one more count, if there is one. -/
def record? (acc : Accumulator) (bits : Option Nat) : Accumulator :=
  match bits with
  | some n => acc.record n
  | none => acc

/-- The total over the number, both as binary64 values; a mean needs at least one count. -/
def mean (acc : Accumulator) : Option (Binary .binary64) :=
  if acc.count = 0 then none
  else some (Binary.ofNat .binary64 acc.sum / Binary.ofNat .binary64 acc.count)

end Accumulator

end VariablePrecision.Analysis
