/-
  VariablePrecision.Predicate

  The sixteen comparison predicates on floating-point values: every set of the four
  outcomes less, equal, greater and unordered is one predicate.
-/

import VariablePrecision.Binary.Basic

namespace VariablePrecision

/-- A comparison predicate; a leading `o` asks for ordered operands, a leading `u` is also true
    of unordered ones. -/
inductive Predicate where
  | never
  | oeq | ogt | oge | olt | ole | one
  | ord
  | uno
  | ueq | ugt | uge | ult | ule | une
  | always
  deriving DecidableEq, Repr

namespace Predicate

/-- Whether the predicate accepts the outcome of a comparison, `none` being unordered. -/
def accepts : Predicate → Option Ordering → Bool
  | never, _ => false
  | oeq, o => o == some .eq
  | ogt, o => o == some .gt
  | oge, o => o == some .gt || o == some .eq
  | olt, o => o == some .lt
  | ole, o => o == some .lt || o == some .eq
  | one, o => o == some .lt || o == some .gt
  | ord, o => o.isSome
  | uno, o => o.isNone
  | ueq, o => o.isNone || o == some .eq
  | ugt, o => o.isNone || o == some .gt
  | uge, o => o.isNone || o == some .gt || o == some .eq
  | ult, o => o.isNone || o == some .lt
  | ule, o => o.isNone || o == some .lt || o == some .eq
  | une, o => o != some .eq
  | always, _ => true

/-- The predicate evaluated on two values. -/
def evaluate {f : Format} (p : Predicate) (x y : Binary f) : Bool := p.accepts (x.compare y)

end Predicate

end VariablePrecision
