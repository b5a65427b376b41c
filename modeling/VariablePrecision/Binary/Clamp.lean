/-
  VariablePrecision.Binary.Clamp

  Fitting a value to a target format: rounding to its precision, then to its range.
  Magnitudes above the range become infinite; those below it are flushed to zero or
  rounded with gradual underflow.
-/

import VariablePrecision.Binary.Round
import VariablePrecision.Target

namespace VariablePrecision.Binary

variable {f : Format}

/-- The value as the target format holds it.  Infinities, zeros and not-a-numbers are held by
    every target. -/
def clamp (x : Binary f) (side : Side) (target : Target) (ctx : Context) : Binary f :=
  if !x.isFinite || x.isZero then x
  else if target.emax < x.exponent then infinity f x.negative
  else if x.exponent < target.emin ∧ ctx.flushes side then zero f x.negative
  else
    let rounded :=
      if x.exponent < target.emin then x.roundSubnormal target.emin target.precision ctx.policy
      else x.round target.precision ctx.policy
    -- rounding can carry past the greatest exponent
    if rounded.isFinite ∧ target.emax < rounded.exponent then infinity f x.negative
    else rounded

end VariablePrecision.Binary
