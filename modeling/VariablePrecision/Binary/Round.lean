/-
  VariablePrecision.Binary.Round

  Rounding to a given number of mantissa bits.  All roundings reduce to one: the
  magnitude is rounded to a multiple of a power of two, the *quantum*.  A value of
  exponent `e` kept on `p` mantissa bits has the quantum `2 ^ (e - p)`; below the
  normal range, which starts at `2 ^ emin`, the quantum stays at `2 ^ (emin - p)`,
  which is gradual underflow.

  A bound on the absolute error limits the number of bits kept, or leaves none.
-/

import VariablePrecision.Binary.Arithmetic
import VariablePrecision.Context

namespace VariablePrecision.Binary

variable {f : Format}

/-- The value rounded to a multiple of `2 ^ quantum`, ties to the even multiple.  The sign is
    kept, also on zero. -/
def roundToQuantum (x : Binary f) (quantum : Int) : Binary f :=
  let (m, e) := x.significand
  let shift := quantum - e
  if shift ≤ 0 ∨ m = 0 then x
  -- the whole significand is below half a quantum
  else if (f.mantissaBits : Int) + 1 < shift then zero f x.negative
  else
    let kept := nearestEven m (2 ^ shift.toNat)
    if kept = 0 then zero f x.negative
    else
      -- the quantum can be the first power of two that is too large
      let scale := min quantum f.bias
      (ofNat f kept * exp2 f scale * exp2 f (quantum - scale)).withSign x.negative

/-- The distance from the exponent of a value to its quantum.  It is the precision as a signed
    word of 32 bits, so a precision in the upper half of the words puts the quantum above the
    value. -/
def quantumDepth (precision : Nat) : Int := Int.bmod precision UInt32.size

/-- Below the upper half of the words the distance is the precision itself. -/
theorem quantumDepth_of_lt {precision : Nat} (h : 2 * precision < UInt32.size) :
    quantumDepth precision = precision :=
  Int.bmod_eq_of_le (by omega) (by simp only [UInt32.size] at *; omega)

/-- A value in the normal range rounded to `precision` mantissa bits. -/
def roundNormal (x : Binary f) (precision : Nat) : Binary f :=
  x.roundToQuantum (x.exponent - quantumDepth precision)

/-- A value below `2 ^ emin` rounded to the quantum of the least normal values. -/
def roundDenormal (x : Binary f) (emin : Int) (precision : Nat) : Binary f :=
  x.roundToQuantum (emin - quantumDepth precision)

/-- As `roundDenormal`, for finite values only; an absolute bound limits the precision to the
    size of its exponent. -/
def roundSubnormal (x : Binary f) (emin : Int) (precision : Nat) (policy : ErrorPolicy) :
    Binary f :=
  if x.isFinite then
    x.roundDenormal emin
      (if policy.boundsAbsolute then min policy.absoluteExponent.natAbs precision else precision)
  else x

/-- A normal value rounded under an absolute bound `2 ^ a`.  Values below half the bound vanish,
    those from half the bound up to it become the bound, and above it as many bits are kept as
    the bound asks for, at most `precision` of them in the combined mode. -/
def roundAbsolute (x : Binary f) (precision : Nat) (policy : ErrorPolicy) : Binary f :=
  let above := x.exponent - policy.absoluteExponent
  if above ≤ -2 then zero f x.negative
  else if above = -1 then (exp2 f policy.absoluteExponent).withSign x.negative
  else
    let most := if policy.mode = .combined then precision else f.mantissaBits
    x.roundNormal (min above most).toNat

/-- The value rounded to `precision` mantissa bits under the policy. -/
def round (x : Binary f) (precision : Nat) (policy : ErrorPolicy) : Binary f :=
  match x.category with
  | .nan | .infinite | .zero => x
  | .subnormal => x.roundSubnormal (1 - (f.bias : Int)) precision policy
  | .normal =>
      if policy.boundsAbsolute then x.roundAbsolute precision policy
      else x.roundNormal precision

end VariablePrecision.Binary
