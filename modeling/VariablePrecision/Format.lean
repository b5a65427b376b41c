/-
  VariablePrecision.Format

  The two native floating-point formats whose values are handled, and the field
  widths every other module is parameterized by:

    binary32   1 sign bit,  8 exponent bits (bias  127), 23 mantissa bits
    binary64   1 sign bit, 11 exponent bits (bias 1023), 52 mantissa bits
-/

namespace VariablePrecision

-- Powers of numbers are those of the core library in all modules, whatever else they import.
attribute [scoped instance (high)] instPowNat

/-- A native floating-point format. -/
inductive Format where
  | binary32
  | binary64
  deriving DecidableEq, Repr

namespace Format

/-- The number of stored mantissa bits. -/
def mantissaBits : Format → Nat
  | binary32 => 23
  | binary64 => 52

/-- The number of exponent bits. -/
def exponentBits : Format → Nat
  | binary32 => 8
  | binary64 => 11

/-- The name by which messages call the format. -/
def name : Format → String
  | binary32 => "binary32"
  | binary64 => "binary64"

/-- The exponent bias, which is also the exponent of the greatest finite power of two. -/
def bias (f : Format) : Nat := 2 ^ (f.exponentBits - 1) - 1

/-- One more than the greatest magnitude: all bits below the sign bit set, plus one. -/
def magnitudeBound (f : Format) : Nat := 2 ^ (f.mantissaBits + f.exponentBits)

/-- The magnitude of the infinities: an exponent field of ones and an empty mantissa. -/
def infinityMagnitude (f : Format) : Nat := (2 ^ f.exponentBits - 1) * 2 ^ f.mantissaBits

/-- The least positive value of the format is `2 ^ (-unitExponent)`. -/
def unitExponent (f : Format) : Nat := f.bias - 1 + f.mantissaBits

/-! ## The fields as masks of the encoding -/

/-- The sign bit of the encoding. -/
def signMask (f : Format) : Nat := f.magnitudeBound

/-- The exponent field of the encoding. -/
def exponentMask (f : Format) : Nat := f.infinityMagnitude

/-- The mantissa field of the encoding. -/
def mantissaMask (f : Format) : Nat := 2 ^ f.mantissaBits - 1

theorem infinityMagnitude_lt (f : Format) : f.infinityMagnitude < f.magnitudeBound := by
  cases f <;> decide

end Format

end VariablePrecision
