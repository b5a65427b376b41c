/-
  VariablePrecision.Target

  The formats that can be emulated: a number of mantissa bits (the *precision*) and a
  number of exponent bits (the *range*), neither above that of the native format the
  values are stored in.
-/

import VariablePrecision.Error

namespace VariablePrecision

/-- A format to emulate. -/
structure Target where
  /-- The number of mantissa bits. -/
  precision : Nat
  /-- The number of exponent bits. -/
  range : Nat
  deriving DecidableEq, Repr

namespace Target

/-- The native format itself, seen as a target. -/
def native (f : Format) : Target := ⟨f.mantissaBits, f.exponentBits⟩

/-- The greatest exponent of a finite value. -/
def emax (t : Target) : Int := 2 ^ (t.range - 1) - 1

/-- The least exponent of a normal value. -/
def emin (t : Target) : Int := 1 - t.emax

/-! ## Bounds -/

/-- The least precision of a target. -/
def precisionMin : Nat := 1

/-- The least range of a target. -/
def rangeMin : Nat := 2

/-- A target that can be emulated in the native format `f`. -/
structure Valid (f : Format) (t : Target) : Prop where
  precision_ge : precisionMin ≤ t.precision
  precision_le : t.precision ≤ f.mantissaBits
  range_ge : rangeMin ≤ t.range
  range_le : t.range ≤ f.exponentBits

/-- Which of the two widths of a target is out of bounds, and its value. -/
inductive Fault where
  | precision (value : Nat)
  | range (value : Nat)
  deriving DecidableEq, Repr

/-- The failure that names the setting of the width and its bounds. -/
def Fault.toError (f : Format) : Fault → Error
  | precision value =>
      .invalidOption ("precision-" ++ f.name) (toString value)
        ("must be in " ++ toString precisionMin ++ "..=" ++ toString f.mantissaBits)
  | range value =>
      .invalidOption ("range-" ++ f.name) (toString value)
        ("must be in " ++ toString rangeMin ++ "..=" ++ toString f.exponentBits)

/-- What is wrong with a target, the precision being looked at first. -/
def fault? (f : Format) (t : Target) : Option Fault :=
  if t.precision < precisionMin ∨ f.mantissaBits < t.precision then some (.precision t.precision)
  else if t.range < rangeMin ∨ f.exponentBits < t.range then some (.range t.range)
  else none

/-- The target, provided that it is valid. -/
def check (f : Format) (t : Target) : Except Error Target :=
  match t.fault? f with
  | some fault => .error (fault.toError f)
  | none => .ok t

theorem fault?_eq_none_iff {f : Format} {t : Target} : t.fault? f = none ↔ t.Valid f := by
  unfold fault?
  constructor
  · intro h
    split at h
    · simp at h
    · split at h
      · simp at h
      · exact ⟨by omega, by omega, by omega, by omega⟩
  · rintro ⟨h₁, h₂, h₃, h₄⟩
    rw [if_neg (by omega), if_neg (by omega)]

theorem native_valid (f : Format) : (native f).Valid f := by
  cases f <;> exact ⟨by decide, by decide, by decide, by decide⟩

end Target

/-- One target per native format. -/
structure Targets where
  binary32 : Target := .native .binary32
  binary64 : Target := .native .binary64
  deriving DecidableEq, Repr

/-- The target of a native format. -/
def Targets.get (ts : Targets) : Format → Target
  | .binary32 => ts.binary32
  | .binary64 => ts.binary64

/-- Ten mantissa and five exponent bits can be emulated in both native formats. -/
theorem Targets.half_valid (f : Format) : ((⟨⟨10, 5⟩, ⟨10, 5⟩⟩ : Targets).get f).Valid f := by
  cases f <;> exact ⟨by decide, by decide, by decide, by decide⟩

end VariablePrecision
