/-
  VariablePrecision.Proofs.Target.Grid

  A target seen from the native format that stores its values: in units of that format
  the target is a grid, coarser than the native one, with a last binade.  `nearest`
  rounds a ratio of units to the target in one step; it is what clamping and emulated
  operations are compared with.  The native format is a target as well, and `nearest` is
  native rounding then.
-/

import VariablePrecision.Proofs.Binary.Quantum
import VariablePrecision.Target

namespace VariablePrecision.Target

variable {f : Format} {t : Target} {a d : Nat} {s : Bool}

/-! ## Exponents of a valid target -/

theorem emax_eq (t : Target) : t.emax = ((2 ^ (t.range - 1) : Nat) : Int) - 1 := by
  rw [emax]
  push_cast
  rfl

theorem Valid.one_le_emax (ht : t.Valid f) : 1 ≤ t.emax := by
  have hrange : 1 ≤ t.range - 1 := by have := ht.range_ge; unfold rangeMin at this; omega
  have hpow : 2 ^ 1 ≤ 2 ^ (t.range - 1) := Nat.pow_le_pow_right Nat.two_pos hrange
  rw [emax_eq]
  omega

theorem Valid.emax_le_bias (ht : t.Valid f) : t.emax ≤ f.bias := by
  have hpow : 2 ^ (t.range - 1) ≤ 2 ^ (f.exponentBits - 1) :=
    Nat.pow_le_pow_right Nat.two_pos (by have := ht.range_le; omega)
  rw [emax_eq, Format.bias]
  omega

theorem Valid.one_le_precision (ht : t.Valid f) : 1 ≤ t.precision := ht.precision_ge

/-! ## The grid -/

/-- The numbers of native units that the target holds, with no bound above. -/
def grid (f : Format) (t : Target) : Grid :=
  ⟨t.precision, (t.emin - t.precision + f.unitExponent).toNat⟩

/-- The exponent, in units, of the last binade of the target. -/
def top (f : Format) (t : Target) : Nat := (t.emax + f.unitExponent).toNat

@[simp] theorem grid_precision : (t.grid f).precision = t.precision := rfl

/-- The least positive value of the target is not below the native one. -/
theorem Valid.lowest_eq (ht : t.Valid f) :
    ((t.grid f).lowest : Int) = 1 - t.emax - t.precision + f.unitExponent := by
  have hemax := ht.emax_le_bias
  have hprec := ht.precision_le
  have hunit := f.unitExponent_add_one
  simp only [grid, emin]
  omega

theorem Valid.top_eq (ht : t.Valid f) : (t.top f : Int) = t.emax + f.unitExponent := by
  have hemax := ht.one_le_emax
  unfold top
  omega

theorem Valid.lowest_add_precision_le (ht : t.Valid f) :
    (t.grid f).lowest + t.precision ≤ t.top f := by
  have hlow := ht.lowest_eq
  have htop := ht.top_eq
  have hemax := ht.one_le_emax
  omega

theorem Valid.top_lt (ht : t.Valid f) : 2 ^ (t.top f + 1) ≤ f.unitBound := by
  have htop := ht.top_eq
  have hemax := ht.emax_le_bias
  exact Nat.pow_le_pow_right Nat.two_pos (by omega)

/-- What the target holds, the native format holds. -/
theorem Valid.native_round_round (ht : t.Valid f) (hd : 0 < d) :
    f.grid.round ((t.grid f).round a d) 1 = (t.grid f).round a d :=
  Grid.round_one_of_mem
    ((Grid.mem_round _ hd).mono ht.precision_le (Nat.zero_le _))

/-! ## Rounding once -/

/-- The value of the given sign nearest to `a / d` units in the target, an infinity beyond its
    last binade. -/
def nearest (f : Format) (t : Target) (negative : Bool) (a d : Nat) : Binary f :=
  if 2 ^ (t.top f + 1) ≤ (t.grid f).round a d then .infinity f negative
  else .nearest f negative ((t.grid f).round a d) 1

@[simp] theorem negative_nearest : (t.nearest f s a d).negative = s := by
  unfold nearest
  split <;> rfl

theorem Valid.absUnits_nearest (ht : t.Valid f) (hd : 0 < d)
    (h : (t.grid f).round a d < 2 ^ (t.top f + 1)) :
    (t.nearest f s a d).isFinite ∧ (t.nearest f s a d).absUnits = (t.grid f).round a d := by
  have hround := ht.native_round_round (a := a) hd
  have htop := ht.top_lt
  unfold nearest
  rw [if_neg (by omega)]
  exact ⟨Binary.isFinite_nearest Nat.one_pos (by omega), by
    rw [Binary.absUnits_nearest Nat.one_pos (by omega), hround]⟩

/-! ## The native format as a target -/

@[simp] theorem emax_native (f : Format) : (native f).emax = f.bias := by
  cases f <;> rfl

/-- The native format has the native grid. -/
@[simp] theorem grid_native (f : Format) : (native f).grid f = f.grid := by
  have hlow := (native_valid f).lowest_eq
  have hunit := f.unitExponent_add_one
  have hprecision : (native f).precision = f.mantissaBits := rfl
  rw [emax_native, hprecision] at hlow
  have hzero : ((native f).grid f).lowest = 0 := by omega
  show (⟨f.mantissaBits, ((native f).grid f).lowest⟩ : Grid) = ⟨f.mantissaBits, 0⟩
  rw [hzero]

/-- The last native binade ends where values become infinite. -/
theorem two_pow_top_native (f : Format) : 2 ^ ((native f).top f + 1) = f.unitBound := by
  have htop := (native_valid f).top_eq
  rw [emax_native] at htop
  rw [Format.unitBound]
  congr 1
  omega

/-- Rounding to the native format as a target is native rounding. -/
theorem nearest_native (hd : 0 < d) : (native f).nearest f s a d = .nearest f s a d := by
  rw [nearest, grid_native, two_pow_top_native]
  split
  · next hover => exact (Binary.nearest_eq_infinity hd hover).symm
  · exact Binary.nearest_congr Nat.one_pos hd (Grid.round_one_of_mem (Grid.mem_round _ hd))

end VariablePrecision.Target
