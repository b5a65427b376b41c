/-
  VariablePrecision.Proofs.Target.Rounds

  What a target format is, said with rational numbers only, and what it means that a
  value is the correct rounding of a number: `Rounds`.

  A number `y` with `2 ^ e ≤ |y| < 2 ^ (e + 1)` is held by a target if it is a multiple of
  `2 ^ (max e emin - precision)` and `e ≤ emax`, and zero is held by every target.  A number
  is rounded to the nearest one that is held, of two equally near ones to the even
  multiple, and from half a quantum below `2 ^ (emax + 1)` on to an infinity.

  The main law `rounds_nearest` says that rounding a ratio of units on the grid of a
  target is rounding in this sense.
-/

import VariablePrecision.Proofs.Target.Grid
import Mathlib.Algebra.Order.Field.Power
import Mathlib.Data.Rat.Cast.Order
import Mathlib.Tactic.FieldSimp
import Mathlib.Tactic.Positivity

namespace VariablePrecision

namespace Binary

variable {f : Format}

/-- The number of the given sign and size, the size being counted in units. -/
def scaled (f : Format) (negative : Bool) (size : ℚ) : ℚ :=
  (if negative then -size else size) * 2 ^ (-(f.unitExponent : ℤ))

/-- The number that a finite value stands for. -/
def toRat (x : Binary f) : ℚ := x.units * 2 ^ (-(f.unitExponent : ℤ))

theorem toRat_eq_scaled (x : Binary f) : x.toRat = scaled f x.negative x.absUnits := by
  unfold toRat scaled units
  cases x.negative <;> simp

theorem scaled_true (size : ℚ) : scaled f true size = -scaled f false size := by
  simp [scaled]

theorem abs_scaled (s : Bool) {size : ℚ} (h : 0 ≤ size) :
    |scaled f s size| = size * 2 ^ (-(f.unitExponent : ℤ)) := by
  have hunit : (0 : ℚ) < 2 ^ (-(f.unitExponent : ℤ)) := by positivity
  unfold scaled
  rw [abs_mul, abs_of_pos hunit]
  cases s
  · rw [if_neg (by decide), abs_of_nonneg h]
  · rw [if_pos rfl, abs_neg, abs_of_nonneg h]

theorem abs_toRat (x : Binary f) : |x.toRat| = x.absUnits * 2 ^ (-(f.unitExponent : ℤ)) := by
  rw [toRat_eq_scaled, abs_scaled _ (Nat.cast_nonneg _)]

end Binary

namespace Target

variable {f : Format} {t : Target} {a d : Nat} {s : Bool} {r y z : ℚ}

/-! ## The numbers of a target -/

/-- The exponent of the distance between neighbours from `2 ^ e` to `2 ^ (e + 1)`. -/
def quantum (t : Target) (e : ℤ) : ℤ := max e t.emin - t.precision

/-- The number lies between `2 ^ e` and `2 ^ (e + 1)` and is `k` quanta away from zero. -/
structure IsMultiple (t : Target) (y : ℚ) (e k : ℤ) : Prop where
  two_pow_le : 2 ^ e ≤ |y|
  lt_two_pow : |y| < 2 ^ (e + 1)
  eq_mul : y = k * 2 ^ t.quantum e

/-- The number is a finite number of the target. -/
def Holds (t : Target) (y : ℚ) : Prop :=
  y = 0 ∨ |y| < 2 ^ (t.emax + 1) ∧ ∃ e k, t.IsMultiple y e k

/-- The number is an even multiple of its quantum. -/
def HoldsEven (t : Target) (y : ℚ) : Prop :=
  y = 0 ∨ ∃ e k, Even k ∧ t.IsMultiple y e k

/-- The finite number of the target nearest to `r`, which is even if another one is as near. -/
structure IsNearest (t : Target) (r y : ℚ) : Prop where
  holds : t.Holds y
  le : ∀ z, t.Holds z → |r - y| ≤ |r - z|
  even : ∀ z, t.Holds z → z ≠ y → |r - z| = |r - y| → t.HoldsEven y

/-- Numbers of this size or more are rounded to an infinity. -/
def overflowBound (t : Target) : ℚ := 2 ^ t.emax * (2 - 2 ^ (-(t.precision : ℤ) - 1))

/-- The value is the correct rounding of the number `r` to the target. -/
structure Rounds (t : Target) (r : ℚ) (x : Binary f) : Prop where
  infinite : t.overflowBound ≤ |r| → x.isInfinite
  nearest : |r| < t.overflowBound → x.isFinite ∧ t.IsNearest r x.toRat
  negative : r ≠ 0 → (x.negative ↔ r < 0)

/-! ## Signs -/

theorem IsMultiple.neg {e k : ℤ} (h : t.IsMultiple y e k) : t.IsMultiple (-y) e (-k) where
  two_pow_le := by rw [abs_neg]; exact h.two_pow_le
  lt_two_pow := by rw [abs_neg]; exact h.lt_two_pow
  eq_mul := by rw [h.eq_mul]; push_cast; ring

theorem Holds.neg (h : t.Holds y) : t.Holds (-y) := by
  rcases h with rfl | ⟨hlt, e, k, hk⟩
  · exact .inl neg_zero
  · exact .inr ⟨by rwa [abs_neg], e, -k, hk.neg⟩

theorem HoldsEven.neg (h : t.HoldsEven y) : t.HoldsEven (-y) := by
  rcases h with rfl | ⟨e, k, heven, hk⟩
  · exact .inl neg_zero
  · exact .inr ⟨e, -k, heven.neg, hk.neg⟩

theorem IsNearest.neg (h : t.IsNearest r y) : t.IsNearest (-r) (-y) := by
  have hdist : ∀ z, |-r - z| = |r - -z| := fun z => by
    rw [← abs_neg]
    congr 1
    ring
  refine ⟨h.holds.neg, fun z hz => ?_, fun z hz hne htie => ?_⟩
  · rw [hdist, hdist, neg_neg]
    exact h.le (-z) hz.neg
  · rw [hdist, hdist, neg_neg] at htie
    exact (h.even (-z) hz.neg (fun heq => hne (by rw [← heq, neg_neg])) htie).neg

/-! ## Whole numbers near a rational one -/

theorem one_le_abs_add_abs {n j : ℤ} (hj : j ≠ n) : (1 : ℚ) ≤ |r - j| + |r - n| := by
  have hone : (1 : ℤ) ≤ |n - j| := Int.one_le_abs (by omega)
  calc (1 : ℚ) ≤ |(n : ℚ) - j| := by exact_mod_cast hone
    _ = |(r - j) - (r - n)| := by congr 1; ring
    _ ≤ |r - j| + |r - n| := abs_sub _ _

theorem abs_sub_le_of_half {n : ℤ} (h : |r - n| ≤ 1 / 2) (j : ℤ) : |r - n| ≤ |r - j| := by
  by_cases hj : j = n
  · rw [hj]
  · have := one_le_abs_add_abs (r := r) hj
    linarith

theorem eq_half_of_tie {n j : ℤ} (h : |r - n| ≤ 1 / 2) (hj : j ≠ n) (htie : |r - j| = |r - n|) :
    |r - n| = 1 / 2 := by
  have := one_le_abs_add_abs (r := r) hj
  linarith

/-- `nearestEven` is within half of the ratio. -/
theorem abs_div_sub_nearestEven_le (hd : 0 < d) :
    |(a : ℚ) / d - (nearestEven a d : ℤ)| ≤ 1 / 2 := by
  have hle : (2 * nearestEven a d * d : ℚ) ≤ 2 * a + d := by
    exact_mod_cast nearestEven_mul_le a d hd
  have hge : (2 * a : ℚ) ≤ 2 * nearestEven a d * d + d := by
    exact_mod_cast le_nearestEven_mul a d hd
  have hpos : (0 : ℚ) < d := by exact_mod_cast hd
  push_cast
  rw [abs_le]
  constructor
  · rw [le_sub_iff_add_le, le_div_iff₀ hpos]
    linarith
  · rw [sub_le_iff_le_add, div_le_iff₀ hpos]
    linarith

theorem even_nearestEven_of_half (hd : 0 < d)
    (h : |(a : ℚ) / d - (nearestEven a d : ℤ)| = 1 / 2) : Even (nearestEven a d) := by
  have hpos : (0 : ℚ) < d := by exact_mod_cast hd
  rw [Nat.even_iff]
  apply nearestEven_even_of_tie (a := a) hd
  push_cast at h
  rcases (abs_eq (by norm_num)).1 h with hup | hdown
  · right
    have : (a : ℚ) = (nearestEven a d + 1 / 2) * d := by
      rw [← div_eq_iff hpos.ne']
      linarith
    have : (2 * a : ℚ) = 2 * nearestEven a d * d + d := by linarith
    exact_mod_cast this
  · left
    have : (a : ℚ) = (nearestEven a d - 1 / 2) * d := by
      rw [← div_eq_iff hpos.ne']
      linarith
    have : (2 * nearestEven a d * d : ℚ) = 2 * a + d := by linarith
    exact_mod_cast this

/-! ## Units and numbers -/

theorem cast_two_pow (n : Nat) : ((2 ^ n : Nat) : ℚ) = 2 ^ (n : ℤ) := by
  rw [zpow_natCast]
  push_cast
  rfl

/-- A power of two of units. -/
theorem two_pow_mul_unit (n u : Nat) :
    ((2 ^ n : Nat) : ℚ) * 2 ^ (-(u : ℤ)) = 2 ^ ((n : ℤ) - u) := by
  rw [cast_two_pow, ← zpow_add₀ (by norm_num)]
  rfl

/-- The quantum of a binade is the depth of the grid there. -/
theorem Valid.quantum_eq (ht : t.Valid f) (n : Nat) :
    t.quantum ((n.log2 : ℤ) - f.unitExponent) = (t.grid f).depth n - f.unitExponent := by
  have hlow := ht.lowest_eq
  unfold quantum Grid.depth emin
  rw [grid_precision]
  omega

/-- Members of the grid are numbers of the target, but for the bound on their size. -/
theorem Valid.isMultiple_of_mem (ht : t.Valid f) {n c : Nat} (hne : n ≠ 0)
    (hc : n = c * 2 ^ (t.grid f).depth n) :
    t.IsMultiple (n * 2 ^ (-(f.unitExponent : ℤ))) ((n.log2 : ℤ) - f.unitExponent) c := by
  have hunit : (0 : ℚ) < 2 ^ (-(f.unitExponent : ℤ)) := by positivity
  have habs : |(n : ℚ) * 2 ^ (-(f.unitExponent : ℤ))| = n * 2 ^ (-(f.unitExponent : ℤ)) :=
    abs_of_nonneg (by positivity)
  refine ⟨?_, ?_, ?_⟩
  · rw [habs, ← two_pow_mul_unit]
    have : ((2 ^ n.log2 : Nat) : ℚ) ≤ n := by exact_mod_cast Nat.log2_self_le hne
    exact mul_le_mul_of_nonneg_right this hunit.le
  · rw [habs, show (n.log2 : ℤ) - f.unitExponent + 1 = ((n.log2 + 1 : Nat) : ℤ) - f.unitExponent by
      push_cast; ring, ← two_pow_mul_unit]
    have : (n : ℚ) < ((2 ^ (n.log2 + 1) : Nat) : ℚ) := by exact_mod_cast Nat.lt_log2_self
    exact mul_lt_mul_of_pos_right this hunit
  · rw [ht.quantum_eq, ← two_pow_mul_unit]
    conv_lhs => rw [hc]
    push_cast
    ring

theorem Valid.holds_of_mem (ht : t.Valid f) {n : Nat} (hn : (t.grid f).Mem n)
    (hlt : n < 2 ^ (t.top f + 1)) : t.Holds (n * 2 ^ (-(f.unitExponent : ℤ))) := by
  rcases Nat.eq_zero_or_pos n with rfl | hpos
  · exact .inl (by simp)
  · obtain ⟨c, -, hc⟩ := hn.exists_mul
    have hunit : (0 : ℚ) < 2 ^ (-(f.unitExponent : ℤ)) := by positivity
    refine .inr ⟨?_, _, c, ht.isMultiple_of_mem hpos.ne' hc⟩
    have htop := ht.top_eq
    rw [abs_of_nonneg (by positivity),
      show t.emax + 1 = ((t.top f + 1 : Nat) : ℤ) - f.unitExponent by push_cast; omega,
      ← two_pow_mul_unit]
    exact mul_lt_mul_of_pos_right (by exact_mod_cast hlt) hunit

/-- A rounded ratio that is an even number of its quanta is an even number of the target. -/
theorem Valid.holdsEven_round (ht : t.Valid f) (hd : 0 < d)
    (heven : Even (nearestEven a (d * 2 ^ (t.grid f).depth (a / d)))) :
    t.HoldsEven ((t.grid f).round a d * 2 ^ (-(f.unitExponent : ℤ))) := by
  have hprec := ht.one_le_precision
  rcases Nat.eq_zero_or_pos ((t.grid f).round a d) with hzero | hpos
  · exact .inl (by simp [hzero])
  right
  obtain ⟨c, -, hc⟩ := (Grid.mem_round (t.grid f) (a := a) hd).exists_mul
  refine ⟨_, c, ?_, ht.isMultiple_of_mem hpos.ne' hc⟩
  -- twice the quantum of the result still divides it
  have hdvd : 2 ^ ((t.grid f).depth ((t.grid f).round a d) + 1) ∣ (t.grid f).round a d := by
    by_cases hle : (t.grid f).depth ((t.grid f).round a d) ≤ (t.grid f).depth (a / d)
    · obtain ⟨m, hm⟩ := heven
      refine Nat.dvd_trans (Nat.pow_dvd_pow 2 (Nat.add_le_add_right hle 1)) ⟨m, ?_⟩
      conv_lhs => unfold Grid.round
      rw [hm, Nat.pow_succ]
      ring
    · -- a carry into a binade of a greater quantum
      rcases Grid.round_eq_or_depth_le (g := t.grid f) (a := a) hd with h | ⟨hl, heq⟩
      · exact absurd h hle
      · rw [heq] at hle ⊢
        unfold Grid.depth at hle ⊢
        rw [Nat.log2_two_pow, grid_precision] at hle ⊢
        exact Nat.pow_dvd_pow 2 (by omega)
  rw [Nat.pow_succ] at hdvd
  have hpow := Nat.two_pow_pos ((t.grid f).depth ((t.grid f).round a d))
  have hcdvd : 2 ^ (t.grid f).depth ((t.grid f).round a d) * 2 ∣
      2 ^ (t.grid f).depth ((t.grid f).round a d) * c := by
    rwa [Nat.mul_comm _ c, ← hc]
  have hc2 : Even c := even_iff_two_dvd.2 (Nat.dvd_of_mul_dvd_mul_left hpow hcdvd)
  exact_mod_cast hc2

/-! ## Rounding on the grid is correct rounding -/

/-- The ratio, counted in quanta of its own binade. -/
theorem ratio_eq_mul_quantum (a d k u : Nat) :
    (a : ℚ) / d * 2 ^ (-(u : ℤ)) = a / ((d * 2 ^ k : Nat) : ℚ) * 2 ^ ((k : ℤ) - u) := by
  have hpow : (2 : ℚ) ^ (k : ℤ) ≠ 0 := (zpow_pos (by norm_num) _).ne'
  rw [Nat.cast_mul, cast_two_pow, sub_eq_add_neg, zpow_add₀ (by norm_num)]
  field_simp

/-- A number of the target is a multiple of the quantum at the ratio, or is farther from the ratio
    than the start of its binade is. -/
theorem Valid.exists_mul_quantum_or_lt (ht : t.Valid f) (hd : 0 < d) (hz : t.Holds z) :
    (∃ j : ℤ, z = j * 2 ^ (((t.grid f).depth (a / d) : ℤ) - f.unitExponent)) ∨
      ∃ j : ℤ, |(a : ℚ) / d * 2 ^ (-(f.unitExponent : ℤ)) -
          j * 2 ^ (((t.grid f).depth (a / d) : ℤ) - f.unitExponent)| <
        |(a : ℚ) / d * 2 ^ (-(f.unitExponent : ℤ)) - z| := by
  rcases hz with rfl | ⟨-, e, k, hk⟩
  · exact .inl ⟨0, by simp⟩
  rw [← ht.quantum_eq]
  by_cases hle : t.quantum (((a / d).log2 : ℤ) - f.unitExponent) ≤ t.quantum e
  · -- a coarser quantum is a multiple of a finer one
    left
    obtain ⟨n, hn⟩ := Int.eq_ofNat_of_zero_le (Int.sub_nonneg_of_le hle)
    refine ⟨k * 2 ^ n, ?_⟩
    have hpow : ((2 : ℚ) ^ t.quantum e) =
        2 ^ n * 2 ^ t.quantum (((a / d).log2 : ℤ) - f.unitExponent) := by
      rw [← zpow_natCast, ← zpow_add₀ (by norm_num)]
      congr 1
      omega
    rw [hk.eq_mul, hpow]
    push_cast
    ring
  · -- a finer one belongs to numbers below the binade of the ratio
    right
    have hbelow : t.emin < ((a / d).log2 : ℤ) - f.unitExponent ∧
        e + 1 ≤ ((a / d).log2 : ℤ) - f.unitExponent := by
      unfold quantum at hle
      omega
    obtain ⟨n, hn⟩ : ∃ n : Nat, ((a / d).log2 : ℤ) - f.unitExponent =
        n + t.quantum (((a / d).log2 : ℤ) - f.unitExponent) :=
      ⟨t.precision, by unfold quantum; omega⟩
    have hunit : (0 : ℚ) < 2 ^ (-(f.unitExponent : ℤ)) := by positivity
    have hstart : ((2 ^ n : ℤ) : ℚ) * 2 ^ t.quantum (((a / d).log2 : ℤ) - f.unitExponent) =
        2 ^ (((a / d).log2 : ℤ) - f.unitExponent) := by
      conv_rhs => rw [hn]
      rw [zpow_add₀ (by norm_num), zpow_natCast]
      push_cast
      rfl
    refine ⟨2 ^ n, ?_⟩
    rw [hstart]
    have hlow := ht.lowest_eq
    have hemin : t.emin = 1 - t.emax := rfl
    have hda : d ≤ a := by
      by_contra hlt
      rw [Nat.div_eq_of_lt (by omega)] at hbelow
      simp at hbelow
      omega
    have hr : (2 : ℚ) ^ (((a / d).log2 : ℤ) - f.unitExponent) ≤
        a / d * 2 ^ (-(f.unitExponent : ℤ)) := by
      rw [← two_pow_mul_unit]
      apply mul_le_mul_of_nonneg_right _ hunit.le
      rw [le_div_iff₀ (by exact_mod_cast hd)]
      exact_mod_cast Grid.two_pow_mul_le hd hda
    have hzlt : z < 2 ^ (((a / d).log2 : ℤ) - f.unitExponent) :=
      calc z ≤ |z| := le_abs_self z
        _ < 2 ^ (e + 1) := hk.lt_two_pow
        _ ≤ _ := zpow_le_zpow_right₀ (by norm_num) hbelow.2
    rw [abs_of_nonneg (by linarith), abs_of_pos (by linarith)]
    linarith

/-- Rounding on the grid finds the nearest number of the target. -/
theorem Valid.isNearest_round (ht : t.Valid f) (hd : 0 < d)
    (hlt : (t.grid f).round a d < 2 ^ (t.top f + 1)) :
    t.IsNearest (a / d * 2 ^ (-(f.unitExponent : ℤ)))
      ((t.grid f).round a d * 2 ^ (-(f.unitExponent : ℤ))) := by
  have hD : 0 < d * 2 ^ (t.grid f).depth (a / d) := Nat.mul_pos hd (Nat.two_pow_pos _)
  have hhalf := abs_div_sub_nearestEven_le (a := a) hD
  have heven := even_nearestEven_of_half (a := a) hD
  have hq : (0 : ℚ) < 2 ^ (((t.grid f).depth (a / d) : ℤ) - f.unitExponent) := by positivity
  have hround : ((t.grid f).round a d : ℚ) * 2 ^ (-(f.unitExponent : ℤ)) =
      (nearestEven a (d * 2 ^ (t.grid f).depth (a / d)) : ℤ) *
        2 ^ (((t.grid f).depth (a / d) : ℤ) - f.unitExponent) := by
    rw [← two_pow_mul_unit]
    unfold Grid.round
    push_cast
    ring
  have hr := ratio_eq_mul_quantum a d ((t.grid f).depth (a / d)) f.unitExponent
  -- distances are counted in quanta
  have hdist : ∀ j : ℤ, |(a : ℚ) / d * 2 ^ (-(f.unitExponent : ℤ)) -
      j * 2 ^ (((t.grid f).depth (a / d) : ℤ) - f.unitExponent)| =
      |(a : ℚ) / ((d * 2 ^ (t.grid f).depth (a / d) : Nat) : ℚ) - j| *
        2 ^ (((t.grid f).depth (a / d) : ℤ) - f.unitExponent) := by
    intro j
    rw [hr, ← sub_mul, abs_mul, abs_of_pos hq]
  refine ⟨ht.holds_of_mem (Grid.mem_round _ hd) hlt, fun z hz => ?_, fun z hz hne htie => ?_⟩
  · rw [hround, hdist]
    rcases ht.exists_mul_quantum_or_lt (a := a) hd hz with ⟨j, rfl⟩ | ⟨j, hj⟩
    · rw [hdist]
      exact mul_le_mul_of_nonneg_right (abs_sub_le_of_half hhalf j) hq.le
    · apply le_of_lt (lt_of_le_of_lt _ hj)
      rw [hdist]
      exact mul_le_mul_of_nonneg_right (abs_sub_le_of_half hhalf j) hq.le
  · apply ht.holdsEven_round hd
    apply heven
    rcases ht.exists_mul_quantum_or_lt (a := a) hd hz with ⟨j, rfl⟩ | ⟨j, hj⟩
    · rw [hround, hdist, hdist] at htie
      refine eq_half_of_tie hhalf (fun hjn => hne ?_) (mul_right_cancel₀ hq.ne' htie)
      rw [hround, hjn]
    · -- a farther number is no tie
      exfalso
      have := mul_le_mul_of_nonneg_right (abs_sub_le_of_half hhalf j) hq.le
      rw [hround, hdist] at htie
      rw [hdist] at hj
      linarith

/-- The overflow bound is the point from which rounding on the grid leaves the last binade. -/
theorem Valid.overflowBound_le_iff (ht : t.Valid f) (hd : 0 < d) :
    t.overflowBound ≤ a / d * 2 ^ (-(f.unitExponent : ℤ)) ↔
      2 ^ (t.top f + 1) ≤ (t.grid f).round a d := by
  have hle := ht.lowest_add_precision_le
  have htop := ht.top_eq
  have hpos : (0 : ℚ) < d := by exact_mod_cast hd
  have hunit : (0 : ℚ) < 2 ^ (-(f.unitExponent : ℤ)) := by positivity
  rw [Grid.two_pow_le_round_iff hd (by simpa using hle), grid_precision]
  have hcast : (((2 ^ (t.precision + 2) - 1) * (d * 2 ^ (t.top f - t.precision)) : Nat) : ℚ) =
      2 * (t.overflowBound * d * 2 ^ (f.unitExponent : ℤ)) := by
    have hone : 1 ≤ 2 ^ (t.precision + 2) := Nat.two_pow_pos _
    have hexp : ((t.top f - t.precision : Nat) : ℤ) = t.emax + f.unitExponent - t.precision := by
      omega
    have hp : (2 : ℚ) ^ (t.precision : ℤ) ≠ 0 := (zpow_pos (by norm_num) _).ne'
    unfold overflowBound
    rw [Nat.cast_mul, Nat.cast_sub hone, Nat.cast_mul, cast_two_pow, cast_two_pow, hexp,
      Nat.cast_add, zpow_add₀ (by norm_num), zpow_sub₀ (by norm_num), zpow_add₀ (by norm_num),
      zpow_sub₀ (by norm_num), zpow_neg]
    field_simp
    norm_num
  have hinv : (2 : ℚ) ^ (-(f.unitExponent : ℤ)) = (2 ^ (f.unitExponent : ℤ))⁻¹ := zpow_neg _ _
  have hpow : (0 : ℚ) < 2 ^ (f.unitExponent : ℤ) := by positivity
  calc t.overflowBound ≤ a / d * 2 ^ (-(f.unitExponent : ℤ))
      ↔ t.overflowBound * d * 2 ^ (f.unitExponent : ℤ) ≤ a := by
        rw [hinv, ← div_eq_mul_inv, le_div_iff₀ hpow, le_div_iff₀ hpos]
        constructor <;> intro h <;> linarith
    _ ↔ 2 * (t.overflowBound * d * 2 ^ (f.unitExponent : ℤ)) ≤ 2 * (a : ℚ) := by
        constructor <;> intro h <;> linarith
    _ ↔ _ := by
        rw [← hcast]
        norm_cast

/-- Rounding a ratio of units to a target gives the correct rounding of the number that the ratio
    stands for. -/
theorem Valid.rounds_nearest (ht : t.Valid f) (hd : 0 < d) (s : Bool) :
    t.Rounds (Binary.scaled f s (a / d)) (t.nearest f s a d) := by
  have hsize : (0 : ℚ) ≤ (a : ℚ) / d := by positivity
  have hunit : (0 : ℚ) < 2 ^ (-(f.unitExponent : ℤ)) := by positivity
  refine ⟨fun hbig => ?_, fun hsmall => ?_, fun hne => ?_⟩
  · rw [Binary.abs_scaled s hsize, ht.overflowBound_le_iff hd] at hbig
    unfold nearest
    rw [if_pos hbig]
    exact Binary.isInfinite_infinity
  · rw [Binary.abs_scaled s hsize, ← not_le, ht.overflowBound_le_iff hd, Nat.not_le] at hsmall
    obtain ⟨hfin, hunits⟩ := ht.absUnits_nearest (s := s) hd hsmall
    have hpos := ht.isNearest_round hd hsmall
    refine ⟨hfin, ?_⟩
    rw [Binary.toRat_eq_scaled, negative_nearest, hunits]
    cases s
    · simpa [Binary.scaled] using hpos
    · rw [Binary.scaled_true, Binary.scaled_true]
      apply IsNearest.neg
      simpa [Binary.scaled] using hpos
  · rw [negative_nearest]
    unfold Binary.scaled at hne ⊢
    have hsize' : (a : ℚ) / d ≠ 0 := by
      rintro h
      simp [h] at hne
    have hpos : (0 : ℚ) < (a : ℚ) / d := lt_of_le_of_ne hsize hsize'.symm
    cases s
    · simp only [Bool.false_eq_true, if_false, false_iff, not_lt]
      positivity
    · simp only [if_true, true_iff]
      exact mul_neg_of_neg_of_pos (by linarith) hunit

end Target

end VariablePrecision
