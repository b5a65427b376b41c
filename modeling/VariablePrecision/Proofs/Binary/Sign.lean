/-
  VariablePrecision.Proofs.Binary.Sign

  Rounding and arithmetic under a change of sign.

  Rounding never asks for the sign of a value.  It only puts it back on its result, on every
  branch, so that a value with another sign is rounded to the same result with that sign: each
  function of the rounding has one lemma that says so (`round_withSign`, `clamp_withSign`).

  Products and quotients take the signs of their operands together once.  Sums do not: an exact
  zero is negative only if both terms are, so the sum of the opposite values is the opposite of
  the sum up to the sign of a zero (`neg_add_neg`).  A quiet not-a-number always has the same
  sign and has to be left out.
-/

import VariablePrecision.Operation
import VariablePrecision.Proofs.Binary.Monotone
import VariablePrecision.Proofs.Binary.Sum

namespace VariablePrecision.Binary

variable {f : Format} {x y z : Binary f} {s s' : Bool}

/-! ## Signs -/

theorem neg_eq_withSign (x : Binary f) : -x = x.withSign (!x.negative) := rfl

@[simp] theorem negative_neg : (-x).negative = !x.negative := rfl

@[simp] theorem isNaN_neg : (-x).isNaN = x.isNaN := rfl

@[simp] theorem isInfinite_neg : (-x).isInfinite = x.isInfinite := rfl

@[simp] theorem negative_withSign : (x.withSign s).negative = s := rfl

@[simp] theorem isFinite_withSign : (x.withSign s).isFinite = x.isFinite := rfl

@[simp] theorem isInfinite_withSign : (x.withSign s).isInfinite = x.isInfinite := rfl

@[simp] theorem isNaN_withSign : (x.withSign s).isNaN = x.isNaN := rfl

@[simp] theorem isZero_withSign : (x.withSign s).isZero = x.isZero := rfl

@[simp] theorem exponent_withSign : (x.withSign s).exponent = x.exponent := rfl

@[simp] theorem absUnits_withSign : (x.withSign s).absUnits = x.absUnits := rfl

@[simp] theorem significand_withSign : (x.withSign s).significand = x.significand := rfl

@[simp] theorem category_withSign : (x.withSign s).category = x.category := rfl

/-- Values are equal if both are numbers of as many units. -/
theorem oeq_iff :
    Predicate.oeq.evaluate x y = true ↔
      x.isNaN = false ∧ y.isNaN = false ∧ x.units = y.units := by
  have hrank : x.rank = y.rank ↔ x.units = y.units := by
    rw [le_antisymm_iff, rank_le_rank_iff, rank_le_rank_iff, ← le_antisymm_iff]
  rw [← hrank, Predicate.evaluate, compare]
  cases hx : x.isNaN with
  | true => simp [Predicate.accepts]
  | false =>
    cases hy : y.isNaN with
    | true => simp [Predicate.accepts]
    | false => simp [Predicate.accepts]

/-- Opposite values and any two zeros are equal up to the sign of one of them. -/
theorem oeq_neg (hz : z.isNaN = false) (h : x = -z ∨ x.isZero ∧ z.isZero) :
    Predicate.oeq.evaluate x (-z) = true := by
  rw [oeq_iff, isNaN_neg, units_neg]
  rcases h with rfl | ⟨hx, hzero⟩
  · exact ⟨hz, hz, units_neg z⟩
  · rw [isZero_iff, ← natAbs_units] at hx hzero
    have hfinite : x.isFinite := by
      rw [isFinite_iff, ← natAbs_units, hx]
      exact Nat.two_pow_pos _
    exact ⟨isNaN_eq_false hfinite, hz, by omega⟩

/-! ## Rounding -/

theorem roundToQuantum_withSign (x : Binary f) (s : Bool) (quantum : Int) :
    (x.withSign s).roundToQuantum quantum = (x.roundToQuantum quantum).withSign s := by
  unfold roundToQuantum
  rw [significand_withSign]
  dsimp only
  split_ifs <;> rfl

theorem roundSubnormal_withSign (x : Binary f) (s : Bool) (emin : Int) (precision : Nat)
    (policy : ErrorPolicy) :
    (x.withSign s).roundSubnormal emin precision policy =
      (x.roundSubnormal emin precision policy).withSign s := by
  unfold roundSubnormal
  rw [isFinite_withSign, roundDenormal, roundToQuantum_withSign]
  exact (apply_ite (withSign · s) _ _ _).symm

theorem roundAbsolute_withSign (x : Binary f) (s : Bool) (precision : Nat)
    (policy : ErrorPolicy) :
    (x.withSign s).roundAbsolute precision policy =
      (x.roundAbsolute precision policy).withSign s := by
  unfold roundAbsolute roundNormal
  dsimp only
  rw [exponent_withSign, roundToQuantum_withSign]
  -- the value vanishes, becomes the bound, or keeps some of its bits
  split_ifs <;> rfl

theorem round_withSign (x : Binary f) (s : Bool) (precision : Nat) (policy : ErrorPolicy) :
    (x.withSign s).round precision policy = (x.round precision policy).withSign s := by
  unfold round roundNormal
  rw [category_withSign, roundSubnormal_withSign, roundAbsolute_withSign, exponent_withSign,
    roundToQuantum_withSign]
  cases x.category with
  | nan => rfl
  | infinite => rfl
  | zero => rfl
  | subnormal => rfl
  | normal => exact (apply_ite (withSign · s) _ _ _).symm

/-- Clamping only hands the sign on. -/
theorem clamp_withSign (x : Binary f) (s : Bool) (side : Side) (t : Target) (ctx : Context) :
    (x.withSign s).clamp side t ctx = (x.clamp side t ctx).withSign s := by
  unfold clamp
  rw [isFinite_withSign, isZero_withSign, exponent_withSign, roundSubnormal_withSign,
    round_withSign, ← apply_ite (withSign · s)]
  generalize (if x.exponent < t.emin then _ else _) = rounded
  dsimp only
  rw [isFinite_withSign, exponent_withSign]
  split_ifs <;> rfl

theorem clamp_neg (x : Binary f) (side : Side) (t : Target) (ctx : Context) :
    (-x).clamp side t ctx = -x.clamp side t ctx := by
  rw [neg_eq_withSign, clamp_withSign, neg_eq_withSign, negative_clamp]

/-- A clamped value that is a number was one before. -/
theorem isNaN_eq_false_of_clamp {side : Side} {t : Target} {ctx : Context}
    (h : (x.clamp side t ctx).isNaN = false) : x.isNaN = false := by
  cases hx : x.isFinite with
  | true => exact isNaN_eq_false hx
  | false => rwa [clamp_of_special (.inl hx)] at h

/-! ## Products and quotients -/

@[simp] theorem isNaN_nan (f : Format) : (nan f).isNaN = true := by
  cases f <;> rfl

/-- A product takes the signs of its factors together. -/
theorem mul_withSign (h : (x * y).isNaN = false) (s s' : Bool) :
    x.withSign s * y.withSign s' = (x * y).withSign (s != s') := by
  revert h
  change (mul x y).isNaN = false → mul (x.withSign s) (y.withSign s') = (mul x y).withSign _
  unfold mul
  dsimp only
  -- `rw` and not `simp`, so that the decisions of both sides stay the same
  rw [isNaN_withSign, isNaN_withSign, isInfinite_withSign, isInfinite_withSign, isZero_withSign,
    isZero_withSign, absUnits_withSign, absUnits_withSign, negative_withSign, negative_withSign]
  split_ifs <;> intro h
  · simp at h
  · simp at h
  · rfl
  · rfl

/-- A quotient takes the signs of its operands together. -/
theorem div_withSign (h : (x / y).isNaN = false) (s s' : Bool) :
    x.withSign s / y.withSign s' = (x / y).withSign (s != s') := by
  revert h
  change (div x y).isNaN = false → div (x.withSign s) (y.withSign s') = (div x y).withSign _
  unfold div
  dsimp only
  rw [isNaN_withSign, isNaN_withSign, isInfinite_withSign, isInfinite_withSign, isZero_withSign,
    isZero_withSign, absUnits_withSign, absUnits_withSign, negative_withSign, negative_withSign]
  split_ifs <;> intro h
  · simp at h
  · simp at h
  · rfl
  · rfl
  · simp at h
  · rfl
  · rfl

theorem apply_withSign {op : Operation} (hop : op = .mul ∨ op = .div)
    (h : (op.apply x y).isNaN = false) (s s' : Bool) :
    op.apply (x.withSign s) (y.withSign s') = (op.apply x y).withSign (s != s') := by
  rcases hop with rfl | rfl
  · exact mul_withSign h s s'
  · exact div_withSign h s s'

/-- Where the signs of two operands are taken together, each of them changes the outcome alone. -/
theorem neg_of_withSign {g : Binary f → Binary f → Binary f}
    (h : ∀ s s', g (x.withSign s) (y.withSign s') = (g x y).withSign (s != s')) :
    g (-x) y = -g x y ∧ g x (-y) = -g x y := by
  have hsign : (g x y).negative = (x.negative != y.negative) :=
    congrArg negative (h x.negative y.negative)
  constructor
  · rw [neg_eq_withSign (g x y), hsign, ← Bool.not_bne]
    exact h (!x.negative) y.negative
  · rw [neg_eq_withSign (g x y), hsign, ← Bool.bne_not]
    exact h x.negative (!y.negative)

/-! ## Sums and differences -/

/-- Away from zero the sign of a rounded sum is that of the exact sum. -/
theorem nearestSum_neg {n : ℤ} (hn : n ≠ 0) (d : Nat) (s s' : Bool) :
    nearestSum f (-n) d s = -nearestSum f n d s' := by
  have hsign : decide (-n < 0) = !decide (n < 0) := by
    rw [← decide_not, decide_eq_decide]
    omega
  rw [nearestSum, nearestSum, if_neg (by omega), if_neg hn, hsign, Int.natAbs_neg]
  rfl

theorem isZero_nearestSum_zero (d : Nat) (s : Bool) : (nearestSum f 0 d s).isZero := by
  rw [nearestSum, if_pos rfl, isZero_iff, absUnits_zero]

/-- The sum of the opposite values is the opposite sum, or both sums are zero. -/
theorem neg_add_neg (h : (x + y).isNaN = false) :
    -x + -y = -(x + y) ∨ (-x + -y).isZero ∧ (x + y).isZero := by
  revert h
  change (add x y).isNaN = false →
    add (-x) (-y) = -add x y ∨ (add (-x) (-y)).isZero ∧ (add x y).isZero
  unfold add
  rw [isNaN_neg, isNaN_neg, isInfinite_neg, isInfinite_neg, negative_neg, negative_neg,
    Bool.not_bne_not, units_neg, units_neg, ← Int.neg_add]
  split_ifs <;> intro h
  · simp at h
  · simp at h
  · exact .inl rfl
  · exact .inl rfl
  · rcases eq_or_ne (x.units + y.units) 0 with hzero | hne
    · rw [hzero]
      exact .inr ⟨isZero_nearestSum_zero _ _, isZero_nearestSum_zero _ _⟩
    · exact .inl (nearestSum_neg hne _ _ _)

/-- The same holds of a difference, which is a sum. -/
theorem apply_neg_neg {op : Operation} (hop : op = .add ∨ op = .sub)
    (h : (op.apply x y).isNaN = false) :
    op.apply (-x) (-y) = -op.apply x y ∨
      (op.apply (-x) (-y)).isZero ∧ (op.apply x y).isZero := by
  rcases hop with rfl | rfl
  · exact neg_add_neg h
  · exact neg_add_neg (y := -y) h

end VariablePrecision.Binary
