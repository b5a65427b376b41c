/-
  VariablePrecision.Proofs.Decimal.Numeral

  What the written numbers stand for.

  A `Numeral` relates characters to the number that they are in ordinary decimal writing,
  with a point and with an exponent or without.  `NumeralOf` says that a text is that of a
  value: it stands for a number, and the value is the correct rounding of that number.
  Every decimal notation writes texts that do so (`numeralOf_chars`).
-/

import VariablePrecision.Proofs.Decimal.Shortest
import VariablePrecision.Proofs.Json.Number

namespace VariablePrecision.Decimal

open Json (Digits WholePart NumberToken digits_zero digits_digitChars digitChars_eq_zero_of_head)

/-! ## Decimal writing -/

/-- The number that digits are, most significant digit first. -/
def digitsValue (ds : List Char) : Nat := Nat.ofDigitChars 10 ds 0

/-- A point with decimal places, or nothing. -/
inductive Fraction : List Char → List Char → Prop
  | none : Fraction [] []
  | some {places : List Char} (h : Digits places) : Fraction ('.' :: places) places

/-- An exponent with its mark and perhaps a sign, or nothing. -/
inductive Exponent : List Char → ℤ → Prop
  | none : Exponent [] 0
  | unsigned {ds : List Char} (h : Digits ds) : Exponent ('e' :: ds) (digitsValue ds)
  | plus {ds : List Char} (h : Digits ds) : Exponent ('e' :: '+' :: ds) (digitsValue ds)
  | minus {ds : List Char} (h : Digits ds) : Exponent ('e' :: '-' :: ds) (-digitsValue ds)

/-- A number in decimal writing, without a sign. -/
inductive Numeral : List Char → ℚ → Prop
  | mk {whole fraction places exponent : List Char} {e : ℤ} (hw : WholePart whole)
      (hf : Fraction fraction places) (he : Exponent exponent e) :
      Numeral (whole ++ fraction ++ exponent)
        (digitsValue (whole ++ places) * 10 ^ (e - places.length))

/-- A text for a finite value: a numeral of which the value is the correct rounding, behind a
    minus sign if the sign of the value is set. -/
def NumeralOf {f : Format} (x : Binary f) (cs : List Char) : Prop :=
  ∃ body r, cs = (if x.negative then ['-'] else []) ++ body ∧ Numeral body r ∧
    (Target.native f).Rounds (if x.negative then -r else r) x

variable {cs ds : List Char} {r : ℚ} {e : ℤ} {D : Decimal}

/-! ## Numerals are tokens -/

theorem Fraction.fractionPart {places : List Char} (h : Fraction cs places) :
    Json.FractionPart cs := by
  cases h with
  | none => exact .inl rfl
  | some h => exact .inr ⟨_, h, rfl⟩

theorem Exponent.exponentPart (h : Exponent cs e) : Json.ExponentPart cs := by
  cases h with
  | none => exact .inl rfl
  | unsigned h => exact .inr ⟨'e', [], _, .inl rfl, by simp, h, rfl⟩
  | plus h => exact .inr ⟨'e', ['+'], _, .inl rfl, by simp, h, rfl⟩
  | minus h => exact .inr ⟨'e', ['-'], _, .inl rfl, by simp, h, rfl⟩

theorem NumeralOf.numberToken {f : Format} {x : Binary f} (h : NumeralOf x cs) :
    NumberToken cs := by
  obtain ⟨body, r, rfl, ⟨hw, hf, he⟩, -⟩ := h
  refine ⟨if x.negative then ['-'] else [], _, _, _, ?_, hw, hf.fractionPart,
    he.exponentPart, ?_⟩
  · split <;> simp
  · simp [List.append_assoc]

/-! ## Digits -/

@[simp] theorem digitsValue_digitChars (n : Nat) : digitsValue (digitChars n) = n :=
  Nat.ofDigitChars_ten_toDigits

theorem digitsValue_append_zeros (ds : List Char) (n : Nat) :
    digitsValue (ds ++ List.replicate n '0') = digitsValue ds * 10 ^ n := by
  rw [digitsValue, Nat.ofDigitChars_append, Nat.ofDigitChars_replicate_zero, Nat.mul_comm]
  rfl

theorem digitsValue_zeros_append (ds : List Char) (n : Nat) :
    digitsValue (List.replicate n '0' ++ ds) = digitsValue ds := by
  rw [digitsValue, Nat.ofDigitChars_append, Nat.ofDigitChars_replicate_zero, Nat.mul_zero]
  rfl

/-! ## Notations -/

/-- With a point the digits stay the same, and the places behind it are counted. -/
theorem numeral_of_places {whole places : List Char} (hw : WholePart whole) (hp : Digits places)
    (hvalue : digitsValue (whole ++ places) = D.digits)
    (hplaces : (places.length : ℤ) = -D.exponent) :
    Numeral (whole ++ '.' :: places) D.toRat := by
  have h := Numeral.mk hw (.some hp) .none
  rwa [List.append_nil, hvalue, hplaces, zero_sub, neg_neg] at h

/-- A whole number has its zeros, and the digit zero behind the point. -/
theorem numeral_of_exponent_nonneg (h : D.digits = 0 → D.exponent = 0) (he : 0 ≤ D.exponent) :
    Numeral (digitChars D.digits ++ List.replicate D.exponent.toNat '0' ++ ['.', '0']) D.toRat := by
  have hdigits := digits_digitChars D.digits
  have hw : WholePart (digitChars D.digits ++ List.replicate D.exponent.toNat '0') := by
    refine ⟨hdigits.append_zeros _, fun hhead => ?_⟩
    -- only the digits of zero start with a zero, and zero has no exponent to be filled up
    rw [List.head?_append_of_ne_nil _ hdigits.1] at hhead
    have hdigit := digitChars_eq_zero_of_head hhead
    rw [h hdigit, hdigit]
    rfl
  have hnumeral := Numeral.mk hw (.some digits_zero) .none
  have hvalue : digitsValue (digitChars D.digits ++ List.replicate D.exponent.toNat '0' ++ ['0']) =
      D.digits * 10 ^ (D.exponent.toNat + 1) := by
    have := digitsValue_append_zeros (digitChars D.digits) (D.exponent.toNat + 1)
    rwa [List.replicate_succ', ← List.append_assoc, digitsValue_digitChars] at this
  have hrat : ((D.digits * 10 ^ (D.exponent.toNat + 1) : Nat) : ℚ) * 10 ^ ((0 : ℤ) - 1) =
      D.toRat := by
    have hten : (10 : ℚ) ^ D.exponent = 10 ^ D.exponent.toNat := by
      rw [← zpow_natCast, Int.toNat_of_nonneg he]
    rw [toRat, hten, Nat.cast_mul, Nat.cast_pow, pow_succ]
    norm_num
    ring
  rw [hvalue, List.append_nil] at hnumeral
  rw [← hrat]
  exact hnumeral

/-- If there are not enough digits for the places, the first ones are zeros. -/
theorem numeral_of_length_le (he : D.exponent < 0)
    (hlen : (digitChars D.digits).length ≤ D.exponent.natAbs) :
    Numeral (['0'] ++ '.' :: (List.replicate (D.exponent.natAbs - (digitChars D.digits).length) '0'
      ++ digitChars D.digits)) D.toRat := by
  refine numeral_of_places ⟨digits_zero, fun _ => rfl⟩
    ((digits_digitChars D.digits).zeros_append _) ?_ ?_
  · rw [← List.append_assoc]
    exact (digitsValue_zeros_append _ (_ + 1)).trans (digitsValue_digitChars _)
  · rw [List.length_append, List.length_replicate]
    omega

/-- Otherwise the point stands among the digits. -/
theorem numeral_of_lt_length (h : D.digits = 0 → D.exponent = 0) (he : D.exponent < 0)
    (hlen : D.exponent.natAbs < (digitChars D.digits).length) :
    let n := (digitChars D.digits).length - D.exponent.natAbs
    Numeral ((digitChars D.digits).take n ++ '.' :: (digitChars D.digits).drop n) D.toRat := by
  intro n
  have hdigits := digits_digitChars D.digits
  refine numeral_of_places
    ⟨hdigits.of_subset (List.ne_nil_of_length_pos ?_) (List.take_subset _ _), fun hhead => ?_⟩
    (hdigits.of_subset (List.ne_nil_of_length_pos ?_) (List.drop_subset _ _)) ?_ ?_
  · rw [List.length_take]
    omega
  · rw [List.head?_take, if_neg (by omega)] at hhead
    have := h (digitChars_eq_zero_of_head hhead)
    omega
  · rw [List.length_drop]
    omega
  · rw [List.take_append_drop, digitsValue_digitChars]
  · rw [List.length_drop]
    omega

theorem numeral_positional (h : D.digits = 0 → D.exponent = 0) :
    Numeral (Notation.positional D) D.toRat := by
  unfold Notation.positional
  dsimp only
  split
  · next he => exact numeral_of_exponent_nonneg h he
  · split
    · next he hlen => simpa using numeral_of_length_le (by omega) hlen
    · next he hlen => simpa using numeral_of_lt_length h (by omega) (by omega)

theorem exponent_exponentMark (n : Notation) (e : ℤ) :
    Exponent (n.exponentMark e ++ digitChars e.natAbs) e := by
  have hdigits := digits_digitChars e.natAbs
  unfold Notation.exponentMark
  rcases Int.lt_or_le e 0 with he | he
  · have hvalue : -(e.natAbs : ℤ) = e := by omega
    rw [if_pos he]
    have h := Exponent.minus hdigits
    rwa [digitsValue_digitChars, hvalue] at h
  · have hvalue : (e.natAbs : ℤ) = e := Int.natAbs_of_nonneg he
    rw [if_neg (by omega)]
    cases n.exponentPlus
    · have h := Exponent.unsigned hdigits
      rwa [digitsValue_digitChars, hvalue] at h
    · have h := Exponent.plus hdigits
      rwa [digitsValue_digitChars, hvalue] at h

theorem numeral_scientific (n : Notation) (D : Decimal) :
    Numeral (n.scientific D).flatten D.toRat := by
  have hdigits := digits_digitChars D.digits
  obtain ⟨c, places, hcs⟩ := List.exists_cons_of_ne_nil hdigits.1
  have hvalue : digitsValue (c :: places) = D.digits := by rw [← hcs, digitsValue_digitChars]
  have hw : WholePart [c] :=
    ⟨hdigits.of_subset (by simp) (by simp [hcs]), fun h => by simpa using h⟩
  have hf : Fraction (if places.isEmpty then [] else '.' :: places) places := by
    cases places with
    | nil => exact .none
    | cons d ds => exact .some (hdigits.of_subset (by simp) (by simp [hcs]))
  have h := Numeral.mk hw hf (exponent_exponentMark n (D.exponent + (c :: places).length - 1))
  have hexp : D.exponent + ((c :: places).length : ℤ) - 1 - places.length = D.exponent := by
    rw [List.length_cons]
    push_cast
    ring
  rw [hexp] at h
  have hflat : (n.scientific D).flatten = [c] ++ (if places.isEmpty then [] else '.' :: places) ++
      (n.exponentMark (D.exponent + (c :: places).length - 1) ++
        digitChars (D.exponent + (c :: places).length - 1).natAbs) := by
    unfold Notation.scientific
    rw [hcs]
    cases places <;> simp
  rw [hflat, toRat, ← hvalue]
  exact h

theorem numeral_decimalParts (n : Notation) (h : D.digits = 0 → D.exponent = 0) :
    Numeral (n.decimalParts D).flatten D.toRat := by
  unfold Notation.decimalParts
  dsimp only
  split
  · simpa using numeral_positional h
  · split
    · simpa using numeral_scientific n D
    · exact numeral_scientific n D

/-- Every notation writes a text of the value. -/
theorem numeralOf_chars {f : Format} (n : Notation) {x : Binary f} (hx : x.isFinite) :
    NumeralOf x (n.chars x) := by
  refine ⟨_, _, ?_, numeral_decimalParts n exponent_shortest, rounds_shortest hx n.tie⟩
  unfold Notation.chars Notation.parts
  rw [Binary.isNaN_eq_false hx, Binary.isInfinite_eq_false hx]
  cases x.negative <;> simp

end VariablePrecision.Decimal
