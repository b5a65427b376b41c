/-
  VariablePrecision.Proofs.Json.Number

  Natural numbers are written as number tokens, and read back where the token ends.
-/

import VariablePrecision.Json.Number
import VariablePrecision.Proofs.Json.Value

namespace VariablePrecision.Json

/-! ## Digits -/

variable {ds : List Char}

theorem digits_zero : Digits ['0'] := ⟨List.cons_ne_nil _ _, by simp⟩

theorem Digits.of_subset {ds' : List Char} (h : Digits ds) (hne : ds' ≠ []) (hsub : ds' ⊆ ds) :
    Digits ds' := ⟨hne, fun c hc => h.2 c (hsub hc)⟩

theorem Digits.append_zeros (h : Digits ds) (n : Nat) : Digits (ds ++ List.replicate n '0') := by
  refine ⟨by simp [h.1], fun c hc => ?_⟩
  rcases List.mem_append.1 hc with hc | hc
  · exact h.2 c hc
  · rw [List.eq_of_mem_replicate hc]
    decide

theorem Digits.zeros_append (h : Digits ds) (n : Nat) : Digits (List.replicate n '0' ++ ds) :=
  (h.append_zeros n).of_subset (by simp [h.1]) (by simp)

/-! ## Written digits -/

theorem digits_digitChars (n : Nat) : Digits (Decimal.digitChars n) :=
  ⟨Nat.toDigits_ne_nil, fun _ => Nat.isDigit_of_mem_toDigits (by decide) (by decide)⟩

theorem digitChars_eq_zero_of_head {n : Nat} (h : (Decimal.digitChars n).head? = some '0') :
    n = 0 := by
  unfold Decimal.digitChars at h
  induction n using Nat.strongRecOn with
  | ind n ih =>
    rw [Nat.toDigits_eq_if (by decide)] at h
    split at h
    · simpa using h
    · next hn =>
      -- the digits of a larger number start with those of its tenth, which is not zero
      obtain ⟨d, ds, hds⟩ :=
        List.exists_cons_of_ne_nil (Nat.toDigits_ne_nil (n := n / 10) (b := 10))
      have htenth := ih (n / 10) (by omega)
      rw [hds] at h htenth
      have := htenth h
      omega

theorem wholePart_digitChars (n : Nat) : WholePart (Decimal.digitChars n) := by
  refine ⟨digits_digitChars n, fun h => ?_⟩
  rw [digitChars_eq_zero_of_head h]
  rfl

theorem numberToken_digitChars (n : Nat) : NumberToken (Decimal.digitChars n) :=
  ⟨[], _, [], [], by simp, wholePart_digitChars n, .inl rfl, .inl rfl, by simp⟩

/-! ## Read digits -/

/-- No digit, point or exponent mark follows the end of a value. -/
theorem Ends.head_ne {c : Char} {rest : List Char} (h : Ends (c :: rest)) :
    c.isDigit = false ∧ c ≠ '.' ∧ c ≠ 'e' ∧ c ≠ 'E' := by
  have hc := h c rfl
  simp only [isBlank, Bool.or_eq_true, decide_eq_true_eq] at hc
  rcases hc with (((rfl | rfl) | rfl) | rfl) | rfl | rfl | rfl <;> decide

/-- What may follow a value starts with no digit. -/
theorem Ends.head_not_digit {rest : List Char} (h : Ends rest) :
    ∀ c ∈ rest.head?, c.isDigit = false := by
  cases rest with
  | nil => simp
  | cons c rest => simpa using h.head_ne.1

theorem takeWhile_digits {ds rest : List Char} (h : Digits ds)
    (hr : ∀ c ∈ rest.head?, c.isDigit = false) : (ds ++ rest).takeWhile Char.isDigit = ds := by
  rw [List.takeWhile_append_of_pos h.2]
  cases rest with
  | nil => simp
  | cons c rest => rw [List.takeWhile_cons_of_neg (by simp [hr c rfl]), List.append_nil]

theorem dropWhile_digits {ds rest : List Char} (h : Digits ds)
    (hr : ∀ c ∈ rest.head?, c.isDigit = false) : (ds ++ rest).dropWhile Char.isDigit = rest := by
  rw [List.dropWhile_append_of_pos h.2]
  cases rest with
  | nil => rfl
  | cons c rest => rw [List.dropWhile_cons_of_neg (by simp [hr c rfl])]

/-- A leading zero stands alone, so what follows it is no digit. -/
theorem WholePart.lone_zero {c : Char} {ds rest : List Char} (h : WholePart (c :: ds))
    (hr : ∀ c ∈ rest.head?, c.isDigit = false) :
    (c = '0' && (ds ++ rest).head?.any Char.isDigit) = false := by
  by_cases h0 : c = '0'
  · obtain rfl : ds = [] := by simpa [h0] using h.2
    cases rest with
    | nil => simp
    | cons d rest => simp [hr d rfl]
  · simp [h0]

theorem le_ofDigitChars (n : Nat) (ds : List Char) : n ≤ Nat.ofDigitChars 10 ds n := by
  induction ds generalizing n with
  | nil => exact Nat.le_of_eq Nat.ofDigitChars_nil.symm
  | cons d ds ih =>
    rw [Nat.ofDigitChars_cons]
    exact Nat.le_trans (by omega) (ih _)

/-- Digits are all absorbed when their number fits 64 bits. -/
theorem absorbDigits_eq {n : Nat} {ds : List Char}
    (h : Nat.ofDigitChars 10 ds n < UInt64.size) :
    absorbDigits n ds = (Nat.ofDigitChars 10 ds n, 0) := by
  induction ds generalizing n with
  | nil =>
    rw [Nat.ofDigitChars_nil]
    rfl
  | cons d ds ih =>
    rw [Nat.ofDigitChars_cons] at h ⊢
    have hlt : 10 * n + digitValue d < UInt64.size := Nat.lt_of_le_of_lt (le_ofDigitChars _ ds) h
    show (if 10 * n + digitValue d < UInt64.size then _ else _) = _
    rw [if_pos hlt]
    exact ih h

/-- A written natural number of 64 bits is read as an exact integer. -/
theorem readNumber_digitChars {n : Nat} (hn : n < UInt64.size) {rest : List Char}
    (hr : Ends rest) :
    readNumber false (Decimal.digitChars n ++ rest) = .ok (.integer n, rest) := by
  have hdigits := digits_digitChars n
  have hvalue : Nat.ofDigitChars 10 (Decimal.digitChars n) 0 = n :=
    Nat.ofDigitChars_ten_toDigits
  have habsorb : absorbDigits 0 (Decimal.digitChars n) = (n, 0) := by
    rw [absorbDigits_eq (by rwa [hvalue]), hvalue]
  have htake := takeWhile_digits hdigits hr.head_not_digit
  have hdrop := dropWhile_digits hdigits hr.head_not_digit
  have hwhole := wholePart_digitChars n
  obtain ⟨c, ds, hcs⟩ := List.exists_cons_of_ne_nil hdigits.1
  have hc : c.isDigit := hdigits.2 c (hcs ▸ List.mem_cons_self)
  rw [hcs] at hwhole habsorb htake hdrop ⊢
  rw [List.cons_append] at htake hdrop ⊢
  have hlead := hwhole.lone_zero hr.head_not_digit
  rw [readNumber, hlead, hc, htake, hdrop, habsorb]
  cases rest with
  | nil => rfl
  | cons d rest =>
    obtain ⟨-, hpoint, he, hE⟩ := hr.head_ne
    simp only [Bool.not_true, Bool.or_self, Bool.false_eq_true, if_false]
    split
    · next heq => exact absurd (List.cons.inj heq).1 hpoint
    · simp [he, hE, signedNumber]

end VariablePrecision.Json
