/-
  VariablePrecision.Proofs.Rounding.NearestEven

  The laws of `nearestEven`, the rounding of a ratio `a / d` to a natural number.
  All of them follow from one characterization: the result is within half of the
  ratio, and it is even if it is exactly half away.  From it come exactness on whole
  ratios, independence of the way the ratio is written, and monotonicity.

  All comparisons are doubled and cleared of denominators: "within half" reads
  `2 * n * d ≤ 2 * a + d` and `2 * a ≤ 2 * n * d + d`.
-/

import VariablePrecision.Binary.Rounding
import Mathlib.Tactic.Linarith
import Mathlib.Tactic.Ring

namespace VariablePrecision

variable {a d n : Nat}

/-! ## Characterization -/

/-- The result is at most half above the ratio. -/
theorem nearestEven_mul_le (a d : Nat) (hd : 0 < d) :
    2 * nearestEven a d * d ≤ 2 * a + d := by
  have hdiv := Nat.div_add_mod a d
  have hmod := Nat.mod_lt a hd
  unfold nearestEven
  dsimp only
  split
  -- rounded up, at least half was missing; rounded down, nothing is added
  · rename_i h
    have : 2 * (a / d + 1) * d = 2 * (d * (a / d)) + 2 * d := by ring
    omega
  · have : 2 * (a / d) * d = 2 * (d * (a / d)) := by ring
    omega

/-- The result is at most half below the ratio. -/
theorem le_nearestEven_mul (a d : Nat) (hd : 0 < d) :
    2 * a ≤ 2 * nearestEven a d * d + d := by
  have hdiv := Nat.div_add_mod a d
  have hmod := Nat.mod_lt a hd
  unfold nearestEven
  dsimp only
  split
  · have : 2 * (a / d + 1) * d = 2 * (d * (a / d)) + 2 * d := by ring
    omega
  · have : 2 * (a / d) * d = 2 * (d * (a / d)) := by ring
    omega

/-- A result that is exactly half away from the ratio is even. -/
theorem nearestEven_even_of_tie (hd : 0 < d)
    (h : 2 * nearestEven a d * d = 2 * a + d ∨ 2 * a = 2 * nearestEven a d * d + d) :
    nearestEven a d % 2 = 0 := by
  have hdiv := Nat.div_add_mod a d
  have hmod := Nat.mod_lt a hd
  unfold nearestEven at h ⊢
  dsimp only at h ⊢
  split at h
  · rename_i hup
    have : 2 * (a / d + 1) * d = 2 * (d * (a / d)) + 2 * d := by ring
    rw [if_pos hup]
    omega
  · rename_i hdown
    have : 2 * (a / d) * d = 2 * (d * (a / d)) := by ring
    rw [if_neg hdown]
    omega

/-- Two numbers within half of a ratio, each of them even if it is half away, coincide. -/
private theorem le_of_within_half {m : Nat} (hd : 0 < d)
    (hm : 2 * m * d ≤ 2 * a + d) (hn : 2 * a ≤ 2 * n * d + d)
    (hme : 2 * m * d = 2 * a + d → m % 2 = 0) (hne : 2 * a = 2 * n * d + d → n % 2 = 0) :
    m ≤ n := by
  -- otherwise they are neighbours half way around the ratio, and one of them is odd
  by_contra hlt
  have hsucc : m = n + 1 := by
    have : m * d ≤ (n + 1) * d := by nlinarith
    have := Nat.le_of_mul_le_mul_right this hd
    omega
  subst hsucc
  have : 2 * (n + 1) * d = 2 * n * d + 2 * d := by ring
  have := hme (by omega)
  have := hne (by omega)
  omega

theorem nearestEven_eq_iff (hd : 0 < d) :
    nearestEven a d = n ↔
      2 * n * d ≤ 2 * a + d ∧ 2 * a ≤ 2 * n * d + d ∧
        (2 * n * d = 2 * a + d ∨ 2 * a = 2 * n * d + d → n % 2 = 0) := by
  constructor
  · rintro rfl
    exact ⟨nearestEven_mul_le a d hd, le_nearestEven_mul a d hd, nearestEven_even_of_tie hd⟩
  · rintro ⟨hle, hge, heven⟩
    have htie := nearestEven_even_of_tie (a := a) hd
    apply Nat.le_antisymm
    · exact le_of_within_half hd (nearestEven_mul_le a d hd) hge (fun h => htie (.inl h))
        (fun h => heven (.inr h))
    · exact le_of_within_half hd hle (le_nearestEven_mul a d hd) (fun h => heven (.inl h))
        (fun h => htie (.inr h))

/-! ## Consequences -/

/-- A whole ratio is its own rounding. -/
@[simp] theorem nearestEven_mul_self (n : Nat) (hd : 0 < d) : nearestEven (n * d) d = n := by
  rw [nearestEven_eq_iff hd]
  have : 2 * n * d = 2 * (n * d) := by ring
  exact ⟨by omega, by omega, by omega⟩

@[simp] theorem nearestEven_one (n : Nat) : nearestEven n 1 = n := by
  simpa using nearestEven_mul_self n Nat.one_pos

@[simp] theorem nearestEven_zero (hd : 0 < d) : nearestEven 0 d = 0 := by
  simpa using nearestEven_mul_self 0 hd

/-- The rounding depends on the ratio only, not on the way it is written. -/
theorem nearestEven_congr {b c : Nat} (hd : 0 < d) (hc : 0 < c) (h : a * c = b * d) :
    nearestEven a d = nearestEven b c := by
  rw [nearestEven_eq_iff hd]
  have hle := nearestEven_mul_le b c hc
  have hge := le_nearestEven_mul b c hc
  have heven := nearestEven_even_of_tie (a := b) hc
  generalize nearestEven b c = n at *
  -- every bound is compared after multiplication by the other denominator
  have hn : 2 * n * d * c = 2 * n * c * d := by ring
  have ha : 2 * a * c = 2 * b * d := by linarith
  refine ⟨?_, ?_, ?_⟩
  · refine Nat.le_of_mul_le_mul_right (c := c) ?_ hc
    nlinarith
  · refine Nat.le_of_mul_le_mul_right (c := c) ?_ hc
    nlinarith
  · intro htie
    apply heven
    refine htie.imp (fun h => ?_) (fun h => ?_)
    · refine Nat.eq_of_mul_eq_mul_right hd ?_
      calc 2 * n * c * d = 2 * n * d * c := hn.symm
        _ = (2 * a + d) * c := by rw [h]
        _ = (2 * b + c) * d := by rw [Nat.add_mul, ha]; ring
    · refine Nat.eq_of_mul_eq_mul_right hd ?_
      calc 2 * b * d = 2 * a * c := ha.symm
        _ = (2 * n * d + d) * c := by rw [h]
        _ = (2 * n * c + c) * d := by ring

theorem nearestEven_mul_right {c : Nat} (hd : 0 < d) (hc : 0 < c) :
    nearestEven (a * c) (d * c) = nearestEven a d :=
  nearestEven_congr (Nat.mul_pos hd hc) hd (by ring)

/-- A whole number that is at most the ratio is at most its rounding. -/
theorem le_nearestEven (hd : 0 < d) (h : n * d ≤ a) : n ≤ nearestEven a d := by
  have hge := le_nearestEven_mul a d hd
  by_contra hlt
  have : (nearestEven a d + 1) * d ≤ n * d := Nat.mul_le_mul_right d (by omega)
  nlinarith

/-- A whole number that is at least the ratio is at least its rounding. -/
theorem nearestEven_le (hd : 0 < d) (h : a ≤ n * d) : nearestEven a d ≤ n := by
  have hle := nearestEven_mul_le a d hd
  by_contra hlt
  have : (n + 1) * d ≤ nearestEven a d * d := Nat.mul_le_mul_right d (by omega)
  nlinarith

/-- An even number is reached from half below it on: there the tie goes up. -/
theorem two_mul_le_nearestEven_iff {m : Nat} (hd : 0 < d) :
    2 * m ≤ nearestEven a d ↔ 4 * m * d ≤ 2 * a + d := by
  have hle := nearestEven_mul_le a d hd
  have hge := le_nearestEven_mul a d hd
  have heven := nearestEven_even_of_tie (a := a) hd
  generalize nearestEven a d = n at *
  have hn : 2 * n * d = 2 * (n * d) := by ring
  have hm : 4 * m * d = 2 * (2 * m * d) := by ring
  constructor
  · intro h
    have : 2 * m * d ≤ n * d := Nat.mul_le_mul_right d h
    omega
  · intro h
    by_contra hlt
    -- otherwise the result is the odd number just below, which a tie does not choose
    have hsucc : (n + 1) * d ≤ 2 * m * d := Nat.mul_le_mul_right d (by omega)
    have hstep : (n + 1) * d = n * d + d := by ring
    have hlast : n + 1 = 2 * m := Nat.eq_of_mul_eq_mul_right hd (by omega)
    have := heven (.inr (by omega))
    omega

/-- No other multiple of the divisor is nearer to the dividend. -/
theorem natAbs_nearestEven_sub_le (m : Nat) (hd : 0 < d) :
    ((nearestEven a d * d : Nat) - a : Int).natAbs ≤ ((m * d : Nat) - a : Int).natAbs := by
  have hle := nearestEven_mul_le a d hd
  have hge := le_nearestEven_mul a d hd
  generalize nearestEven a d = n at *
  have hn : 2 * n * d = 2 * (n * d) := by ring
  rcases Nat.lt_trichotomy m n with hlt | rfl | hlt
  -- another multiple is at least one divisor away, the nearest one at most half of it
  · have hstep : (m + 1) * d ≤ n * d := Nat.mul_le_mul_right d hlt
    rw [Nat.add_mul, Nat.one_mul] at hstep
    omega
  · exact Nat.le_refl _
  · have hstep : (n + 1) * d ≤ m * d := Nat.mul_le_mul_right d hlt
    rw [Nat.add_mul, Nat.one_mul] at hstep
    omega

/-- A ratio below one half rounds to zero. -/
theorem nearestEven_eq_zero (h : 2 * a < d) : nearestEven a d = 0 := by
  rw [nearestEven_eq_iff (by omega)]
  exact ⟨by omega, by omega, by omega⟩

/-- Greater ratios have greater roundings. -/
theorem nearestEven_mono {b c : Nat} (hd : 0 < d) (hc : 0 < c) (h : a * c ≤ b * d) :
    nearestEven a d ≤ nearestEven b c := by
  have hle := nearestEven_mul_le a d hd
  have hge := le_nearestEven_mul b c hc
  have ha := nearestEven_even_of_tie (a := a) hd
  have hb := nearestEven_even_of_tie (a := b) hc
  -- both are brought over the common denominator `d * c`
  apply le_of_within_half (a := b * d) (d := d * c) (Nat.mul_pos hd hc)
  · calc 2 * nearestEven a d * (d * c) = 2 * nearestEven a d * d * c := by ring
      _ ≤ (2 * a + d) * c := Nat.mul_le_mul_right c hle
      _ ≤ 2 * (b * d) + d * c := by nlinarith
  · calc 2 * (b * d) = 2 * b * d := by ring
      _ ≤ (2 * nearestEven b c * c + c) * d := Nat.mul_le_mul_right d hge
      _ = 2 * nearestEven b c * (d * c) + d * c := by ring
  · intro htie
    apply ha
    left
    have : (2 * a + d) * c ≤ 2 * nearestEven a d * d * c := by nlinarith
    exact Nat.le_antisymm hle (Nat.le_of_mul_le_mul_right this hc)
  · intro htie
    apply hb
    right
    refine Nat.eq_of_mul_eq_mul_right hd ?_
    calc 2 * b * d = 2 * (b * d) := by ring
      _ = 2 * nearestEven b c * (d * c) + d * c := htie
      _ = (2 * nearestEven b c * c + c) * d := by ring

/-- Rounding to whole numbers and then to multiples of `2 * h` is rounding to these at once, if
    the first step is exact whenever it ends half way between two of them. -/
theorem nearestEven_nearestEven {h : Nat} (hd : 0 < d) (hh : 0 < h)
    (hexact : nearestEven a d % (2 * h) = h → a = nearestEven a d * d) :
    nearestEven (nearestEven a d) (2 * h) = nearestEven a (d * (2 * h)) := by
  have hle := nearestEven_mul_le a d hd
  have hge := le_nearestEven_mul a d hd
  generalize nearestEven a d = n at *
  have hle' := nearestEven_mul_le n (2 * h) (by omega)
  have hge' := le_nearestEven_mul n (2 * h) (by omega)
  have heven := nearestEven_even_of_tie (a := n) (d := 2 * h) (by omega)
  generalize nearestEven n (2 * h) = m at *
  symm
  rw [nearestEven_eq_iff (Nat.mul_pos hd (by omega))]
  have hmh : 2 * m * (2 * h) = 2 * (2 * (m * h)) := by ring
  have hmd : 2 * m * (d * (2 * h)) = 2 * (2 * (m * h) * d) := by ring
  have hdh : d * (2 * h) = 2 * (h * d) := by ring
  have hhd : d ≤ h * d := Nat.le_mul_of_pos_left d hh
  by_cases htie : 2 * (m * h) = n + h ∨ n = 2 * (m * h) + h
  · -- the first step is exact, and the tie is that of the second
    have ha : a = n * d := by
      apply hexact
      rcases htie with htie | htie
      · obtain ⟨k, rfl⟩ : ∃ k, m = k + 1 := ⟨m - 1, by
          rcases Nat.eq_zero_or_pos m with rfl | hm <;> omega⟩
        have : n = h + 2 * h * k := by nlinarith
        rw [this, Nat.add_mul_mod_self_left, Nat.mod_eq_of_lt (by omega)]
      · have : n = h + 2 * h * m := by nlinarith
        rw [this, Nat.add_mul_mod_self_left, Nat.mod_eq_of_lt (by omega)]
    have hm := heven (by omega)
    subst ha
    rcases htie with htie | htie
    · have : 2 * (m * h) * d = n * d + h * d := by rw [htie]; ring
      exact ⟨by omega, by omega, fun _ => hm⟩
    · have : n * d = 2 * (m * h) * d + h * d := by rw [htie]; ring
      exact ⟨by omega, by omega, fun _ => hm⟩
  · -- the second step is at least one unit away from a tie, the first at most half a unit
    have hlow : (2 * (m * h) + 1) * d ≤ (n + h) * d := Nat.mul_le_mul_right d (by omega)
    have hupp : (n + 1) * d ≤ (2 * (m * h) + h) * d := Nat.mul_le_mul_right d (by omega)
    have hnd : 2 * n * d = 2 * (n * d) := by ring
    rw [Nat.add_mul, Nat.add_mul] at hlow hupp
    exact ⟨by omega, by omega, by omega⟩

end VariablePrecision
