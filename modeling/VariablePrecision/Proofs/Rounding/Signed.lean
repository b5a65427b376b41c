/-
  VariablePrecision.Proofs.Rounding.Signed

  Integers rounded to a grid, size by size, as sums of values are.

    natAbs_roundInt_sub_le      no member of the grid is nearer than the rounding;
    two_mul_roundInt_error_le   the error is at most half a quantum;
    dvd_roundInt_sub            it is a multiple of every power of two that divides the
                                integer.

  On a grid that goes down to one the error is also small against the integer, which is what
  `two_pow_mul_roundInt_error_le` says: short integers are not rounded at all.
-/

import VariablePrecision.Proofs.Rounding.Grid

namespace VariablePrecision.Grid

variable {g : Grid} {m n : ℤ}

/-- An integer rounded to the grid; it keeps its sign. -/
def roundInt (g : Grid) (n : ℤ) : ℤ := n.sign * g.round n.natAbs 1

theorem dvd_natAbs_add {d : Nat} (hm : d ∣ m.natAbs) (hn : d ∣ n.natAbs) : d ∣ (m + n).natAbs :=
  Int.natCast_dvd.1 (Int.dvd_add (Int.natCast_dvd.2 hm) (Int.natCast_dvd.2 hn))

theorem dvd_natAbs_sub {d : Nat} (hm : d ∣ m.natAbs) (hn : d ∣ n.natAbs) : d ∣ (m - n).natAbs :=
  Int.natCast_dvd.1 (Int.dvd_sub (Int.natCast_dvd.2 hm) (Int.natCast_dvd.2 hn))

theorem natAbs_sign_mul_le (m n : ℤ) : (m.sign * n).natAbs ≤ n.natAbs := by
  rcases eq_or_ne m 0 with rfl | hm
  · simp
  · rw [Int.natAbs_mul, Int.natAbs_sign_of_ne_zero hm, Nat.one_mul]

/-- Members stay members under another sign, or none. -/
theorem mem_sign_mul (m : ℤ) (hn : g.Mem n.natAbs) : g.Mem (m.sign * n).natAbs := by
  rcases eq_or_ne m 0 with rfl | hm
  · simp
  · rwa [Int.natAbs_mul, Int.natAbs_sign_of_ne_zero hm, Nat.one_mul]

/-! ## The nearest member -/

/-- No member of the grid is nearer to a number than its rounding. -/
theorem natAbs_round_sub_le {a b : Nat} (hb : g.Mem b) :
    ((g.round a 1 : ℤ) - a).natAbs ≤ ((b : ℤ) - a).natAbs := by
  have hpos := Nat.two_pow_pos (g.depth a)
  rw [round_one]
  by_cases hdvd : 2 ^ g.depth a ∣ b
  · obtain ⟨c, rfl⟩ := hdvd
    rw [Nat.mul_comm (2 ^ g.depth a) c]
    exact natAbs_nearestEven_sub_le c hpos
  · -- a member with a finer quantum lies below the binade, whose start is nearer
    have hlt : g.depth b < g.depth a := by
      by_contra hle
      exact hdvd (Nat.dvd_trans (Nat.pow_dvd_pow 2 (by omega)) hb)
    have hlow := lowest_le_depth g b
    have hdepth : g.precision + g.depth a = a.log2 := by
      unfold depth at hlt ⊢
      omega
    have ha : a ≠ 0 := by
      rintro rfl
      simp [Nat.log2_zero] at hdepth
      omega
    have hstart : 2 ^ g.precision * 2 ^ g.depth a ≤ a := by
      rw [← Nat.pow_add, hdepth]
      exact Nat.log2_self_le ha
    have hbelow : b < 2 ^ g.precision * 2 ^ g.depth a := by
      rw [← Nat.pow_add]
      exact Nat.lt_of_lt_of_le (lt_two_pow_depth g b) (Nat.pow_le_pow_right Nat.two_pos (by omega))
    have hnear := natAbs_nearestEven_sub_le (a := a) (2 ^ g.precision) hpos
    omega

theorem natAbs_roundInt (g : Grid) (n : ℤ) : (g.roundInt n).natAbs = g.round n.natAbs 1 := by
  rcases eq_or_ne n 0 with rfl | hn
  · simp [roundInt, round_one]
  · rw [roundInt, Int.natAbs_mul, Int.natAbs_sign_of_ne_zero hn, Int.natAbs_natCast, Nat.one_mul]

theorem mem_roundInt (g : Grid) (n : ℤ) : g.Mem (g.roundInt n).natAbs := by
  rw [natAbs_roundInt]
  exact mem_round g Nat.one_pos

theorem roundInt_of_mem (hn : g.Mem n.natAbs) : g.roundInt n = n := by
  rw [roundInt, round_one_of_mem hn, Int.sign_mul_natAbs]

/-- A whole ratio is rounded as the integer that it is. -/
theorem round_natAbs_mul (n : ℤ) {d : Nat} (hd : 0 < d) :
    g.round (n * d).natAbs d = g.round n.natAbs 1 := by
  have hround := round_mul_right (g := g) (a := n.natAbs) Nat.one_pos hd
  rwa [Nat.one_mul, ← Int.natAbs_natCast d, ← Int.natAbs_mul, Int.natAbs_natCast] at hround

/-- The error of the integer is that of its size. -/
theorem natAbs_roundInt_sub (g : Grid) (n : ℤ) :
    (g.roundInt n - n).natAbs = ((g.round n.natAbs 1 : ℤ) - n.natAbs).natAbs := by
  unfold roundInt
  rcases lt_trichotomy n 0 with hn | rfl | hn
  · rw [Int.sign_eq_neg_one_of_neg hn]
    omega
  · simp [round_one]
  · rw [Int.sign_eq_one_of_pos hn]
    omega

/-- No member of the grid is nearer to an integer than its rounding. -/
theorem natAbs_roundInt_sub_le (hm : g.Mem m.natAbs) :
    (g.roundInt n - n).natAbs ≤ (m - n).natAbs := by
  have hnear := natAbs_round_sub_le (a := n.natAbs) hm
  rw [natAbs_roundInt_sub]
  omega

/-! ## The error -/

/-- The rounding is at most half a quantum away. -/
theorem two_mul_roundInt_error_le (g : Grid) (n : ℤ) :
    2 * (g.roundInt n - n).natAbs ≤ 2 ^ g.depth n.natAbs := by
  have hle := round_mul_le g n.natAbs Nat.one_pos
  have hge := le_round_mul g n.natAbs Nat.one_pos
  rw [Nat.mul_one, Nat.one_mul, Nat.div_one] at hle hge
  rw [natAbs_roundInt_sub]
  omega

/-- The rounding is at most one part in `2 ^ (precision + 1)` away, where the grid goes down to
    one. -/
theorem two_pow_mul_roundInt_error_le (hg : g.lowest = 0) (n : ℤ) :
    2 ^ (g.precision + 1) * (g.roundInt n - n).natAbs ≤ n.natAbs := by
  have hhalf := two_mul_roundInt_error_le g n
  rcases Nat.eq_zero_or_pos (g.depth n.natAbs) with hzero | hpos
  · -- whole numbers that are half a unit away are not away at all
    rw [hzero] at hhalf
    rw [show (g.roundInt n - n).natAbs = 0 by omega, Nat.mul_zero]
    exact Nat.zero_le _
  · have hlog : g.precision + g.depth n.natAbs = n.natAbs.log2 := by
      unfold depth at hpos ⊢
      omega
    have hn : n.natAbs ≠ 0 := by
      intro h
      rw [h] at hlog hpos
      rw [Nat.log2_zero] at hlog
      omega
    calc 2 ^ (g.precision + 1) * (g.roundInt n - n).natAbs
        = 2 ^ g.precision * (2 * (g.roundInt n - n).natAbs) := by rw [Nat.pow_succ]; ring
      _ ≤ 2 ^ g.precision * 2 ^ g.depth n.natAbs := Nat.mul_le_mul_left _ hhalf
      _ = 2 ^ n.natAbs.log2 := by rw [← Nat.pow_add, hlog]
      _ ≤ n.natAbs := Nat.log2_self_le hn

/-- The quantum divides the rounding. -/
theorem dvd_natAbs_roundInt (g : Grid) (n : ℤ) : 2 ^ g.depth n.natAbs ∣ (g.roundInt n).natAbs := by
  have hdvd := dvd_round g n.natAbs 1
  rwa [Nat.div_one, ← natAbs_roundInt] at hdvd

/-- Powers of two that divide an integer divide the error. -/
theorem dvd_roundInt_sub {k : Nat} (h : 2 ^ k ∣ n.natAbs) : 2 ^ k ∣ (g.roundInt n - n).natAbs := by
  rcases Nat.le_total k (g.depth n.natAbs) with hle | hle
  · exact dvd_natAbs_sub (Nat.dvd_trans (Nat.pow_dvd_pow 2 hle) (dvd_natAbs_roundInt g n)) h
  · -- a multiple of something coarser than the quantum is a member
    rw [roundInt_of_mem (Nat.dvd_trans (Nat.pow_dvd_pow 2 hle) h), Int.sub_self]
    exact Nat.dvd_zero _

end VariablePrecision.Grid
