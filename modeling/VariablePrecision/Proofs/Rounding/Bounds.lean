/-
  VariablePrecision.Proofs.Rounding.Bounds

  How large roundings and their errors are.

  On the grid of a format with a last binade, members stay a quantum of that binade below its
  end (`Mem.add_two_pow_le`), and whatever rounds to a member below the end has an error of at
  most half that quantum (`two_mul_error_le`).

  On a grid that goes down to one, exactly the ratios up to a half are rounded to zero, and no
  ratio is more than doubled.
-/

import VariablePrecision.Proofs.Rounding.Signed

namespace VariablePrecision.Grid

variable {g : Grid} {a d e n : Nat}

/-! ## The last binade -/

/-- Members below the end of a binade are at least a quantum below it. -/
theorem Mem.add_two_pow_le (hn : g.Mem n) (hlt : n < 2 ^ (e + g.precision + 1)) :
    n + 2 ^ e ≤ 2 ^ (e + g.precision + 1) := by
  -- in lower binades there is room enough; in the last one the quantum divides both
  rcases Nat.lt_or_ge n (2 ^ (e + g.precision)) with hlow | hhigh
  · have hquantum : 2 ^ e ≤ 2 ^ (e + g.precision) := Nat.pow_le_pow_right Nat.two_pos (by omega)
    rw [Nat.pow_succ]
    omega
  · have hlog := le_log2_of_le hhigh
    have hdepth := log2_le_depth g n
    have hdvd : 2 ^ e ∣ n := Nat.dvd_trans (Nat.pow_dvd_pow 2 (by omega)) hn
    have hend : 2 ^ e ∣ 2 ^ (e + g.precision + 1) := Nat.pow_dvd_pow 2 (by omega)
    have hgap := Nat.le_of_dvd (by omega) (Nat.dvd_sub hend hdvd)
    omega

/-- Ratios that are rounded to below the end of a binade have no coarser quantum. -/
theorem depth_div_le (hd : 0 < d) (he : g.lowest ≤ e)
    (h : g.round a d < 2 ^ (e + g.precision + 1)) : g.depth (a / d) ≤ e := by
  have hlt : a < 2 ^ (e + g.precision + 1) * d := by
    -- rounding does not pass the end of the binade from above
    by_contra hge
    have hround := two_pow_le_round (g := g) hd (by omega) (not_lt.1 hge)
    omega
  exact depth_le_iff.2 ⟨he, log2_le_of_lt ((Nat.div_lt_iff_lt_mul hd).2 hlt)⟩

/-- Their error is at most half that quantum. -/
theorem two_mul_error_le (hd : 0 < d) (he : g.lowest ≤ e)
    (h : g.round a d < 2 ^ (e + g.precision + 1)) :
    2 * ((g.round a d * d : Nat) - a : ℤ).natAbs ≤ d * 2 ^ e := by
  have hpow : d * 2 ^ g.depth (a / d) ≤ d * 2 ^ e :=
    Nat.mul_le_mul_left d (Nat.pow_le_pow_right Nat.two_pos (depth_div_le hd he h))
  have hle := round_mul_le g a hd
  have hge := le_round_mul g a hd
  omega

/-! ## Grids that go down to one -/

/-- Rounding loses all of a ratio exactly if it is at most a half. -/
theorem round_eq_zero_iff (hg : g.lowest = 0) (hd : 0 < d) : g.round a d = 0 ↔ 2 * a ≤ d := by
  rcases Nat.lt_or_ge a d with hlt | hge
  · -- below one the quantum is one, and the tie at a half goes to zero, which is even
    have hdepth : g.depth (a / d) = 0 := by simp [depth, hg, Nat.div_eq_of_lt hlt]
    rw [round, hdepth, Nat.pow_zero, Nat.mul_one, Nat.mul_one, nearestEven_eq_iff hd]
    omega
  · have hone := two_pow_le_round (g := g) (a := a) (s := 0) hd (by omega) (by omega)
    exact iff_of_false (by omega) (by omega)

/-- Rounding does not more than double a ratio. -/
theorem round_mul_le_two_mul (hg : g.lowest = 0) (a : Nat) (hd : 0 < d) :
    g.round a d * d ≤ 2 * a := by
  have hle := round_mul_le g a hd
  rcases Nat.lt_or_ge a d with hlt | hge
  · by_cases hzero : 2 * a ≤ d
    · rw [(round_eq_zero_iff hg hd).2 hzero, Nat.zero_mul]
      exact Nat.zero_le _
    · rw [Nat.div_eq_of_lt hlt, show g.depth 0 = 0 by simp [depth, hg]] at hle
      omega
  · -- the quantum is no coarser than the ratio
    have hlow := two_pow_mul_le hd hge
    have hdepth : g.depth (a / d) ≤ (a / d).log2 := depth_le_iff.2 ⟨by omega, by omega⟩
    have hquantum : d * 2 ^ g.depth (a / d) ≤ a := by
      calc d * 2 ^ g.depth (a / d) ≤ d * 2 ^ (a / d).log2 :=
            Nat.mul_le_mul_left d (Nat.pow_le_pow_right Nat.two_pos hdepth)
        _ ≤ a := by rwa [Nat.mul_comm]
    omega

end VariablePrecision.Grid
