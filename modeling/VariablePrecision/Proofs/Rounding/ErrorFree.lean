/-
  VariablePrecision.Proofs.Rounding.ErrorFree

  Errors of rounded sums, products and quotients that are on the grid themselves.

    sums       the error is a multiple of the finer quantum and no greater than either
               term (`mem_sum_error`);
    products   the error has no more bits than the dropped half of the exact product
               (`mem_product_error`);
    quotients  the remainder is that short as well (`mem_remainder`).

  For sums the error can also be computed by rounded operations on the grid.  `twoSum_mem`
  follows the two-sum scheme and says that its later steps are exact.  If the first term is
  the greater one, then the part of the second term in the sum is on the grid, and so is all
  else.  If not, the sum either cancels exactly, or is greater than the first term; then the
  same argument applies to the difference of the two.
-/

import VariablePrecision.Proofs.Rounding.Bounds

namespace VariablePrecision.Grid

variable {g : Grid} {x y r v : ℤ}

/-! ## Sums -/

/-- The difference of two members that is no greater than either is a member. -/
theorem mem_sub (hx : g.Mem x.natAbs) (hy : g.Mem y.natAbs) (hlex : (x - y).natAbs ≤ x.natAbs)
    (hley : (x - y).natAbs ≤ y.natAbs) : g.Mem (x - y).natAbs := by
  rcases Nat.le_total (g.depth x.natAbs) (g.depth y.natAbs) with h | h
  · exact .of_dvd (dvd_natAbs_sub hx (Nat.dvd_trans (Nat.pow_dvd_pow 2 h) hy)) hlex
  · exact .of_dvd (dvd_natAbs_sub (Nat.dvd_trans (Nat.pow_dvd_pow 2 h) hx) hy) hley

private theorem mem_sum_error_of_depth_le (hx : g.Mem x.natAbs) (hy : g.Mem y.natAbs)
    (hxy : g.depth x.natAbs ≤ g.depth y.natAbs) : g.Mem (g.roundInt (x + y) - (x + y)).natAbs := by
  have hdvd := dvd_natAbs_add hx (Nat.dvd_trans (Nat.pow_dvd_pow 2 hxy) hy)
  -- the other term is a member at the distance of this one
  have hnear := natAbs_roundInt_sub_le (n := x + y) hy
  exact .of_dvd (dvd_roundInt_sub hdvd) (by omega)

/-- The error of a sum is a member. -/
theorem mem_sum_error (hx : g.Mem x.natAbs) (hy : g.Mem y.natAbs) :
    g.Mem (g.roundInt (x + y) - (x + y)).natAbs := by
  rcases Nat.le_total (g.depth x.natAbs) (g.depth y.natAbs) with h | h
  · exact mem_sum_error_of_depth_le hx hy h
  · rw [Int.add_comm x y]
    exact mem_sum_error_of_depth_le hy hx h

/-- The part of the smaller term in a rounded sum is a member. -/
theorem mem_roundInt_sub (hx : g.Mem x.natAbs) (hy : g.Mem y.natAbs)
    (hle : y.natAbs ≤ x.natAbs) : g.Mem (g.roundInt (x + y) - x).natAbs := by
  by_cases hexact : g.Mem (x + y).natAbs
  · rw [roundInt_of_mem hexact]
    rwa [show x + y - x = y by omega]
  -- the sum drops bits of the smaller term, so it is not much smaller than the greater one
  have hdepth : g.depth y.natAbs < g.depth (x + y).natAbs := by
    by_contra hge
    have hmono := depth_mono (g := g) hle
    exact hexact (dvd_natAbs_add (Nat.dvd_trans (Nat.pow_dvd_pow 2 (by omega)) hx)
      (Nat.dvd_trans (Nat.pow_dvd_pow 2 (by omega)) hy))
  have hlowest := lowest_le_depth g y.natAbs
  have hlog : (x + y).natAbs.log2 ≤ x.natAbs.log2 + 1 := by
    apply log2_le_of_lt
    have := Nat.lt_log2_self (n := x.natAbs)
    rw [Nat.pow_succ _ (x.natAbs.log2 + 1)]
    omega
  have hlogx := log2_le_depth g x.natAbs
  obtain ⟨k, hk⟩ : ∃ k, g.depth (x + y).natAbs = k + 1 := ⟨g.depth (x + y).natAbs - 1, by omega⟩
  have hkx : k ≤ g.depth x.natAbs := by
    unfold depth at hk hdepth
    omega
  have herror := two_mul_roundInt_error_le g (x + y)
  have hdvd := dvd_natAbs_roundInt g (x + y)
  have hylt := lt_two_pow_depth g y.natAbs
  rw [hk] at herror hdvd
  rw [Nat.pow_succ] at herror
  rcases Nat.lt_or_eq_of_le hkx with hlt | heq
  · -- the quantum of the sum divides the greater term
    have hupp : 2 ^ (g.depth y.natAbs + g.precision + 1) ≤ 2 ^ (k + g.precision + 1) :=
      Nat.pow_le_pow_right Nat.two_pos (by omega)
    have hone : 2 ^ k ≤ 2 ^ (k + g.precision + 1) := Nat.pow_le_pow_right Nat.two_pos (by omega)
    have hnext : 2 ^ (k + 1 + g.precision + 1) = 2 * 2 ^ (k + g.precision + 1) := by
      rw [← Nat.pow_succ']
      congr 1
      omega
    exact mem_of_dvd (by omega) (dvd_natAbs_sub hdvd (Nat.dvd_trans (Nat.pow_dvd_pow 2 hlt) hx))
      (e := k + 1 + g.precision + 1) (by omega) (by omega)
  · -- the sum has carried; half its quantum divides the greater term
    have hdvd' : 2 ^ k ∣ (g.roundInt (x + y) - x).natAbs :=
      dvd_natAbs_sub (Nat.dvd_trans (Nat.pow_dvd_pow 2 (by omega)) hdvd) (heq ▸ hx)
    have hxlt := lt_two_pow_depth g x.natAbs
    rw [← heq, Nat.add_assoc, Nat.pow_add] at hxlt
    obtain ⟨c, hc⟩ := hdvd'
    have hclt : 2 ^ k * c < 2 ^ k * (2 ^ (g.precision + 1) + 1) := by
      rw [← hc, Nat.mul_add, Nat.mul_one]
      omega
    have hcle := Nat.lt_succ_iff.1 (Nat.lt_of_mul_lt_mul_left hclt)
    refine mem_of_dvd (e := k + (g.precision + 1)) (by omega) (Dvd.intro c hc.symm) ?_ (by omega)
    rw [hc, Nat.pow_add]
    exact Nat.mul_le_mul_left _ hcle

/-! ## The two-sum scheme -/

/-- If both sums are off by at most an eighth, then the part of the greater term that they find is
    no farther from it than either of the two is from zero. -/
theorem natAbs_sub_le_of_errors (hxy : x.natAbs ≤ y.natAbs)
    (hfirst : 8 * (r - (x + y)).natAbs ≤ (x + y).natAbs)
    (hsecond : 8 * (v - (r - x)).natAbs ≤ (r - x).natAbs) :
    (y - v).natAbs ≤ y.natAbs ∧ (y - v).natAbs ≤ v.natAbs := by
  have hsum := Int.natAbs_add_le x y
  have hpart : (r - x).natAbs ≤ y.natAbs + (r - (x + y)).natAbs := by
    rw [show r - x = y + (r - (x + y)) by ring]
    exact Int.natAbs_add_le _ _
  have hrest : (y - v).natAbs ≤ (r - (x + y)).natAbs + (v - (r - x)).natAbs := by
    rw [← Int.natAbs_neg, show -(y - v) = r - (x + y) + (v - (r - x)) by ring]
    exact Int.natAbs_add_le _ _
  have hwhole := Int.natAbs_add_le v (y - v)
  rw [show v + (y - v) = y by ring] at hwhole
  -- only the sizes matter from here on
  generalize (r - (x + y)).natAbs = error, (v - (r - x)).natAbs = error', (x + y).natAbs = sum,
    (r - x).natAbs = part, (y - v).natAbs = rest, x.natAbs = a, y.natAbs = b, v.natAbs = c at *
  constructor <;> omega

/-- Of the first sum `r` and the part `v` of the second term in it, everything that the scheme goes
    on to compute is on the grid. -/
theorem twoSum_mem (hg : g.lowest = 0) (hp : 2 ≤ g.precision) (hx : g.Mem x.natAbs)
    (hy : g.Mem y.natAbs) (hr : r = g.roundInt (x + y)) (hv : v = g.roundInt (r - x)) :
    g.Mem (r - v).natAbs ∧ g.Mem (x - (r - v)).natAbs ∧ g.Mem (y - v).natAbs := by
  have herror := mem_sum_error hx hy
  rw [← hr] at herror
  by_cases hle : y.natAbs ≤ x.natAbs
  · -- the part of the smaller term is exact, and the rest is the error
    have hpart := mem_roundInt_sub hx hy hle
    rw [← hr] at hpart
    rw [roundInt_of_mem hpart] at hv
    rw [show r - v = x by omega, Int.sub_self, show y - v = -(r - (x + y)) by omega,
      Int.natAbs_neg]
    exact ⟨hx, mem_zero g, herror⟩
  by_cases hcancel : (x + y).natAbs ≤ x.natAbs
  · -- the terms cancel, which is exact
    have hsum : g.Mem (x + y).natAbs := by
      rw [show x + y = x - -y by omega] at hcancel ⊢
      exact mem_sub hx (by rwa [Int.natAbs_neg]) hcancel (by omega)
    rw [roundInt_of_mem hsum] at hr
    rw [show r - x = y by omega, roundInt_of_mem hy] at hv
    rw [show r - v = x by omega, Int.sub_self, show y - v = 0 by omega]
    exact ⟨hx, mem_zero g, mem_zero g⟩
  -- the sum is greater than its first term, so the argument goes through for their difference
  have hrmem : g.Mem r.natAbs := hr ▸ mem_roundInt g (x + y)
  have hnegx : g.Mem (-x).natAbs := by rwa [Int.natAbs_neg]
  have hxr : (-x).natAbs ≤ r.natAbs := by
    have hnear := natAbs_round_sub_le (a := (x + y).natAbs) hx
    rw [hr, natAbs_roundInt]
    omega
  have hpart := mem_roundInt_sub hrmem hnegx hxr
  have hrest := mem_sum_error hrmem hnegx
  rw [← Int.sub_eq_add_neg, ← hv] at hpart hrest
  refine ⟨?_, ?_, ?_⟩
  · rwa [← Int.natAbs_neg, Int.neg_sub]
  · rwa [show x - (r - v) = v - (r - x) by omega]
  · -- two small errors leave the second term near its part
    have hfirst := two_pow_mul_roundInt_error_le hg (x + y)
    have hsecond := two_pow_mul_roundInt_error_le hg (r - x)
    rw [← hr] at hfirst
    rw [← hv] at hsecond
    have height : 8 ≤ 2 ^ (g.precision + 1) := by
      calc 8 = 2 ^ 3 := rfl
        _ ≤ 2 ^ (g.precision + 1) := Nat.pow_le_pow_right Nat.two_pos (by omega)
    obtain ⟨hley, hlev⟩ := natAbs_sub_le_of_errors (not_le.1 hle).le
      (Nat.le_trans (Nat.mul_le_mul_right _ height) hfirst)
      (Nat.le_trans (Nat.mul_le_mul_right _ height) hsecond)
    exact mem_sub hy (hv ▸ mem_roundInt g (r - x)) hley hlev

/-! ## Products -/

/-- The error of an integer that is at most twice as long as the members is a member, for the
    rounding drops no more bits than they have. -/
theorem mem_product_error {n : ℤ} {w : Nat} (hg : g.lowest = 0) (hdvd : 2 ^ w ∣ n.natAbs)
    (hlt : n.natAbs < 2 ^ (w + 2 * (g.precision + 1))) :
    g.Mem (g.roundInt n - n).natAbs := by
  by_cases hexact : g.Mem n.natAbs
  · rw [roundInt_of_mem hexact, Int.sub_self]
    exact mem_zero g
  have hlog := log2_le_of_lt (e := w + 2 * g.precision + 1) (by
    rwa [show w + 2 * g.precision + 1 + 1 = w + 2 * (g.precision + 1) by omega])
  have hdepth : g.depth n.natAbs ≤ w + g.precision + 1 := depth_le_iff.2 ⟨by omega, by omega⟩
  have herror := two_mul_roundInt_error_le g n
  have hpow : 2 ^ g.depth n.natAbs ≤ 2 ^ (w + g.precision + 1) :=
    Nat.pow_le_pow_right Nat.two_pos hdepth
  exact mem_of_dvd (by omega) (dvd_roundInt_sub hdvd) (e := w + g.precision + 1) (by omega)
    (by omega)

/-! ## Quotients -/

/-- The remainder of a rounded quotient is at most half the divisor times the last place of the
    quotient. -/
theorem two_mul_remainder_le (hg : g.lowest = 0) {a d r j : Nat} (hd : 0 < d)
    (hr : r < 2 ^ (g.precision + 1)) (hround : g.round a d = r * 2 ^ j) :
    2 * ((r * 2 ^ j * d : Nat) - a : ℤ).natAbs ≤ d * 2 ^ j := by
  rw [← hround]
  refine two_mul_error_le hd (by omega) ?_
  rw [hround, Nat.add_assoc, Nat.add_comm, Nat.pow_add]
  exact Nat.mul_lt_mul_of_pos_right hr (Nat.two_pow_pos j)

/-- The same with the last places of the quotient `r * 2 ^ j` and the divisor `c * 2 ^ i` taken
    out, which together are `2 ^ w` against the dividend. -/
theorem two_mul_remainder_le_of_add_eq (hg : g.lowest = 0) {a r c i j u w : Nat} (hc : 0 < c)
    (hr : r < 2 ^ (g.precision + 1)) (hw : j + i = w + u)
    (hround : g.round (a * 2 ^ u) (c * 2 ^ i) = r * 2 ^ j) :
    2 * ((r * (c * 2 ^ w) : Nat) - a : ℤ).natAbs ≤ c * 2 ^ w := by
  have hremainder := two_mul_remainder_le hg (Nat.mul_pos hc (Nat.two_pow_pos i)) hr hround
  have hprod : r * 2 ^ j * (c * 2 ^ i) = r * (c * 2 ^ w) * 2 ^ u := by
    calc r * 2 ^ j * (c * 2 ^ i) = r * c * 2 ^ (j + i) := by rw [Nat.pow_add]; ring
      _ = r * (c * 2 ^ w) * 2 ^ u := by rw [hw, Nat.pow_add]; ring
  have hquantum : c * 2 ^ i * 2 ^ j = c * 2 ^ w * 2 ^ u := by
    rw [Nat.mul_assoc, ← Nat.pow_add, Nat.mul_assoc, ← Nat.pow_add, Nat.add_comm i j, hw]
  have hscaled : ((r * 2 ^ j * (c * 2 ^ i) : Nat) - (a * 2 ^ u : Nat) : ℤ).natAbs =
      ((r * (c * 2 ^ w) : Nat) - a : ℤ).natAbs * 2 ^ u := by
    rw [hprod, Nat.cast_mul _ (2 ^ u), Nat.cast_mul a, ← Int.sub_mul, Int.natAbs_mul,
      Int.natAbs_natCast]
  rwa [hscaled, hquantum, ← Nat.mul_assoc, Nat.mul_le_mul_right_iff (Nat.two_pow_pos u)]
    at hremainder

/-- The dividend is so large that half the last place of the products divides it. -/
theorem two_pow_dvd_dividend {a r c k : Nat} (ha : g.Mem a) (hc : 0 < c) (hr : 0 < r)
    (hlong : 2 ^ g.precision ≤ r ∨ 2 ^ g.precision ≤ c)
    (hremainder : ((r * (2 * (c * 2 ^ k)) : Nat) - a : ℤ).natAbs ≤ c * 2 ^ k) : 2 ^ k ∣ a := by
  have hlow : 2 ^ g.precision ≤ r * c := by
    rcases hlong with h | h
    · exact Nat.le_trans h (Nat.le_mul_of_pos_right r hc)
    · exact Nat.le_trans h (Nat.le_mul_of_pos_left c hr)
  have hsize : 2 ^ (k + g.precision) ≤ r * (c * 2 ^ k) := by
    rw [Nat.add_comm, Nat.pow_add, ← Nat.mul_assoc]
    exact Nat.mul_le_mul_right _ hlow
  have hone : c * 2 ^ k ≤ r * (c * 2 ^ k) := Nat.le_mul_of_pos_left _ hr
  have htwo : r * (2 * (c * 2 ^ k)) = 2 * (r * (c * 2 ^ k)) := by ring
  have hlog := le_log2_of_le (show 2 ^ (k + g.precision) ≤ a by omega)
  have hdepth := log2_le_depth g a
  exact Nat.dvd_trans (Nat.pow_dvd_pow 2 (by omega)) ha

/-- The remainder of a quotient is a member, if the last places of the rounded quotient `r * 2 ^ j`
    and the divisor `c * 2 ^ i` together are not below one. -/
theorem mem_remainder (hg : g.lowest = 0) {a r c i j u w : Nat} (ha : g.Mem a) (hc : 0 < c)
    (hclt : c < 2 ^ (g.precision + 1)) (hrlt : r < 2 ^ (g.precision + 1))
    (hlong : 2 ^ g.precision ≤ r ∨ 2 ^ g.precision ≤ c) (hw : j + i = w + u)
    (hround : g.round (a * 2 ^ u) (c * 2 ^ i) = r * 2 ^ j) :
    g.Mem ((r * (c * 2 ^ w) : Nat) - a : ℤ).natAbs := by
  have hremainder := two_mul_remainder_le_of_add_eq hg hc hrlt hw hround
  rcases Nat.eq_zero_or_pos r with rfl | hr
  · simpa using ha
  cases w with
  | zero =>
    rw [Nat.pow_zero, Nat.mul_one] at hremainder ⊢
    exact mem_of_dvd (k := 0) (e := g.precision + 1) (by omega) (one_dvd _) (by omega) (by omega)
  | succ k =>
    have hpow : c * 2 ^ (k + 1) = 2 * (c * 2 ^ k) := by
      rw [Nat.pow_succ]
      ring
    rw [hpow] at hremainder ⊢
    have hdvd : 2 ^ k ∣ ((r * (2 * (c * 2 ^ k)) : Nat) - a : ℤ).natAbs := by
      apply dvd_natAbs_sub
      · rw [Int.natAbs_natCast]
        exact ⟨r * 2 * c, by ring⟩
      · exact two_pow_dvd_dividend ha hc hr hlong (by omega)
    have hupp : c * 2 ^ k ≤ 2 ^ (k + (g.precision + 1)) := by
      rw [Nat.add_comm, Nat.pow_add]
      exact Nat.mul_le_mul_right _ hclt.le
    exact mem_of_dvd (by omega) hdvd (e := k + (g.precision + 1)) (by omega) (by omega)

end VariablePrecision.Grid
