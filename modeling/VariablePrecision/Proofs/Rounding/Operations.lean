/-
  VariablePrecision.Proofs.Rounding.Operations

  When the exact sum, product or quotient of two members of a coarse grid may be
  rounded to a fine grid on the way to the coarse one.  By `Grid.round_round` the only
  danger is a result that the fine rounding moves to a point half way between two
  members of the coarse grid, so that it is shown that there is no such result:

    products   are short enough to be on the fine grid;
    sums       close to a half-way point have an operand that is closer to it than a
               member of the grid can be;
    quotients  differ from a half-way point by at least one unit of the cross product.

  The fine grid has to be about twice as long as the coarse one.
-/

import VariablePrecision.Proofs.Rounding.Grid

namespace VariablePrecision.Grid

variable {g h : Grid}

/-! ## Products -/

/-- The product of two members of the coarse grid is exact on the fine one. -/
theorem round_mul {x y u : Nat} (hg : g.lowest = 0) (hp : 2 * h.precision + 1 ≤ g.precision)
    (hx : h.Mem x) (hy : h.Mem y) (hu : u ≤ 2 * h.lowest) :
    x * y = g.round (x * y) (2 ^ u) * 2 ^ u := by
  obtain ⟨a, ha, hxa⟩ := hx.exists_mul
  obtain ⟨b, hb, hyb⟩ := hy.exists_mul
  have hi := lowest_le_depth h x
  have hj := lowest_le_depth h y
  generalize h.depth x = i at *
  generalize h.depth y = j at *
  obtain ⟨w, hw⟩ : ∃ w, i + j = w + u := ⟨i + j - u, by omega⟩
  have hprod : x * y = a * b * 2 ^ w * 2 ^ u := by
    rw [hxa, hyb, Nat.mul_assoc (a * b), ← Nat.pow_add, ← hw, Nat.pow_add]
    ring
  have hab : a * b < 2 ^ (g.precision + 1) := by
    calc a * b < 2 ^ (h.precision + 1) * 2 ^ (h.precision + 1) := Nat.mul_lt_mul'' ha hb
      _ = 2 ^ (h.precision + 1 + (h.precision + 1)) := (Nat.pow_add _ _ _).symm
      _ ≤ 2 ^ (g.precision + 1) := Nat.pow_le_pow_right Nat.two_pos (by omega)
  rw [hprod, round_of_mem (mem_mul_two_pow (by omega) hab) (Nat.two_pow_pos u)]

/-! ## Sums -/

/-- A half-way point is at least half a quantum away from the multiples of the quantum. -/
theorem add_le_of_half_way {n m P : Nat} (hn : n % (2 * P) = P) (hm : 2 * P ∣ m) :
    n + P ≤ m ∨ m + P ≤ n := by
  obtain ⟨c, rfl⟩ := hm
  have hdiv := Nat.div_add_mod n (2 * P)
  rcases Nat.lt_or_ge (n / (2 * P)) c with hlt | hge
  · left
    have := Nat.mul_le_mul_left (2 * P) hlt
    rw [Nat.succ_eq_add_one, Nat.mul_add, Nat.mul_one] at this
    omega
  · right
    have := Nat.mul_le_mul_left (2 * P) hge
    omega

/-- A half-way point is a multiple of half the quantum. -/
theorem dvd_of_half_way {n s : Nat} (hn : n % 2 ^ (s + 1) = 2 ^ s) : 2 ^ s ∣ n := by
  rw [← Nat.div_add_mod n (2 ^ (s + 1)), hn]
  exact Nat.dvd_add (Nat.dvd_trans (Nat.pow_dvd_pow 2 (by omega)) (Nat.dvd_mul_right _ _))
    (Nat.dvd_refl _)

/-- A grid that goes down to one drops bits of long numbers only. -/
theorem precision_lt_of_not_mem {a : Nat} (hg : g.lowest = 0) (ha : ¬ g.Mem a) :
    g.precision < a.log2 ∧ g.depth a + g.precision = a.log2 := by
  have hlt : g.precision < a.log2 := by
    by_contra hle
    apply ha
    have hdepth : g.depth a = 0 := Nat.le_zero.1 (depth_le_iff.2 ⟨by omega, by omega⟩)
    rw [Mem, hdepth]
    exact Nat.one_dvd a
  refine ⟨hlt, ?_⟩
  unfold depth
  omega

/-- A sum whose fine rounding is not exact has an operand of a quantum finer than that of the
    rounding, and the other operand is close to the sum. -/
private theorem sum_eq_round_of_half_way_of_depth_le {x y : Int} {s : Nat} (hg : g.lowest = 0)
    (hp : 2 * h.precision + 2 ≤ g.precision) (hx : h.Mem x.natAbs) (hy : h.Mem y.natAbs)
    (hxy : h.depth x.natAbs ≤ h.depth y.natAbs) (hs : h.depth (x + y).natAbs = s + 1)
    (hmid : g.round (x + y).natAbs 1 % 2 ^ (s + 1) = 2 ^ s) :
    (x + y).natAbs = g.round (x + y).natAbs 1 := by
  by_contra hne
  have htri₁ : (x + y).natAbs ≤ x.natAbs + y.natAbs := Int.natAbs_add_le x y
  have htri₂ : y.natAbs ≤ (x + y).natAbs + x.natAbs := by omega
  have hsum : ∀ k, 2 ^ k ∣ x.natAbs → 2 ^ k ∣ y.natAbs → 2 ^ k ∣ (x + y).natAbs := by
    intro k hk₁ hk₂
    exact Int.natCast_dvd.1 (Int.dvd_add (Int.natCast_dvd.2 hk₁) (Int.natCast_dvd.2 hk₂))
  generalize (x + y).natAbs = a at *
  -- the fine rounding drops bits
  have hinexact : ¬ g.Mem a := fun hmem => hne (round_one_of_mem hmem).symm
  obtain ⟨hlong, hj⟩ := precision_lt_of_not_mem hg hinexact
  -- so the finer operand has bits below the fine quantum, and hence is small
  have hi : h.depth x.natAbs < g.depth a := by
    by_contra hle
    apply hinexact
    apply hsum
    · exact Nat.dvd_trans (Nat.pow_dvd_pow 2 (by omega)) hx
    · exact Nat.dvd_trans (Nat.pow_dvd_pow 2 (by omega)) hy
  have hlow := lowest_le_depth h x.natAbs
  have hse : s + 1 + h.precision = a.log2 := by
    rw [depth] at hs
    omega
  obtain ⟨r, rfl⟩ : ∃ r, s = r + 1 := ⟨s - 1, by omega⟩
  have hxlt : x.natAbs < 2 ^ r :=
    Nat.lt_of_lt_of_le (lt_two_pow_depth h x.natAbs)
      (Nat.pow_le_pow_right Nat.two_pos (by omega))
  have hjle : 2 ^ g.depth a ≤ 2 ^ r := Nat.pow_le_pow_right Nat.two_pos (by omega)
  -- the fine rounding is within half a fine quantum, and does not leave the binade downwards
  have ha : a ≠ 0 := by
    rintro rfl
    exact hinexact (mem_zero g)
  have hpow : 2 ^ a.log2 ≤ a := Nat.log2_self_le ha
  have hround : 2 ^ a.log2 ≤ g.round a 1 := two_pow_le_round Nat.one_pos (by omega) (by omega)
  have hle := round_mul_le g a Nat.one_pos
  have hge := le_round_mul g a Nat.one_pos
  rw [Nat.mul_one, Nat.one_mul, Nat.div_one] at hle hge
  generalize g.round a 1 = n at *
  have hbinade : 2 ^ a.log2 = 2 ^ h.precision * (2 * 2 ^ (r + 1)) := by
    rw [← hse, ← Nat.pow_succ', ← Nat.pow_add]
    congr 1
    omega
  have hr2 : 2 ^ (r + 1) = 2 * 2 ^ r := by rw [Nat.pow_succ, Nat.mul_comm]
  have hr4 : 2 ^ (r + 1 + 1) = 2 * 2 ^ (r + 1) := by rw [Nat.pow_succ, Nat.mul_comm]
  have hp1 := Nat.two_pow_pos h.precision
  have hrpos := Nat.two_pow_pos r
  rw [hr4] at hmid
  -- the coarser operand is nearly as large as the sum, so that its quantum is coarse
  by_cases hybig : 2 ^ a.log2 ≤ y.natAbs
  · have hlog := le_log2_of_le hybig
    have hdvd : 2 * 2 ^ (r + 1) ∣ y.natAbs := by
      rw [← hr4]
      exact Nat.dvd_trans (Nat.pow_dvd_pow 2 (by have := log2_le_depth h y.natAbs; omega)) hy
    rcases add_le_of_half_way hmid hdvd with h₁ | h₁ <;> omega
  · -- the half-way point is above the start of the binade, which a sum from below cannot pass
    have hdvd : 2 * 2 ^ (r + 1) ∣ 2 ^ a.log2 := by
      rw [hbinade]
      exact Nat.dvd_mul_left _ _
    rcases add_le_of_half_way hmid hdvd with h₁ | h₁ <;> omega

/-- A sum of two members of the coarse grid whose fine rounding ends half way between two members
    of the coarse grid is exact there. -/
theorem sum_eq_round_of_half_way {x y : Int} {s : Nat} (hg : g.lowest = 0)
    (hp : 2 * h.precision + 2 ≤ g.precision) (hx : h.Mem x.natAbs) (hy : h.Mem y.natAbs)
    (hs : h.depth (x + y).natAbs = s + 1)
    (hmid : g.round (x + y).natAbs 1 % 2 ^ (s + 1) = 2 ^ s) :
    (x + y).natAbs = g.round (x + y).natAbs 1 := by
  rcases Nat.le_total (h.depth x.natAbs) (h.depth y.natAbs) with hxy | hyx
  · exact sum_eq_round_of_half_way_of_depth_le hg hp hx hy hxy hs hmid
  · rw [Int.add_comm x y] at hs hmid ⊢
    exact sum_eq_round_of_half_way_of_depth_le hg hp hy hx hyx hs hmid

/-! ## Quotients -/

/-- A quotient of two members of the coarse grid whose fine rounding ends half way between two
    members of the coarse grid is exact there. -/
theorem quotient_eq_round_of_half_way {x y u s : Nat} (hg : g.lowest = 0)
    (hp : 2 * h.precision + 1 ≤ g.precision) (hl : g.precision + 3 ≤ h.lowest)
    (hx : h.Mem x) (hy : h.Mem y) (hypos : 0 < y) (hs : h.depth (x * 2 ^ u / y) = s + 1)
    (hmid : g.round (x * 2 ^ u) y % 2 ^ (s + 1) = 2 ^ s) :
    x * 2 ^ u = g.round (x * 2 ^ u) y * y := by
  by_contra hne
  have hxlt := lt_two_pow_depth h x
  have hylt := lt_two_pow_depth h y
  have hyge : 2 ^ h.depth y ≤ y := Nat.le_of_dvd hypos hy
  have hslow := lowest_le_depth h (x * 2 ^ u / y)
  have hulow : h.depth (x * 2 ^ u / y) = max h.lowest ((x * 2 ^ u / y).log2 - h.precision) := rfl
  have hdvdx : 2 ^ (h.depth x + u) ∣ x * 2 ^ u := by
    rw [Nat.pow_add]
    exact Nat.mul_dvd_mul hx (Nat.dvd_refl _)
  have hxult : x * 2 ^ u < 2 ^ (h.depth x + h.precision + 1 + u) := by
    rw [Nat.pow_add]
    exact Nat.mul_lt_mul_of_pos_right hxlt (Nat.two_pow_pos u)
  generalize x * 2 ^ u = a at *
  -- the quotient is far above the least fine quantum
  have hsle : 2 ^ s ≤ g.round a y := by
    rw [← hmid]
    exact Nat.mod_le _ _
  have hup := round_le_two_pow (g := g) hypos (by omega) (Nat.le_of_lt (lt_mul_two_pow a hypos))
  have hse : s ≤ (a / y).log2 + 1 :=
    (Nat.pow_le_pow_iff_right Nat.one_lt_two).1 (Nat.le_trans hsle hup)
  have hj : g.depth (a / y) + g.precision = (a / y).log2 := by
    unfold depth
    omega
  have hya : y ≤ a := by
    by_contra hlt
    rw [Nat.div_eq_of_lt (by omega)] at hse
    simp at hse
    omega
  have hstart := two_pow_mul_le hypos hya
  have hle := round_mul_le g a hypos
  have hge := le_round_mul g a hypos
  have hdvdN : 2 ^ s ∣ g.round a y := dvd_of_half_way hmid
  generalize g.round a y = n at *
  -- the cross products differ by a multiple of a power of two, which is less than the fine quantum
  have hgap : ∀ w, 2 ^ w ∣ a → 2 ^ w ∣ n * y → w + 1 < h.depth y + h.precision + 1 +
      g.depth (a / y) := by
    intro w hwa hwn
    have hw : 2 * 2 ^ w ≤ y * 2 ^ g.depth (a / y) := by
      rcases Nat.lt_or_ge a (n * y) with hlt | hgt
      · have := Nat.le_of_dvd (by omega) (Nat.dvd_sub hwn hwa)
        omega
      · have := Nat.le_of_dvd (by omega) (Nat.dvd_sub hwa hwn)
        omega
    rw [← Nat.pow_lt_pow_iff_right Nat.one_lt_two, Nat.pow_succ', Nat.pow_add _ _
      (g.depth (a / y))]
    exact Nat.lt_of_le_of_lt hw (Nat.mul_lt_mul_of_pos_right hylt (Nat.two_pow_pos _))
  rcases Nat.le_total (s + h.depth y) (h.depth x + u) with hw | hw
  · have := hgap (s + h.depth y) (Nat.dvd_trans (Nat.pow_dvd_pow 2 hw) hdvdx)
      (by rw [Nat.pow_add]; exact Nat.mul_dvd_mul hdvdN hy)
    omega
  · have hsmall := hgap (h.depth x + u) hdvdx (Nat.dvd_trans (Nat.pow_dvd_pow 2 hw)
      (by rw [Nat.pow_add]; exact Nat.mul_dvd_mul hdvdN hy))
    have hbig : 2 ^ ((a / y).log2 + h.depth y) < 2 ^ (h.depth x + h.precision + 1 + u) :=
      calc 2 ^ ((a / y).log2 + h.depth y) = 2 ^ (a / y).log2 * 2 ^ h.depth y := Nat.pow_add _ _ _
        _ ≤ 2 ^ (a / y).log2 * y := Nat.mul_le_mul_left _ hyge
        _ ≤ a := hstart
        _ < _ := hxult
    rw [Nat.pow_lt_pow_iff_right Nat.one_lt_two] at hbig
    omega

end VariablePrecision.Grid
