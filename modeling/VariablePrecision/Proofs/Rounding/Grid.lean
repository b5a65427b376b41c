/-
  VariablePrecision.Proofs.Rounding.Grid

  Floating-point grids on the natural numbers, and rounding to them.  Values counted
  in units of a native format form such a grid, and so do the values of a target
  format that are counted in the same units; both roundings are `Grid.round`, with
  no bound on the exponent.

  A grid keeps `precision` bits behind the leading one, but no multiple of its
  quantum is finer than `2 ^ lowest`.  Between `2 ^ e` and `2 ^ (e + 1)` its members
  are the multiples of `2 ^ depth`, and rounding is `nearestEven` at that depth:

    two_pow_le_round, round_le_two_pow   the result stays in the binade, ends included;
    mem_round, round_of_mem              the result is on the grid, which is kept;
    round_round                          when two roundings are one.
-/

import VariablePrecision.Proofs.Rounding.NearestEven

namespace VariablePrecision

/-- A floating-point grid on the natural numbers. -/
structure Grid where
  /-- The number of bits behind the leading one. -/
  precision : Nat
  /-- The exponent of the least quantum. -/
  lowest : Nat

namespace Grid

variable {g h : Grid} {a d n : Nat}

/-- The exponent of the quantum in the binade of `n`. -/
def depth (g : Grid) (n : Nat) : Nat := max g.lowest (n.log2 - g.precision)

/-- The number is a multiple of the quantum of its binade. -/
def Mem (g : Grid) (n : Nat) : Prop := 2 ^ g.depth n ∣ n

/-- The member of the grid nearest to `a / d`, ties to the even multiple of the quantum. -/
def round (g : Grid) (a d : Nat) : Nat :=
  nearestEven a (d * 2 ^ g.depth (a / d)) * 2 ^ g.depth (a / d)

/-! ## Binades -/

theorem log2_le_of_lt {n e : Nat} (h : n < 2 ^ (e + 1)) : n.log2 ≤ e := by
  rcases Nat.eq_zero_or_pos n with rfl | hn
  · simp
  · have := (Nat.log2_lt (by omega)).2 h
    omega

theorem le_log2_of_le {n e : Nat} (h : 2 ^ e ≤ n) : e ≤ n.log2 :=
  (Nat.le_log2 (by have := Nat.two_pow_pos e; omega)).2 h

/-- A ratio is below the end of the binade of its whole part. -/
theorem lt_mul_two_pow (a : Nat) (hd : 0 < d) : a < 2 ^ ((a / d).log2 + 1) * d :=
  (Nat.div_lt_iff_lt_mul hd).1 Nat.lt_log2_self

/-- A ratio that is not below one is at least the start of the binade of its whole part. -/
theorem two_pow_mul_le (hd : 0 < d) (h : d ≤ a) : 2 ^ (a / d).log2 * d ≤ a :=
  (Nat.le_div_iff_mul_le hd).1 (Nat.log2_self_le (by have := Nat.div_pos h hd; omega))

theorem lowest_le_depth (g : Grid) (n : Nat) : g.lowest ≤ g.depth n := Nat.le_max_left _ _

theorem log2_le_depth (g : Grid) (n : Nat) : n.log2 ≤ g.depth n + g.precision := by
  unfold depth
  omega

theorem depth_le_iff {s : Nat} : g.depth n ≤ s ↔ g.lowest ≤ s ∧ n.log2 ≤ s + g.precision := by
  unfold depth
  omega

/-- Greater numbers have coarser quanta. -/
theorem depth_mono {m : Nat} (h : n ≤ m) : g.depth n ≤ g.depth m := by
  have hlog := log2_le_of_lt (Nat.lt_of_le_of_lt h Nat.lt_log2_self)
  have := log2_le_depth g m
  exact depth_le_iff.2 ⟨lowest_le_depth g m, by omega⟩

/-- The quantum of a finer grid is no coarser. -/
theorem depth_le_depth (hp : h.precision ≤ g.precision) (hl : g.lowest ≤ h.lowest) (n : Nat) :
    g.depth n ≤ h.depth n := by
  have := log2_le_depth h n
  exact depth_le_iff.2 ⟨Nat.le_trans hl (lowest_le_depth h n), by omega⟩

/-- From the start of a binade to its end the quantum is the same. -/
theorem depth_of_binade {e : Nat} (hd : 0 < d) (hlow : 2 ^ e * d ≤ a) (hupp : a < 2 ^ (e + 1) * d)
    (he : g.lowest + g.precision ≤ e) : g.depth (a / d) = e - g.precision := by
  have hlog : (a / d).log2 = e :=
    Nat.le_antisymm (log2_le_of_lt ((Nat.div_lt_iff_lt_mul hd).2 hupp))
      (le_log2_of_le ((Nat.le_div_iff_mul_le hd).2 hlow))
  rw [depth, hlog]
  omega

theorem lt_two_pow_depth (g : Grid) (n : Nat) : n < 2 ^ (g.depth n + g.precision + 1) :=
  Nat.lt_of_lt_of_le Nat.lt_log2_self
    (Nat.pow_le_pow_right Nat.two_pos (by have := log2_le_depth g n; omega))

/-! ## Membership -/

@[simp] theorem mem_zero (g : Grid) : g.Mem 0 := Nat.dvd_zero _

/-- Members are the multiples of allowed powers of two with a short enough factor. -/
theorem mem_mul_two_pow {c s : Nat} (hs : g.lowest ≤ s) (hc : c < 2 ^ (g.precision + 1)) :
    g.Mem (c * 2 ^ s) := by
  have hlt : c * 2 ^ s < 2 ^ (g.precision + s + 1) := by
    calc c * 2 ^ s < 2 ^ (g.precision + 1) * 2 ^ s :=
          Nat.mul_lt_mul_of_pos_right hc (Nat.two_pow_pos s)
      _ = 2 ^ (g.precision + s + 1) := by rw [← Nat.pow_add]; congr 1; omega
  have hlog := log2_le_of_lt hlt
  have hdepth : g.depth (c * 2 ^ s) ≤ s := depth_le_iff.2 ⟨hs, by omega⟩
  exact Dvd.dvd.mul_left (Nat.pow_dvd_pow 2 hdepth) c

theorem mem_two_pow {s : Nat} (hs : g.lowest ≤ s) : g.Mem (2 ^ s) := by
  have := mem_mul_two_pow (g := g) (c := 1) hs (Nat.one_lt_two_pow (by omega))
  rwa [Nat.one_mul] at this

/-- Multiples of an allowed power of two are members, up to the first power of two that needs one
    more bit. -/
theorem mem_of_dvd {k e : Nat} (hl : g.lowest ≤ k) (hdvd : 2 ^ k ∣ n) (hn : n ≤ 2 ^ e)
    (he : e ≤ k + g.precision + 1) : g.Mem n := by
  rcases Nat.lt_or_eq_of_le hn with hlt | rfl
  · have hlog := log2_le_of_lt (Nat.lt_of_lt_of_le hlt (Nat.pow_le_pow_right Nat.two_pos he))
    exact Nat.dvd_trans (Nat.pow_dvd_pow 2 (depth_le_iff.2 ⟨hl, hlog⟩)) hdvd
  · have hke : k ≤ e := (Nat.pow_dvd_pow_iff_le_right Nat.one_lt_two).1 hdvd
    exact mem_two_pow (Nat.le_trans hl hke)

/-- Multiples of the quantum of a member that are no greater are members. -/
theorem Mem.of_dvd {m : Nat} (hdvd : 2 ^ g.depth m ∣ n) (hle : n ≤ m) : g.Mem n :=
  Nat.dvd_trans (Nat.pow_dvd_pow 2 (depth_mono hle)) hdvd

/-- The factor of a member, which has at most one bit more than the precision. -/
theorem Mem.exists_mul (hn : g.Mem n) :
    ∃ c, c < 2 ^ (g.precision + 1) ∧ n = c * 2 ^ g.depth n := by
  obtain ⟨c, hc⟩ := hn
  refine ⟨c, ?_, by rw [Nat.mul_comm]; exact hc⟩
  have hlt : 2 ^ g.depth n * c < 2 ^ g.depth n * 2 ^ (g.precision + 1) := by
    rw [← hc, ← Nat.pow_add, ← Nat.add_assoc]
    exact lt_two_pow_depth g n
  exact Nat.lt_of_mul_lt_mul_left hlt

/-- A coarser grid is part of a finer one. -/
theorem Mem.mono (hn : h.Mem n) (hp : h.precision ≤ g.precision) (hl : g.lowest ≤ h.lowest) :
    g.Mem n :=
  Nat.dvd_trans (Nat.pow_dvd_pow 2 (depth_le_depth hp hl n)) hn

/-! ## Rounding -/

/-- The result is a multiple of the quantum. -/
theorem dvd_round (g : Grid) (a d : Nat) : 2 ^ g.depth (a / d) ∣ g.round a d :=
  Dvd.intro_left _ rfl

/-- On whole numbers only the quantum divides. -/
theorem round_one (g : Grid) (n : Nat) :
    g.round n 1 = nearestEven n (2 ^ g.depth n) * 2 ^ g.depth n := by
  rw [round, Nat.div_one, Nat.one_mul]

/-- The result is at most half a quantum above the ratio. -/
theorem round_mul_le (g : Grid) (a : Nat) (hd : 0 < d) :
    2 * (g.round a d * d) ≤ 2 * a + d * 2 ^ g.depth (a / d) := by
  have hle := nearestEven_mul_le a _ (Nat.mul_pos hd (Nat.two_pow_pos (g.depth (a / d))))
  calc 2 * (g.round a d * d) = _ := by rw [round]; ring
    _ ≤ _ := hle

/-- The result is at most half a quantum below the ratio. -/
theorem le_round_mul (g : Grid) (a : Nat) (hd : 0 < d) :
    2 * a ≤ 2 * (g.round a d * d) + d * 2 ^ g.depth (a / d) := by
  have hge := le_nearestEven_mul a _ (Nat.mul_pos hd (Nat.two_pow_pos (g.depth (a / d))))
  calc 2 * a ≤ _ := hge
    _ = _ := by rw [round]; ring

/-- Rounding a ratio that is at least a power of two gives at least that power. -/
theorem two_pow_le_round {s : Nat} (hd : 0 < d) (hs : g.lowest ≤ s) (h : 2 ^ s * d ≤ a) :
    2 ^ s ≤ g.round a d := by
  have hpos := Nat.two_pow_pos s
  have hda : d ≤ a := Nat.le_trans (Nat.le_mul_of_pos_left d hpos) h
  have hse : s ≤ (a / d).log2 := le_log2_of_le ((Nat.le_div_iff_mul_le hd).2 h)
  have hle := two_pow_mul_le hd hda
  have hdepth : g.depth (a / d) ≤ (a / d).log2 := depth_le_iff.2 ⟨by omega, by omega⟩
  unfold round
  -- from here on only the depth `k` and the binade `e` of the ratio matter
  generalize g.depth (a / d) = k at *
  generalize (a / d).log2 = e at *
  obtain ⟨t, rfl⟩ := Nat.exists_eq_add_of_le hdepth
  have hround : 2 ^ t ≤ nearestEven a (d * 2 ^ k) := by
    apply le_nearestEven (Nat.mul_pos hd (Nat.two_pow_pos k))
    calc 2 ^ t * (d * 2 ^ k) = 2 ^ (k + t) * d := by rw [Nat.pow_add]; ring
      _ ≤ a := hle
  calc 2 ^ s ≤ 2 ^ (k + t) := Nat.pow_le_pow_right Nat.two_pos hse
    _ = 2 ^ t * 2 ^ k := by rw [Nat.pow_add, Nat.mul_comm]
    _ ≤ _ := Nat.mul_le_mul_right _ hround

/-- Rounding a ratio that is at most a power of two gives at most that power. -/
theorem round_le_two_pow {s : Nat} (hd : 0 < d) (hs : g.lowest ≤ s) (h : a ≤ 2 ^ s * d) :
    g.round a d ≤ 2 ^ s := by
  have hlog : (a / d).log2 ≤ s := by
    apply log2_le_of_lt
    calc a / d ≤ 2 ^ s := Nat.div_le_of_le_mul (by rwa [Nat.mul_comm])
      _ < 2 ^ (s + 1) := Nat.pow_lt_pow_right Nat.one_lt_two (by omega)
  have hdepth : g.depth (a / d) ≤ s := depth_le_iff.2 ⟨hs, by omega⟩
  unfold round
  generalize g.depth (a / d) = k at *
  obtain ⟨t, rfl⟩ := Nat.exists_eq_add_of_le hdepth
  have hround : nearestEven a (d * 2 ^ k) ≤ 2 ^ t := by
    apply nearestEven_le (Nat.mul_pos hd (Nat.two_pow_pos k))
    calc a ≤ 2 ^ (k + t) * d := h
      _ = 2 ^ t * (d * 2 ^ k) := by rw [Nat.pow_add]; ring
  calc _ ≤ 2 ^ t * 2 ^ k := Nat.mul_le_mul_right _ hround
    _ = 2 ^ (k + t) := by rw [Nat.pow_add, Nat.mul_comm]

/-- Rounding a ratio that is at most a member gives at most that member. -/
theorem round_le_of_mem (hn : g.Mem n) (hd : 0 < d) (h : a ≤ n * d) : g.round a d ≤ n := by
  have hle : a / d ≤ n := Nat.div_le_of_le_mul (by rwa [Nat.mul_comm])
  obtain ⟨c, hc⟩ := Nat.dvd_trans (Nat.pow_dvd_pow 2 (depth_mono hle)) hn
  unfold round
  generalize g.depth (a / d) = k at *
  have hround : nearestEven a (d * 2 ^ k) ≤ c := by
    apply nearestEven_le (Nat.mul_pos hd (Nat.two_pow_pos k))
    calc a ≤ n * d := h
      _ = c * (d * 2 ^ k) := by rw [hc]; ring
  calc nearestEven a (d * 2 ^ k) * 2 ^ k ≤ c * 2 ^ k := Nat.mul_le_mul_right _ hround
    _ = n := by rw [hc, Nat.mul_comm]

/-- A ratio that is below a quarter of the least quantum rounds to zero. -/
theorem round_eq_zero_of_log2_lt (hd : 0 < d) (h : (a / d).log2 + 1 < g.lowest) :
    g.round a d = 0 := by
  have hlt := lt_mul_two_pow a hd
  have hdepth : (a / d).log2 + 1 + 1 ≤ g.depth (a / d) := by
    have := lowest_le_depth g (a / d)
    omega
  unfold round
  rw [nearestEven_eq_zero, Nat.zero_mul]
  calc 2 * a < 2 * (2 ^ ((a / d).log2 + 1) * d) := by omega
    _ = d * 2 ^ ((a / d).log2 + 1 + 1) := by rw [Nat.pow_succ _ ((a / d).log2 + 1)]; ring
    _ ≤ _ := Nat.mul_le_mul_left d (Nat.pow_le_pow_right Nat.two_pos hdepth)

/-- The result is in the binade of the ratio, or is the start of the next one, or has no deeper
    quantum than the ratio. -/
theorem round_eq_or_depth_le (hd : 0 < d) :
    g.depth (g.round a d) ≤ g.depth (a / d) ∨
      g.lowest ≤ (a / d).log2 + 1 ∧ g.round a d = 2 ^ ((a / d).log2 + 1) := by
  by_cases hl : g.lowest ≤ (a / d).log2 + 1
  · have hle := round_le_two_pow hd hl (Nat.le_of_lt (lt_mul_two_pow a hd))
    rcases Nat.lt_or_eq_of_le hle with hlt | heq
    · have hlog := log2_le_of_lt hlt
      have := log2_le_depth g (a / d)
      exact .inl (depth_le_iff.2 ⟨lowest_le_depth g _, by omega⟩)
    · exact .inr ⟨hl, heq⟩
  · left
    rw [round_eq_zero_of_log2_lt hd (by omega)]
    exact depth_le_iff.2 ⟨lowest_le_depth g _, by simp⟩

/-- The result is on the grid. -/
theorem mem_round (g : Grid) (hd : 0 < d) : g.Mem (g.round a d) := by
  rcases round_eq_or_depth_le (g := g) (a := a) hd with hle | ⟨hl, heq⟩
  · exact Nat.dvd_trans (Nat.pow_dvd_pow 2 hle) (dvd_round g a d)
  · rw [heq]
    exact mem_two_pow hl

/-- Members of the grid are kept. -/
theorem round_of_mem (hn : g.Mem n) (hd : 0 < d) : g.round (n * d) d = n := by
  obtain ⟨c, -, hc⟩ := hn.exists_mul
  unfold round
  rw [Nat.mul_div_cancel n hd]
  generalize g.depth n = k at *
  have heq : n * d = c * (d * 2 ^ k) := by rw [hc]; ring
  rw [heq, nearestEven_mul_self c (Nat.mul_pos hd (Nat.two_pow_pos k)), ← hc]

theorem round_one_of_mem (hn : g.Mem n) : g.round n 1 = n := by
  simpa using round_of_mem hn Nat.one_pos

theorem round_zero (hd : 0 < d) : g.round 0 d = 0 := by
  simpa using round_of_mem (mem_zero g) hd

/-- Rounding depends on the ratio only. -/
theorem round_mul_right {c : Nat} (hd : 0 < d) (hc : 0 < c) :
    g.round (a * c) (d * c) = g.round a d := by
  unfold round
  rw [Nat.mul_div_mul_right a d hc]
  have hpow := Nat.two_pow_pos (g.depth (a / d))
  rw [nearestEven_congr (b := a) (c := d * 2 ^ g.depth (a / d))
    (Nat.mul_pos (Nat.mul_pos hd hc) hpow) (Nat.mul_pos hd hpow) (by ring)]

/-- Rounding a multiple of a power of two to a quantum that is no coarser keeps it. -/
theorem nearestEven_two_pow_of_dvd {k : Nat} (h : 2 ^ k ∣ n) :
    nearestEven n (2 ^ k) * 2 ^ k = n := by
  obtain ⟨c, rfl⟩ := h
  rw [Nat.mul_comm (2 ^ k) c, nearestEven_mul_self c (Nat.two_pow_pos k)]

/-- Rounding to a quantum does not pass a greater power of two from below. -/
theorem nearestEven_two_pow_le {k e : Nat} (hk : k ≤ e) (h : n ≤ 2 ^ e) :
    nearestEven n (2 ^ k) * 2 ^ k ≤ 2 ^ e := by
  have hsplit : 2 ^ (e - k) * 2 ^ k = 2 ^ e := by rw [← Nat.pow_add, Nat.sub_add_cancel hk]
  rw [← hsplit]
  exact Nat.mul_le_mul_right _ (nearestEven_le (Nat.two_pow_pos _) (by rwa [hsplit]))

/-- Nor does it pass one from above. -/
theorem two_pow_le_nearestEven {k e : Nat} (hk : k ≤ e) (h : 2 ^ e ≤ n) :
    2 ^ e ≤ nearestEven n (2 ^ k) * 2 ^ k := by
  have hsplit : 2 ^ (e - k) * 2 ^ k = 2 ^ e := by rw [← Nat.pow_add, Nat.sub_add_cancel hk]
  rw [← hsplit]
  exact Nat.mul_le_mul_right _ (le_nearestEven (Nat.two_pow_pos _) (by rwa [hsplit]))

/-- Rounding to a quantum reaches a greater power of two exactly from half a quantum below it on:
    the last multiple before it is odd, so the tie goes up. -/
theorem two_pow_le_nearestEven_iff {k e : Nat} (hd : 0 < d) (hk : k < e) :
    2 ^ e ≤ nearestEven a (d * 2 ^ k) * 2 ^ k ↔ 2 * (2 ^ e * d) ≤ 2 * a + d * 2 ^ k := by
  obtain ⟨t, rfl⟩ : ∃ t, e = t + 1 + k := ⟨e - k - 1, by omega⟩
  have hquanta : 2 ^ (t + 1 + k) = 2 * 2 ^ t * 2 ^ k := by
    rw [Nat.pow_add, Nat.pow_succ, Nat.mul_comm (2 ^ t) 2]
  have hreach := two_mul_le_nearestEven_iff (a := a) (m := 2 ^ t)
    (Nat.mul_pos hd (Nat.two_pow_pos k))
  have hsame : 4 * 2 ^ t * (d * 2 ^ k) = 2 * (2 * 2 ^ t * 2 ^ k * d) := by ring
  rw [hquanta, Nat.mul_le_mul_right_iff (Nat.two_pow_pos k), hreach, hsame]

/-- A power of two that is reached with a fine quantum is reached with a coarse one. -/
theorem two_pow_le_nearestEven_of_le {j k e : Nat} (hjk : j ≤ k) (hk : k < e)
    (h : 2 ^ e ≤ nearestEven n (2 ^ j) * 2 ^ j) : 2 ^ e ≤ nearestEven n (2 ^ k) * 2 ^ k := by
  have hfine := two_pow_le_nearestEven_iff (a := n) Nat.one_pos (Nat.lt_of_le_of_lt hjk hk)
  have hcoarse := two_pow_le_nearestEven_iff (a := n) Nat.one_pos hk
  have hpow : 2 ^ j ≤ 2 ^ k := Nat.pow_le_pow_right Nat.two_pos hjk
  rw [Nat.one_mul] at hfine hcoarse
  omega

/-- The finer of two quanta rounds at least as near. -/
theorem natAbs_nearestEven_sub_le_of_le {j k : Nat} (h : j ≤ k) (n : Nat) :
    ((nearestEven n (2 ^ j) * 2 ^ j : Nat) - n : Int).natAbs ≤
      ((nearestEven n (2 ^ k) * 2 ^ k : Nat) - n : Int).natAbs := by
  -- a multiple of the coarse quantum is one of the fine quantum
  have hsplit : nearestEven n (2 ^ k) * 2 ^ k = nearestEven n (2 ^ k) * 2 ^ (k - j) * 2 ^ j := by
    rw [Nat.mul_assoc, ← Nat.pow_add, Nat.sub_add_cancel h]
  rw [hsplit]
  exact natAbs_nearestEven_sub_le _ (Nat.two_pow_pos j)

/-- Rounding on a grid reaches the end of a binade exactly from half a quantum below it on. -/
theorem two_pow_le_round_iff {e : Nat} (hd : 0 < d) (he : g.lowest + g.precision ≤ e) :
    2 ^ (e + 1) ≤ g.round a d ↔
      (2 ^ (g.precision + 2) - 1) * (d * 2 ^ (e - g.precision)) ≤ 2 * a := by
  obtain ⟨k, rfl⟩ : ∃ k, e = k + g.precision := ⟨e - g.precision, by omega⟩
  rw [Nat.add_sub_cancel]
  have hpos := Nat.two_pow_pos g.precision
  -- the start and the end of the binade, counted in quanta
  have hstart : 2 ^ (k + g.precision) * d = 2 ^ g.precision * (d * 2 ^ k) := by
    rw [Nat.pow_add]
    ring
  have hend : 2 ^ (k + g.precision + 1) * d = 2 * (2 ^ g.precision * (d * 2 ^ k)) := by
    rw [Nat.pow_succ, Nat.pow_add]
    ring
  have hbound : (2 ^ (g.precision + 2) - 1) * (d * 2 ^ k) =
      4 * (2 ^ g.precision * (d * 2 ^ k)) - d * 2 ^ k := by
    rw [Nat.sub_mul, Nat.one_mul, Nat.pow_add]
    congr 1
    ring
  have hquantum : d * 2 ^ k ≤ 2 ^ g.precision * (d * 2 ^ k) := Nat.le_mul_of_pos_left _ hpos
  rw [hbound]
  rcases Nat.lt_or_ge a (2 ^ (k + g.precision) * d) with hbelow | hlow
  · have hround := round_le_two_pow (g := g) hd (by omega) (Nat.le_of_lt hbelow)
    have hlt : 2 ^ (k + g.precision) < 2 ^ (k + g.precision + 1) :=
      Nat.pow_lt_pow_right Nat.one_lt_two (by omega)
    exact iff_of_false (by omega) (by omega)
  rcases Nat.lt_or_ge a (2 ^ (k + g.precision + 1) * d) with hupp | habove
  · rw [round, depth_of_binade hd hlow hupp he, Nat.add_sub_cancel,
      two_pow_le_nearestEven_iff hd (by omega), hend]
    omega
  · exact iff_of_true (two_pow_le_round hd (by omega) habove) (by omega)

/-! ## Two roundings in a row -/

/-- The finer rounding keeps the depth of the coarser one, or makes that one superfluous. -/
theorem round_eq_of_round (hg : g.lowest = 0) (hd : 0 < d) :
    h.round (g.round a d) 1 =
      nearestEven (g.round a d) (2 ^ h.depth (a / d)) * 2 ^ h.depth (a / d) := by
  rw [round_one]
  have hup := round_le_two_pow (g := g) (s := (a / d).log2 + 1) hd (by omega)
    (Nat.le_of_lt (lt_mul_two_pow a hd))
  by_cases heq : g.round a d = 2 ^ ((a / d).log2 + 1)
  · -- the carry into the next binade
    rw [heq]
    by_cases hl : h.lowest ≤ (a / d).log2 + 1
    · rw [nearestEven_two_pow_of_dvd (mem_two_pow hl), nearestEven_two_pow_of_dvd]
      exact Nat.pow_dvd_pow 2 (depth_le_iff.2 ⟨hl, by omega⟩)
    · -- below the least quantum both depths are that of the least quantum
      have : h.depth (2 ^ ((a / d).log2 + 1)) = h.depth (a / d) := by
        rw [depth, depth, Nat.log2_two_pow]
        omega
      rw [this]
  · -- otherwise the finer rounding stays in its binade
    have hlog : (g.round a d).log2 = (a / d).log2 := by
      apply Nat.le_antisymm
      · exact log2_le_of_lt (Nat.lt_of_le_of_ne hup heq)
      · rcases Nat.lt_or_ge a d with hlt | hge
        · rw [Nat.div_eq_of_lt hlt]
          simp
        · exact le_log2_of_le (two_pow_le_round hd (by omega) (two_pow_mul_le hd hge))
    rw [depth, depth, hlog]

/-- Rounding to a fine grid and then to a coarse one is rounding to the coarse one at once, if the
    fine rounding is exact whenever it ends half way between two members of the coarse grid. -/
theorem round_round (hg : g.lowest = 0) (hp : h.precision ≤ g.precision) (hd : 0 < d)
    (hexact : ∀ s, h.depth (a / d) = s + 1 → g.round a d % 2 ^ (s + 1) = 2 ^ s →
      a = g.round a d * d) :
    h.round (g.round a d) 1 = h.round a d := by
  rw [round_eq_of_round hg hd]
  have hle : g.depth (a / d) ≤ h.depth (a / d) := depth_le_depth hp (by omega) _
  unfold round at hexact ⊢
  generalize g.depth (a / d) = j at *
  generalize h.depth (a / d) = k at *
  have hj := Nat.two_pow_pos j
  congr 1
  -- counted in fine quanta, the second rounding is to multiples of `2 ^ t`
  obtain ⟨t, rfl⟩ := Nat.exists_eq_add_of_le hle
  rw [Nat.add_comm j t, Nat.pow_add, nearestEven_mul_right (Nat.two_pow_pos t) hj]
  cases t with
  | zero => simp
  | succ t =>
    have ht : 2 ^ (t + 1) = 2 * 2 ^ t := by rw [Nat.pow_succ, Nat.mul_comm]
    rw [ht, nearestEven_nearestEven (Nat.mul_pos hd hj) (Nat.two_pow_pos t)]
    · congr 1
      ring
    · intro htie
      have := hexact (j + t) (by omega) (by
        have hmod : 2 ^ (j + t + 1) = 2 * 2 ^ t * 2 ^ j := by
          rw [Nat.add_assoc, Nat.pow_add, ht, Nat.mul_comm]
        rw [hmod, Nat.mul_mod_mul_right, htie, Nat.pow_add, Nat.mul_comm])
      calc a = _ := this
        _ = _ := by ring

end Grid

end VariablePrecision
