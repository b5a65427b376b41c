/-
  VariablePrecision.Proofs.Analysis.Cancellation

  A cancellation of two bits or more is exact.

  If the exponent of a sum is two or more below that of its greater term, then the sum is
  smaller than half of that term.  So the terms have opposite signs, the sum is no greater than
  either of them, and a difference of this size is on the grid (`Grid.mem_sub`).  Of the result
  only an upper bound is used, which its exponent field gives for zero and subnormal values as
  well; the greater term is always normal.

  An exact sum has no error to be found, so that no operation adds both such a cancellation and
  a round-off to the statistics.
-/

import VariablePrecision.Proofs.Analysis.Roundoff
import VariablePrecision.Proofs.Analysis.Run

namespace VariablePrecision.Analysis

open Binary

variable {f : Format} {x y : Binary f}

/-- A sum that is far below one of its terms is on the grid before it is rounded. -/
theorem mem_add_of_exponent_le (hres : (x + y).isFinite)
    (h : (x + y).exponent + 2 ≤ x.exponent) : f.grid.Mem (x.units + y.units).natAbs := by
  have hunit := f.unitExponent_add_one
  have hlow : -(f.bias : ℤ) ≤ (x + y).exponent := (exponent_bounds hres).1
  -- the binade of the term starts at `2 ^ (e + 1)` units
  obtain ⟨e, he⟩ : ∃ e : ℕ, ((e + 1 : ℕ) : ℤ) = x.exponent + f.unitExponent :=
    ⟨(x.exponent + f.unitExponent - 1).toNat, by omega⟩
  have hx : 2 ^ (e + 1) ≤ x.absUnits := (le_exponent_iff (by omega)).1 he.le
  -- the rounded sum is below half of that, and then so is the sum itself
  have hround : (x + y).absUnits < 2 ^ e :=
    not_le.1 fun hle => absurd ((le_exponent_iff (x := x + y) (by omega)).2 hle) (by omega)
  rw [← natAbs_units, units_add hres, Grid.natAbs_roundInt] at hround
  have hsum : (x.units + y.units).natAbs < 2 ^ e := by
    by_contra hge
    have hle := Grid.two_pow_le_round (g := f.grid) (a := (x.units + y.units).natAbs) Nat.one_pos
      (Nat.zero_le e) (by omega)
    omega
  -- hence the other term has the opposite sign, and more than the size of the sum
  rw [← natAbs_units, Nat.pow_succ] at hx
  have hmem : f.grid.Mem (x.units - -y.units).natAbs :=
    Grid.mem_sub (mem_units x) (by rw [Int.natAbs_neg]; exact mem_units y) (by omega) (by omega)
  rwa [Int.sub_neg] at hmem

/-- A sum with a cancellation of two bits or more is exact. -/
theorem units_add_of_cancellation (hres : (x + y).isFinite) {k : Nat}
    (hk : cancellation x y (x + y) = some k) (htwo : 2 ≤ k) :
    x.units + y.units = (x + y).units := by
  obtain ⟨hx, hy⟩ := isFinite_of_isFinite_add hres
  have hbits := positiveBits_eq_some hk
  have hmem : f.grid.Mem (x.units + y.units).natAbs := by
    rcases le_total y.exponent x.exponent with hle | hle
    · exact mem_add_of_exponent_le hres (by omega)
    · rw [add_comm_of_isFinite hx hy] at hres hbits
      rw [Int.add_comm]
      exact mem_add_of_exponent_le hres (by omega)
  rw [units_add hres, Grid.roundInt_of_mem hmem]

/-- An exact sum has no round-off. -/
theorem roundoff_eq_none_of_exact (hres : (x + y).isFinite)
    (hexact : x.units + y.units = (x + y).units) : roundoff .add x y (x + y) = none := by
  obtain ⟨hx, hy⟩ := isFinite_of_isFinite_add hres
  rw [← Option.not_isSome_iff_eq_none, isSome_roundoff_iff]
  intro herror
  exact ((sumError_ne_zero_iff hx hy hres).1 herror).1 (toRat_add_eq_iff.2 hexact)

/-- An operation without round-off leaves all statistics of round-offs as they were. -/
theorem roundoff_record_of_eq_none {op : Operation} {res : Binary f}
    (hnone : roundoff op x y res = none) {a a' : Analysis} {site : Option String}
    (h : a.record op x y res site = .ok a') (site' : Option String) :
    (a'.statistics? site').map (·.roundoff) = (a.statistics? site').map (·.roundoff) := by
  have hsame : ∀ s : Statistics, (s.record op x y res).roundoff = s.roundoff := by
    intro s
    unfold Statistics.record
    split
    · rw [hnone]
      rfl
    · rfl
  rw [statistics?_record h, Option.map_map]
  congr 1
  funext s
  rw [Function.comp_apply]
  split
  · exact hsame s
  · rfl

/-- A finite sum or difference with a cancellation of two bits or more is exact and has no
    round-off, so recording it leaves the statistics of round-offs alone. -/
theorem exact_of_cancellation (op : Operation) (hop : op = .add ∨ op = .sub)
    (hres : (op.apply x y).isFinite) {k : Nat}
    (hk : cancellation x y (op.apply x y) = some k) (htwo : 2 ≤ k) :
    op.exact x.toRat y.toRat = (op.apply x y).toRat ∧
      roundoff op x y (op.apply x y) = none ∧
      ∀ (a a' : Analysis) (site : Option String),
        a.record op x y (op.apply x y) site = .ok a' → ∀ site',
          (a'.statistics? site').map (·.roundoff) = (a.statistics? site').map (·.roundoff) := by
  have hexact : op.exact x.toRat y.toRat = (op.apply x y).toRat ∧
      roundoff op x y (op.apply x y) = none := by
    rcases hop with rfl | rfl
    · have hunits := units_add_of_cancellation hres hk htwo
      exact ⟨toRat_add_eq_iff.2 hunits, roundoff_eq_none_of_exact hres hunits⟩
    · -- a difference is the sum with the opposite of its second term, of the same exponent
      have hunits := units_add_of_cancellation (y := -y) hres hk htwo
      refine ⟨?_, roundoff_eq_none_of_exact hres hunits⟩
      have hneg := toRat_add_eq_iff.2 hunits
      rwa [toRat_neg, ← sub_eq_add_neg] at hneg
  exact ⟨hexact.1, hexact.2, fun a a' site h => roundoff_record_of_eq_none hexact.2 h⟩

/-- An analysis of one addition, before it has seen any. -/
def watchedAddition : Analysis where
  sites := [{ id := "sum", kind := .arithmetic .add }]
  output := none

/-- Two bits are cancelled between neighbours of the second binade of normal values, which leaves a
    subnormal value. -/
theorem exact_of_cancellation_subnormal :
    Binary.ofBits .binary64 0x0020000000000001 + .ofBits .binary64 0x8020000000000000 =
        .ofBits .binary64 0x0000000000000002 ∧
      cancellation (.ofBits .binary64 0x0020000000000001) (.ofBits .binary64 0x8020000000000000)
        (.ofBits .binary64 0x0000000000000002) = some 2 ∧
      Binary.toRat (.ofBits .binary64 0x0020000000000001) +
          Binary.toRat (.ofBits .binary64 0x8020000000000000) =
        Binary.toRat (.ofBits .binary64 0x0000000000000002) ∧
      roundoff .add (.ofBits .binary64 0x0020000000000001) (.ofBits .binary64 0x8020000000000000)
        (.ofBits .binary64 0x0000000000000002) = none ∧
      ∃ a', watchedAddition.record .add (.ofBits .binary64 0x0020000000000001)
          (.ofBits .binary64 0x8020000000000000) (.ofBits .binary64 0x0000000000000002)
          (some "sum") = .ok a' ∧
        (a'.statistics? (some "sum")).map (·.roundoff) = some {} := by
  have hres : Operation.add.apply (.ofBits .binary64 0x0020000000000001)
      (.ofBits .binary64 0x8020000000000000) = Binary.ofBits .binary64 0x0000000000000002 :=
    add_eq_of_units (by decide) (by decide) (n := 2) (by decide) (by decide)
  have hbits : cancellation (.ofBits .binary64 0x0020000000000001)
      (.ofBits .binary64 0x8020000000000000) (.ofBits .binary64 0x0000000000000002) =
      some 2 := by decide
  have hsite : watchedAddition.statistics? (some "sum") = some {} := by decide
  obtain ⟨hexact, hnone, hrecord⟩ := exact_of_cancellation .add
    (x := .ofBits .binary64 0x0020000000000001) (y := .ofBits .binary64 0x8020000000000000)
    (.inl rfl) (by rw [hres]; decide) (by rw [hres]; exact hbits) (Nat.le_refl 2)
  rw [hres] at hexact hnone hrecord
  obtain ⟨a', ha'⟩ := exists_record hsite .add (.ofBits .binary64 0x0020000000000001)
    (.ofBits .binary64 0x8020000000000000) (.ofBits .binary64 0x0000000000000002)
  refine ⟨hres, hbits, hexact, hnone, a', ha', ?_⟩
  rw [hrecord _ _ _ ha', hsite]
  rfl

end VariablePrecision.Analysis
