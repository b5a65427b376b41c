/-
  VariablePrecision.Proofs.Analysis.Summary

  What an accumulator says about a series of bit counts.

  `summary counts` takes its numbers from the series as a whole: the least and the
  greatest count (zero if there is none), the total, and the length.  Recording one
  count more is the same as summing up the longer series, so an accumulator holds the
  summary of all it has recorded, and the order of the series does not matter.
-/

import Mathlib.Algebra.Order.BigOperators.Group.List
import Mathlib.Algebra.Order.Group.Nat
import Mathlib.Algebra.Ring.Nat
import VariablePrecision.Analysis.Accumulator

namespace VariablePrecision.Analysis.Accumulator

/-- The statistics of a series, each number taken from the whole series. -/
def summary (counts : List Nat) : Accumulator where
  min := counts.min?.getD 0
  max := counts.max?.getD 0
  sum := counts.sum
  count := counts.length

theorem record_summary (counts : List Nat) (n : Nat) :
    (summary counts).record n = summary (counts ++ [n]) := by
  cases counts with
  | nil => simp [summary, record]
  | cons m counts =>
    have hmin : (m :: counts ++ [n]).min? = some (Min.min (counts.foldl Min.min m) n) := by
      rw [List.cons_append, List.min?_cons', List.foldl_append]
      rfl
    have hmax : (m :: counts ++ [n]).max? = some (Max.max (counts.foldl Max.max m) n) := by
      rw [List.cons_append, List.max?_cons', List.foldl_append]
      rfl
    rw [summary, summary, hmin, hmax, List.sum_append, List.length_append, List.min?_cons',
      List.max?_cons']
    rfl

theorem record?_summary (counts : List Nat) (bits : Option Nat) :
    (summary counts).record? bits = summary (counts ++ bits.toList) := by
  cases bits with
  | none => rw [Option.toList_none, List.append_nil, record?]
  | some n => exact record_summary counts n

theorem summary_eq_of_perm {counts counts' : List Nat} (h : counts.Perm counts') :
    summary counts = summary counts' := by
  have hmin : counts.min? = counts'.min? := by
    refine Option.ext fun n => ?_
    simp only [List.min?_eq_some_iff, h.mem_iff]
  have hmax : counts.max? = counts'.max? := by
    refine Option.ext fun n => ?_
    simp only [List.max?_eq_some_iff, h.mem_iff]
  rw [summary, summary, hmin, hmax, h.sum_eq, h.length_eq]

/-! ## Machine words -/

/-- The numbers fit the words of a machine, 32 bits for the extremes and 64 for the others. -/
structure FitsWords (acc : Accumulator) : Prop where
  min_lt : acc.min < 2 ^ 32
  max_lt : acc.max < 2 ^ 32
  sum_lt : acc.sum < 2 ^ 64
  count_lt : acc.count < 2 ^ 64

/-- A series that is not too long, of counts below 2048, does not leave the words. -/
theorem fitsWords_summary {counts : List Nat} (hlength : counts.length < 2 ^ 52)
    (hcounts : ∀ n ∈ counts, n < 2 ^ 11) : (summary counts).FitsWords := by
  -- the extremes are counts of the series, or zero
  have hword : ∀ n ∈ counts, n < 2 ^ 32 := fun n hn =>
    Nat.lt_trans (hcounts n hn) (by decide)
  have hsum : counts.sum ≤ counts.length * 2 ^ 11 :=
    List.sum_le_card_nsmul counts _ fun n hn => Nat.le_of_lt (hcounts n hn)
  refine ⟨?_, ?_, ?_, ?_⟩
  · rw [summary]
    cases h : counts.min? with
    | none => exact Nat.two_pow_pos 32
    | some n => exact hword n (List.min?_mem h)
  · rw [summary]
    cases h : counts.max? with
    | none => exact Nat.two_pow_pos 32
    | some n => exact hword n (List.max?_mem h)
  · calc counts.sum ≤ counts.length * 2 ^ 11 := hsum
      _ < 2 ^ 52 * 2 ^ 11 := Nat.mul_lt_mul_of_pos_right hlength (Nat.two_pow_pos 11)
      _ < 2 ^ 64 := by decide
  · exact Nat.lt_trans hlength (by decide)

end VariablePrecision.Analysis.Accumulator
