/-
  VariablePrecision.Proofs.Machine.Word

  Arithmetic on machine words that must not overflow.

  Each step of a computation is done on exact integers, and its result has to fit the
  word that takes it: `i32`, `i64` with a sign, `u32`, `u64` without.  A shift also
  needs an amount below the width of its word.  A computation that breaks one of these
  rules has no result, so to have one is to be safe.
-/

import Mathlib.Tactic.Ring
import VariablePrecision.Format

namespace VariablePrecision.Machine

/-! ## Words -/

/-- The number as a word with a sign. -/
def signed (width : Nat) (n : Int) : Option Int :=
  if -2 ^ (width - 1) ≤ n ∧ n < 2 ^ (width - 1) then some n else none

/-- The number as a word without a sign. -/
def unsigned (width : Nat) (n : Int) : Option Nat :=
  if 0 ≤ n ∧ n < 2 ^ width then some n.toNat else none

/-- The number as a signed word of 32 bits. -/
def i32 : Int → Option Int := signed 32

/-- The number as a signed word of 64 bits. -/
def i64 : Int → Option Int := signed 64

/-- The number as a word of 32 bits. -/
def u32 : Int → Option Nat := unsigned 32

/-- The number as a word of 64 bits. -/
def u64 : Int → Option Nat := unsigned 64

theorem i32_eq_some {n : Int} (h : -2147483648 ≤ n ∧ n < 2147483648) : i32 n = some n := by
  rw [i32, signed]
  exact if_pos h

theorem i64_eq_some {n : Int} (h : -9223372036854775808 ≤ n ∧ n < 9223372036854775808) :
    i64 n = some n := by
  rw [i64, signed]
  exact if_pos h

theorem u32_eq_some {n : Nat} (h : n < 4294967296) : u32 n = some n := by
  rw [u32, unsigned]
  exact if_pos ⟨Int.natCast_nonneg n, by exact_mod_cast h⟩

theorem u64_eq_some {n : Nat} (h : n < 18446744073709551616) : u64 n = some n := by
  rw [u64, unsigned]
  exact if_pos ⟨Int.natCast_nonneg n, by exact_mod_cast h⟩

/-- A computation goes on from what its first step gives. -/
theorem bind_eq {α β : Type} {o : Option α} {g : α → Option β} {a : α} {r : Option β}
    (h : o = some a) (hg : g a = r) : (o >>= g) = r := by
  rw [h]
  exact hg

/-! ## Shifts -/

/-- The word shifted to the left; no bit may be lost. -/
def shiftLeft (width : Nat) (n : Nat) (k : Int) : Option Nat :=
  if 0 ≤ k ∧ k < width then unsigned width (n * 2 ^ k.toNat : Nat) else none

/-- The word shifted to the right. -/
def shiftRight (width : Nat) (n : Nat) (k : Int) : Option Nat :=
  if 0 ≤ k ∧ k < width then some (n / 2 ^ k.toNat) else none

theorem shiftLeft_eq_some {width n k : Nat} (hk : k < width) (h : n * 2 ^ k < 2 ^ width) :
    shiftLeft width n k = some (n * 2 ^ k) := by
  rw [shiftLeft, if_pos ⟨Int.natCast_nonneg k, by exact_mod_cast hk⟩, Int.toNat_natCast, unsigned]
  exact if_pos ⟨Int.natCast_nonneg _, by exact_mod_cast h⟩

theorem shiftLeft_one_eq_some {width k : Nat} (hk : k < width) :
    shiftLeft width 1 k = some (2 ^ k) := by
  have h : 1 * 2 ^ k < 2 ^ width := by
    rw [Nat.one_mul]
    exact Nat.pow_lt_pow_right Nat.one_lt_two hk
  rw [shiftLeft_eq_some hk h, Nat.one_mul]

theorem shiftRight_eq_some {width k : Nat} (n : Nat) (hk : k < width) :
    shiftRight width n k = some (n / 2 ^ k) := by
  rw [shiftRight, if_pos ⟨Int.natCast_nonneg k, by exact_mod_cast hk⟩, Int.toNat_natCast]

end VariablePrecision.Machine
