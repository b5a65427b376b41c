/-
  VariablePrecision.Proofs.Analysis.Event

  What a single operation tells an analysis.

  An `Event` is an operation with its operands, its result and its site.  It shows a
  phenomenon when all three values are finite, the operation is of a kind in which the
  phenomenon is looked for, and there are bits to count; `Event.bits?` is their number,
  which stays below 2048.  Statistics that summarise series of counts go on to
  summarise the series with the bits of one event more (`Statistics.record_ofCounts`).
-/

import VariablePrecision.Analysis.Basic
import VariablePrecision.Proofs.Analysis.Summary
import VariablePrecision.Proofs.Binary.Quantum

namespace VariablePrecision.Analysis

variable {f : Format}

/-- What an analysis looks for in an operation. -/
inductive Phenomenon where
  | cancellation
  | absorption
  | roundoff
  deriving DecidableEq, Repr

/-- An operation as it is reported to the analysis. -/
structure Event where
  format : Format
  op : Operation
  x : Binary format
  y : Binary format
  res : Binary format
  site : Option String

namespace Event

/-- No infinity and no not-a-number is among the values. -/
def Finite (e : Event) : Prop :=
  e.x.isFinite = true ∧ e.y.isFinite = true ∧ e.res.isFinite = true
  deriving Decidable

/-- The operation is one in which the phenomenon is looked for. -/
def Concerns (e : Event) : Phenomenon → Prop
  | .cancellation => e.op = .sub ∨ (e.op = .add ∧ e.y.negative = true ∧ e.y.isZero = false)
  | .absorption => e.op = .add ∨ (e.op = .sub ∧ e.y.negative = true ∧ e.y.isZero = false)
  | .roundoff => True

instance (e : Event) (p : Phenomenon) : Decidable (e.Concerns p) := by
  cases p <;> unfold Concerns <;> infer_instance

/-- The bits that are measured for the phenomenon. -/
def measure (e : Event) : Phenomenon → Option Nat
  | .cancellation => cancellation e.x e.y e.res
  | .absorption => absorption e.x e.y e.res
  | .roundoff => roundoff e.op e.x e.y e.res

/-- The bits of the phenomenon that the event shows, if it shows it. -/
def bits? (e : Event) (p : Phenomenon) : Option Nat :=
  if e.Finite ∧ e.Concerns p then e.measure p else none

theorem adds_iff (e : Event) : adds e.op e.y = true ↔ e.Concerns .absorption := by
  simp [adds, isBelowZero, Concerns]

theorem subtracts_iff (e : Event) : subtracts e.op e.y = true ↔ e.Concerns .cancellation := by
  simp [subtracts, isBelowZero, Concerns]

theorem bits?_eq_none {e : Event} (h : ¬ e.Finite) (p : Phenomenon) : e.bits? p = none :=
  if_neg fun hp => h hp.1

/-- Of a finite event only its kind decides whether the bits count. -/
theorem bits?_eq_ite {e : Event} (h : e.Finite) {p : Phenomenon} {b : Bool}
    (hb : b = true ↔ e.Concerns p) : e.bits? p = if b then e.measure p else none := by
  rw [bits?]
  cases b with
  | true => rw [if_pos ⟨h, hb.1 rfl⟩, if_pos rfl]
  | false => rw [if_neg fun hp => Bool.false_ne_true (hb.2 hp.2), if_neg Bool.false_ne_true]

end Event

/-! ## Sizes -/

theorem positiveBits_eq_some {bits : Int} {n : Nat} (h : positiveBits bits = some n) :
    (n : Int) = bits := by
  unfold positiveBits at h
  split at h
  · rw [← Option.some.inj h]
    omega
  · contradiction

theorem exponent_bounds {x : Binary f} (hx : x.isFinite) :
    -(f.bias : Int) ≤ x.exponent ∧ x.exponent ≤ f.bias := by
  have := Binary.biasedExponent_le hx
  unfold Binary.exponent
  omega

theorem cancellation_le {x y res : Binary f} {n : Nat} (hx : x.isFinite) (hy : y.isFinite)
    (hres : res.isFinite) (h : cancellation x y res = some n) : n ≤ 2 * f.bias := by
  -- the bits are a difference of two exponents, the greater one being an operand's
  have hn := positiveBits_eq_some h
  have hx' := exponent_bounds hx
  have hy' := exponent_bounds hy
  have hres' := exponent_bounds hres
  omega

theorem absorption_le {x y res : Binary f} {n : Nat} (h : absorption x y res = some n) :
    n ≤ f.mantissaBits + 1 := by
  simp only [absorption] at h
  split at h
  · contradiction
  · have hn := positiveBits_eq_some h
    omega

theorem roundoff_le {op : Operation} {x y res : Binary f} {n : Nat}
    (h : roundoff op x y res = some n) : n ≤ f.bias := by
  simp only [roundoff] at h
  split at h
  · next hfinite =>
    have hbounds := exponent_bounds (Bool.and_eq_true_iff.1 hfinite).1
    rw [← Option.some.inj h]
    omega
  · contradiction

/-- No event shows more than 2046 bits. -/
theorem Event.bits?_lt {e : Event} {p : Phenomenon} {n : Nat} (h : e.bits? p = some n) :
    n < 2 ^ 11 := by
  have hbias := e.format.bias_le
  have hmantissa := e.format.mantissaBits_le
  unfold bits? at h
  split at h
  · next hshown =>
    obtain ⟨⟨hx, hy, hres⟩, -⟩ := hshown
    cases p with
    | cancellation =>
      have := cancellation_le hx hy hres h
      omega
    | absorption =>
      have := absorption_le h
      omega
    | roundoff =>
      have := roundoff_le h
      omega
  · contradiction

/-! ## Statistics of series -/

namespace Statistics

/-- The accumulator of a phenomenon. -/
def of (s : Statistics) : Phenomenon → Accumulator
  | .cancellation => s.cancellation
  | .absorption => s.absorption
  | .roundoff => s.roundoff

/-- The statistics of one series of bit counts for each phenomenon. -/
def ofCounts (counts : Phenomenon → List Nat) : Statistics where
  cancellation := .summary (counts .cancellation)
  absorption := .summary (counts .absorption)
  roundoff := .summary (counts .roundoff)

theorem of_ofCounts (counts : Phenomenon → List Nat) (p : Phenomenon) :
    (ofCounts counts).of p = .summary (counts p) := by
  cases p <;> rfl

/-- An event adds the bits that it shows to the series, and nothing else. -/
theorem record_ofCounts (counts : Phenomenon → List Nat) (e : Event) :
    (ofCounts counts).record e.op e.x e.y e.res =
      ofCounts fun p => counts p ++ (e.bits? p).toList := by
  by_cases he : e.Finite
  · have hfinite : (e.x.isFinite && e.y.isFinite && e.res.isFinite) = true := by
      rw [he.1, he.2.1, he.2.2]
      rfl
    -- each accumulator decides by the kind of the operation whether it takes the bits
    rw [record, if_pos hfinite]
    simp only [ofCounts, Accumulator.record?_summary]
    rw [Event.bits?_eq_ite he e.adds_iff, Event.bits?_eq_ite he e.subtracts_iff,
      Event.bits?_eq_ite he (iff_of_true rfl trivial : true = true ↔ e.Concerns .roundoff)]
    rfl
  · have hfinite : ¬ (e.x.isFinite && e.y.isFinite && e.res.isFinite) = true := by
      simpa [Event.Finite, and_assoc] using he
    rw [record, if_neg hfinite]
    simp only [Event.bits?_eq_none he, Option.toList_none, List.append_nil]

end Statistics

end VariablePrecision.Analysis
