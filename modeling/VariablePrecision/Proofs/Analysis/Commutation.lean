/-
  VariablePrecision.Proofs.Analysis.Commutation

  Recording a sum and recording it with its terms exchanged.

  The sum itself does not depend on the order of its terms, and most of what is recorded does
  not either:

    absorption     goes by the term of smaller size, and of equals only the size counts;
    round-off      the two-sum scheme finds the same error in both orders, unless its first
                   step overflows in one of them;
    cancellation   is the same in both orders, but looked for only where the second term is
                   below zero.  So it is recorded in one order and not in the other whenever
                   there is one at all, for it takes terms on two sides of zero
                   (`cancellation_of_same_side`).
-/

import VariablePrecision.Proofs.Analysis.Absorption
import VariablePrecision.Proofs.Analysis.Cancellation

namespace VariablePrecision.Analysis

open Binary

variable {f : Format} {x y res : Binary f}

/-! ## Absorption -/

/-- Values of the same size differ in their sign at most. -/
theorem eq_withSign (h : x.absUnits = y.absUnits) : x = y.withSign x.negative :=
  eq_of_absUnits rfl h

/-- Terms of the same size lose the same digits. -/
theorem countedBits_congr {small small' : Binary f} (h : small.absUnits = small'.absUnits) :
    countedBits small res = countedBits small' res := by
  rw [eq_withSign h]
  rfl

theorem absUnits_eq_of_abs_toRat_eq (h : |x.toRat| = |y.toRat|) : x.absUnits = y.absUnits := by
  have hunit : (2 : ℚ) ^ (-(f.unitExponent : ℤ)) ≠ 0 := (zpow_pos two_pos _).ne'
  rwa [abs_toRat, abs_toRat, mul_left_inj' hunit, Nat.cast_inj] at h

theorem absUnits_lesser_comm (x y : Binary f) : (lesser x y).absUnits = (lesser y x).absUnits := by
  unfold lesser
  rcases lt_trichotomy |x.toRat| |y.toRat| with h | h | h
  · rw [if_pos h, if_neg h.not_gt]
  · rw [if_neg h.not_lt, if_neg h.not_gt, absUnits_eq_of_abs_toRat_eq h]
  · rw [if_neg h.not_gt, if_pos h]

theorem absorption_comm (hx : x.isFinite) (hy : y.isFinite) (res : Binary f) :
    absorption x y res = absorption y x res := by
  rw [absorption_eq_countedBits hx hy, absorption_eq_countedBits hy hx,
    countedBits_congr (absUnits_lesser_comm x y)]

/-! ## Cancellation -/

theorem cancellation_comm (x y res : Binary f) : cancellation x y res = cancellation y x res := by
  rw [cancellation, cancellation, max_comm]

/-- Results that are no smaller than both terms have cancelled nothing. -/
theorem cancellation_of_le (hx : x.absUnits ≤ res.absUnits) (hy : y.absUnits ≤ res.absUnits) :
    cancellation x y res = none := by
  have hxe := exponent_mono hx
  have hye := exponent_mono hy
  exact if_neg (by omega)

/-- What is not finite is greater than all that is. -/
theorem absUnits_le_of_not_finite (hx : x.isFinite) (hres : res.isFinite = false) :
    x.absUnits ≤ res.absUnits := by
  have hlt := isFinite_iff.1 hx
  have hge := mt (isFinite_iff (x := res)).2 (by simp [hres])
  omega

theorem isFinite_of_cancellation {k : Nat} (hx : x.isFinite) (hy : y.isFinite)
    (h : cancellation x y res = some k) : res.isFinite := by
  by_contra hres
  rw [Bool.not_eq_true] at hres
  rw [cancellation_of_le (absUnits_le_of_not_finite hx hres)
    (absUnits_le_of_not_finite hy hres)] at h
  contradiction

theorem isBelowZero_iff : isBelowZero x = true ↔ x.units < 0 := by
  rw [isBelowZero, Bool.and_eq_true, Bool.not_eq_true', isZero_eq_false_iff, ← natAbs_units]
  constructor
  · rintro ⟨hneg, hne⟩
    exact (negative_iff (by omega)).1 hneg
  · intro hneg
    exact ⟨(negative_iff hneg.ne).2 hneg, by omega⟩

/-- A sum of terms on the same side of zero is no smaller than its first one. -/
theorem absUnits_le_add (hx : x.isFinite) (hside : isBelowZero x = isBelowZero y) :
    x.absUnits ≤ (x + y).absUnits := by
  cases hres : (x + y).isFinite with
  | false => exact absUnits_le_of_not_finite hx hres
  | true =>
    rw [Bool.eq_iff_iff, isBelowZero_iff, isBelowZero_iff] at hside
    have hnear := Grid.natAbs_round_sub_le (a := (x.units + y.units).natAbs) (mem_units x)
    rw [← Grid.natAbs_roundInt, ← units_add hres, natAbs_units, natAbs_units] at hnear
    have hsize := natAbs_units x
    omega

/-- Terms on the same side of zero do not cancel. -/
theorem cancellation_of_same_side (hx : x.isFinite) (hy : y.isFinite)
    (hside : isBelowZero x = isBelowZero y) : cancellation x y (x + y) = none := by
  have hle := absUnits_le_add hy hside.symm
  rw [add_comm_of_isFinite hy hx] at hle
  exact cancellation_of_le (absUnits_le_add hx hside) hle

/-! ## Round-off -/

/-- The first step of the two-sum scheme overflows, though the sum does not. -/
def FirstStepOverflows (x y : Binary f) : Prop :=
  (x + y).isFinite ∧ (x + y - x).isFinite = false

/-- That takes a second term of the greatest finite size. -/
theorem FirstStepOverflows.magnitude_eq (hx : x.isFinite) (hy : y.isFinite)
    (h : FirstStepOverflows x y) : y.magnitude = f.infinityMagnitude - 1 := by
  obtain ⟨hres, hover⟩ := h
  have hunits : y.absUnits + 2 ^ (2 * f.bias - 1) = f.unitBound := by
    apply absUnits_of_overflow hx hy hres
    rw [← not_lt, ← isFinite_sub_iff_lt_overflowBound hres hx, hover]
    exact Bool.false_ne_true
  rw [← f.unitsAt_greatest, Nat.add_left_inj] at hunits
  exact f.unitsAt_strictMono.injective hunits

/-- Round-offs go by the size of the error. -/
theorem roundoff_congr {op op' : Operation} {x' y' res' : Binary f}
    (h : (roundingError op x y res).absUnits = (roundingError op' x' y' res').absUnits) :
    roundoff op x y res = roundoff op' x' y' res' := by
  unfold roundoff
  rw [eq_withSign h]
  rfl

theorem roundoff_add_comm (hres : (x + y).isFinite) (hxy : ¬ FirstStepOverflows x y)
    (hyx : ¬ FirstStepOverflows y x) :
    roundoff .add x y (x + y) = roundoff .add y x (y + x) := by
  obtain ⟨hx, hy⟩ := isFinite_of_isFinite_add hres
  have hcomm := add_comm_of_isFinite hx hy
  have hpart : (x + y - x).isFinite := by
    simpa [FirstStepOverflows, hres] using hxy
  have hpart' : (y + x - y).isFinite := by
    simpa [FirstStepOverflows, ← hcomm, hres] using hyx
  -- both schemes are exact, so they find the same error
  have herror := (sumError_of_isFinite hx hy hres hpart).2
  have herror' := (sumError_of_isFinite hy hx (hcomm ▸ hres) hpart').2
  apply roundoff_congr
  change (sumError x y (x + y)).absUnits = (sumError y x (y + x)).absUnits
  rw [← natAbs_units, ← natAbs_units, herror, herror', ← hcomm, Int.add_comm y.units]

/-! ## Recording -/

theorem statistics_add (s : Statistics) (hx : x.isFinite) (hy : y.isFinite)
    (hres : res.isFinite) :
    s.record .add x y res =
      { absorption := s.absorption.record? (absorption x y res)
        cancellation :=
          s.cancellation.record? (if isBelowZero y then cancellation x y res else none)
        roundoff := s.roundoff.record? (roundoff .add x y res) } := by
  simp [Statistics.record, hx, hy, hres, adds, subtracts]

/-- A sum and its exchange add the same bits, but for round-offs next to an overflow and for the
    bits of a cancellation. -/
theorem statistics_exchange (s : Statistics) (hx : x.isFinite) (hy : y.isFinite) :
    (s.record .add x y (x + y)).absorption = (s.record .add y x (y + x)).absorption ∧
      (cancellation x y (x + y) = none →
        (s.record .add x y (x + y)).cancellation = (s.record .add y x (y + x)).cancellation) ∧
      (¬ FirstStepOverflows x y → ¬ FirstStepOverflows y x →
        (s.record .add x y (x + y)).roundoff = (s.record .add y x (y + x)).roundoff) := by
  have hcomm := add_comm_of_isFinite hx hy
  cases hres : (x + y).isFinite with
  | false =>
    -- without a finite sum nothing is recorded
    have hsame : s.record .add x y (x + y) = s ∧ s.record .add y x (y + x) = s := by
      simp [Statistics.record, ← hcomm, hres]
    rw [hsame.1, hsame.2]
    exact ⟨rfl, fun _ => rfl, fun _ _ => rfl⟩
  | true =>
    rw [statistics_add s hx hy hres, statistics_add s hy hx (hcomm ▸ hres), ← hcomm,
      absorption_comm hy hx, cancellation_comm y x]
    refine ⟨rfl, fun hnone => ?_, fun hxy hyx => ?_⟩
    · simp only [hnone, ite_self]
    · rw [roundoff_add_comm hres hxy hyx, hcomm]

/-- A cancellation is recorded where the second term is below zero, and not if the terms are
    exchanged. -/
theorem statistics_cancellation (s : Statistics) (hx : x.isFinite)
    (hy : y.isFinite) (hneg : isBelowZero y) {k : Nat} (hk : cancellation x y (x + y) = some k) :
    (s.record .add x y (x + y)).cancellation = s.cancellation.record k ∧
      (s.record .add y x (y + x)).cancellation = s.cancellation := by
  have hcomm := add_comm_of_isFinite hx hy
  have hres := isFinite_of_cancellation hx hy hk
  -- the first term is on the other side of zero
  have hpos : isBelowZero x = false := by
    cases hside : isBelowZero x with
    | false => rfl
    | true => simp [cancellation_of_same_side hx hy (hside.trans hneg.symm)] at hk
  rw [statistics_add s hx hy hres, statistics_add s hy hx (hcomm ▸ hres), hneg, hpos, hk]
  exact ⟨rfl, rfl⟩

/-- Recording a sum of finite terms and recording it with the terms exchanged leave the same
    statistics at all other sites, and at the site of the sum the same absorptions, the same
    cancellations if the terms are on one side of zero or do not cancel, and the same round-offs
    if no first step of the two-sum scheme overflows.  A cancellation is recorded in the order in
    which the second term is below zero. -/
theorem record_add_comm (hx : x.isFinite) (hy : y.isFinite) {a : Analysis} {site : Option String}
    {s : Statistics} (hsite : a.statistics? site = some s) :
    ∃ a₁ a₂ s₁ s₂,
      a.record .add x y (x + y) site = .ok a₁ ∧ a.record .add y x (y + x) site = .ok a₂ ∧
      a₁.statistics? site = some s₁ ∧ a₂.statistics? site = some s₂ ∧
      (∀ site', site' ≠ site → a₁.statistics? site' = a₂.statistics? site') ∧
      s₁.absorption = s₂.absorption ∧
      (isBelowZero x = isBelowZero y ∨ cancellation x y (x + y) = none →
        s₁.cancellation = s₂.cancellation) ∧
      (∀ k, cancellation x y (x + y) = some k →
        (isBelowZero y →
          s₁.cancellation = s.cancellation.record k ∧ s₂.cancellation = s.cancellation) ∧
        (isBelowZero x →
          s₂.cancellation = s.cancellation.record k ∧ s₁.cancellation = s.cancellation)) ∧
      (¬ FirstStepOverflows x y → ¬ FirstStepOverflows y x → s₁.roundoff = s₂.roundoff) := by
  obtain ⟨a₁, h₁⟩ := exists_record hsite .add x y (x + y)
  obtain ⟨a₂, h₂⟩ := exists_record hsite .add y x (y + x)
  obtain ⟨habsorption, hcancellation, hroundoff⟩ := statistics_exchange s hx hy
  refine ⟨a₁, a₂, _, _, h₁, h₂, ?_, ?_, ?_, habsorption, ?_, ?_, hroundoff⟩
  · rw [statistics?_record h₁, hsite, Option.map_some, if_pos rfl]
  · rw [statistics?_record h₂, hsite, Option.map_some, if_pos rfl]
  · intro site' hne
    simp only [statistics?_record h₁, statistics?_record h₂, if_neg hne.symm]
  · rintro (hside | hnone)
    · exact hcancellation (cancellation_of_same_side hx hy hside)
    · exact hcancellation hnone
  · intro k hk
    refine ⟨fun hneg => statistics_cancellation s hx hy hneg hk, fun hneg => ?_⟩
    rw [cancellation_comm, add_comm_of_isFinite hx hy] at hk
    exact statistics_cancellation s hy hx hneg hk

/-- A small term is absorbed as a whole, be it the first or the second one. -/
theorem record_add_comm_absorbed :
    watchedAddition.statistics? (some "sum") = some {} ∧
      ∃ a₁ a₂,
        watchedAddition.record .add (.ofBits .binary64 0x3ff0000000000000)
          (.ofBits .binary64 0x3c30000000000000)
          (.ofBits .binary64 0x3ff0000000000000 + .ofBits .binary64 0x3c30000000000000)
          (some "sum") = .ok a₁ ∧
        watchedAddition.record .add (.ofBits .binary64 0x3c30000000000000)
          (.ofBits .binary64 0x3ff0000000000000)
          (.ofBits .binary64 0x3c30000000000000 + .ofBits .binary64 0x3ff0000000000000)
          (some "sum") = .ok a₂ ∧
        a₁.statistics? (some "sum") = a₂.statistics? (some "sum") := by
  have hsite : watchedAddition.statistics? (some "sum") = some {} := by decide
  obtain ⟨a₁, a₂, s₁, s₂, h₁, h₂, hs₁, hs₂, -, habsorption, hcancellation, -, hroundoff⟩ :=
    record_add_comm (x := .ofBits .binary64 0x3ff0000000000000)
      (y := .ofBits .binary64 0x3c30000000000000) (by decide) (by decide) hsite
  have hxy : ¬ FirstStepOverflows (Binary.ofBits .binary64 0x3ff0000000000000)
      (.ofBits .binary64 0x3c30000000000000) := fun h =>
    absurd (h.magnitude_eq (by decide) (by decide)) (by decide)
  have hyx : ¬ FirstStepOverflows (Binary.ofBits .binary64 0x3c30000000000000)
      (.ofBits .binary64 0x3ff0000000000000) := fun h =>
    absurd (h.magnitude_eq (by decide) (by decide)) (by decide)
  refine ⟨hsite, a₁, a₂, h₁, h₂, ?_⟩
  rw [hs₁, hs₂, Option.some.injEq]
  cases s₁
  cases s₂
  rw [Statistics.mk.injEq]
  exact ⟨hcancellation (.inl (by decide)), habsorption, hroundoff hxy hyx⟩

/-- The difference of one and a number just below it cancels, but only with the negative term in
    the second place is that recorded. -/
theorem record_add_order_matters :
    (Binary.ofBits .binary32 0x3f800000).isFinite ∧ (Binary.ofBits .binary32 0xbf7fc000).isFinite ∧
      watchedAddition.statistics? (some "sum") = some {} ∧
      ∃ a₁ a₂,
        watchedAddition.record .add (.ofBits .binary32 0x3f800000) (.ofBits .binary32 0xbf7fc000)
          (.ofBits .binary32 0x3f800000 + .ofBits .binary32 0xbf7fc000) (some "sum") = .ok a₁ ∧
        watchedAddition.record .add (.ofBits .binary32 0xbf7fc000) (.ofBits .binary32 0x3f800000)
          (.ofBits .binary32 0xbf7fc000 + .ofBits .binary32 0x3f800000) (some "sum") = .ok a₂ ∧
        a₁.statistics? (some "sum") ≠ a₂.statistics? (some "sum") := by
  have hsite : watchedAddition.statistics? (some "sum") = some {} := by decide
  have hsum : Binary.ofBits .binary32 0x3f800000 + .ofBits .binary32 0xbf7fc000 =
      .ofBits .binary32 0x3a800000 :=
    add_eq_of_units (by decide) (by decide) (n := 2 ^ 139) (by decide) (by decide)
  obtain ⟨hrecorded, hpassed⟩ := statistics_cancellation {} (x := .ofBits .binary32 0x3f800000)
    (y := .ofBits .binary32 0xbf7fc000) (by decide) (by decide) (by decide) (k := 10)
    (by rw [hsum]; decide)
  obtain ⟨a₁, h₁⟩ := exists_record hsite .add (.ofBits .binary32 0x3f800000)
    (.ofBits .binary32 0xbf7fc000) (.ofBits .binary32 0x3f800000 + .ofBits .binary32 0xbf7fc000)
  obtain ⟨a₂, h₂⟩ := exists_record hsite .add (.ofBits .binary32 0xbf7fc000)
    (.ofBits .binary32 0x3f800000) (.ofBits .binary32 0xbf7fc000 + .ofBits .binary32 0x3f800000)
  refine ⟨by decide, by decide, hsite, a₁, a₂, h₁, h₂, fun heq => ?_⟩
  rw [statistics?_record h₁, statistics?_record h₂, hsite, Option.map_some, Option.map_some,
    if_pos rfl, if_pos rfl, Option.some.injEq] at heq
  rw [heq, hpassed] at hrecorded
  exact absurd hrecorded (by decide)
end VariablePrecision.Analysis
