/-
  VariablePrecision.Proofs.Analysis.ReportText

  What the report says, as a value of its own.

  The report is related to the records of a registry and to a run of events directly:
  its sites are those of operations, in the order of the records (`SitesReported`), and
  each has the numbers of the bits that the events show there (`CountsReported`).  What
  is written for an analysis spells such a value (`report_spells`).
-/

import VariablePrecision.Proofs.Analysis.Run
import VariablePrecision.Proofs.Binary.CorrectRounding
import VariablePrecision.Proofs.Binary.Exactness
import VariablePrecision.Proofs.Decimal.Numeral
import VariablePrecision.Proofs.Json.Layout

namespace VariablePrecision.Analysis

open Json (Document Value)

/-! ## Values -/

/-- A natural number in the report. -/
def numberValue (n : Nat) : Value := .number (Nat.toDigits 10 n)

/-- The mean of bit counts in the report.  It is the total over the number of counts, both as
    binary64 values, and there is none of no counts. -/
inductive MeanReported : List Nat → Value → Prop
  | none : MeanReported [] .null
  | some {counts : List Nat} {total mean : Binary .binary64} {token : List Char}
      (hne : counts ≠ []) (htotal : (Target.native .binary64).Rounds counts.sum total)
      (hmean : (Target.native .binary64).Rounds (total.toRat / counts.length) mean)
      (htoken : Decimal.NumeralOf mean token) : MeanReported counts (.number token)

/-- Bit counts in the report; the extremes of no counts are zero. -/
inductive CountsReported (counts : List Nat) : Value → Prop
  | mk {mean : Value} (hmean : MeanReported counts mean) :
      CountsReported counts (.object
        [("min", numberValue (counts.min?.getD 0)), ("max", numberValue (counts.max?.getD 0)),
          ("sum", numberValue counts.sum), ("count", numberValue counts.length), ("mean", mean)])

/-- The names of the operations in the report. -/
def operationNames : List (OperationKind × String) :=
  [(.arithmetic .add, "add"), (.arithmetic .sub, "sub"), (.arithmetic .mul, "mul"),
    (.arithmetic .div, "div"), (.comparison, "cmp")]

/-- An operation site in the report, with the bits that the events show at it. -/
inductive SiteReported (events : List Event) (id : String) (kind : OperationKind) : Value → Prop
  | mk {name : String} {cancellation absorption roundoff : Value}
      (hname : (kind, name) ∈ operationNames)
      (hcancellation : CountsReported (observed events id .cancellation) cancellation)
      (habsorption : CountsReported (observed events id .absorption) absorption)
      (hroundoff : CountsReported (observed events id .roundoff) roundoff) :
      SiteReported events id kind (.object
        [("id", .text id), ("op", .text name), ("cancellation", cancellation),
          ("absorption", absorption), ("roundoff", roundoff)])

/-- The sites in the report: all records of operations in their order, and no others. -/
inductive SitesReported (events : List Event) : List Record → List Value → Prop
  | nil : SitesReported events [] []
  | operation {r : Record} {info : OperationInfo} {v : Value} {rs : List Record} {vs : List Value}
      (hkind : r.kind = .operation info) (hv : SiteReported events r.id info.kind v)
      (hs : SitesReported events rs vs) : SitesReported events (r :: rs) (v :: vs)
  | call {r : Record} {info : CallInfo} {rs : List Record} {vs : List Value}
      (hkind : r.kind = .call info) (hs : SitesReported events rs vs) :
      SitesReported events (r :: rs) vs

/-! ## Documents -/

variable {counts : List Nat} {events : List Event}

theorem denotes_numberValue (n : Nat) : (Document.natural n).Denotes (numberValue n) :=
  Document.denotes_natural n

/-- A finite number is written as a numeral of which it is the correct rounding. -/
theorem denotes_real {x : Binary .binary64} (hx : x.isFinite) :
    ∃ token, Decimal.NumeralOf x token ∧ (Document.real x).Denotes (.number token) := by
  have htoken := Decimal.numeralOf_chars reportNotation hx
  refine ⟨_, htoken, fun level => ?_⟩
  have hchars : (Document.real x).chars level = reportNotation.chars x := by
    rw [Document.chars, Document.realChars, if_pos hx]
  rw [hchars]
  exact .number htoken.numberToken

theorem meanReported_mean (hlength : counts.length < 2 ^ 52) (hcounts : ∀ n ∈ counts, n < 2 ^ 11) :
    ∃ v, MeanReported counts v ∧
      (((Accumulator.summary counts).mean.map Document.real).getD .null).Denotes v := by
  cases counts with
  | nil => exact ⟨.null, .none, fun _ => .null⟩
  | cons n rest =>
    have hsum : (n :: rest).sum ≤ 2 ^ Format.binary64.bias :=
      Nat.le_trans (Accumulator.fitsWords_summary hlength hcounts).sum_lt.le
        (Nat.pow_le_pow_right Nat.two_pos (by decide))
    have htotal := Binary.isFinite_ofNat hsum
    have hshort : (n :: rest).length < 2 ^ (Format.binary64.mantissaBits + 1) :=
      Nat.lt_trans hlength (by decide)
    obtain ⟨hcount, hrat⟩ := Binary.toRat_ofNat hshort
    have hone : 2 ^ Format.binary64.unitExponent ≤
        (Binary.ofNat .binary64 (n :: rest).length).absUnits := by
      rw [(Binary.ofNat_eq_exact hshort).2]
      exact Nat.le_mul_of_pos_left _ (Nat.zero_lt_succ _)
    have hz : (Binary.ofNat .binary64 (n :: rest).length).isZero = false :=
      Binary.isZero_eq_false_iff.2 (Nat.lt_of_lt_of_le (Nat.two_pow_pos _) hone).ne'
    have hmean := Binary.rounds_div htotal hcount hz
    rw [hrat] at hmean
    obtain ⟨token, htoken, hdenotes⟩ := denotes_real (Binary.isFinite_div htotal hcount hone)
    exact ⟨.number token, .some (List.cons_ne_nil _ _) (Binary.rounds_ofNat _ _) hmean htoken,
      hdenotes⟩

/-- What is written for the summary of bit counts. -/
theorem countsReported_summary (hlength : counts.length < 2 ^ 52)
    (hcounts : ∀ n ∈ counts, n < 2 ^ 11) :
    ∃ v, CountsReported counts v ∧ (accumulatorDocument (.summary counts)).Denotes v := by
  obtain ⟨mean, hmean, hdenotes⟩ := meanReported_mean hlength hcounts
  exact ⟨_, .mk hmean, Document.denotes_object
    (.cons ⟨rfl, denotes_numberValue _⟩ (.cons ⟨rfl, denotes_numberValue _⟩
      (.cons ⟨rfl, denotes_numberValue _⟩ (.cons ⟨rfl, denotes_numberValue _⟩
        (.cons ⟨rfl, hdenotes⟩ .nil)))))⟩

theorem mem_operationNames (kind : OperationKind) : (kind, kind.name) ∈ operationNames := by
  rcases kind with (op | _)
  · cases op <;> decide
  · decide

/-- What is written for a site with the statistics of the events. -/
theorem siteReported_siteDocument (hlength : events.length < 2 ^ 52) (id : String)
    (kind : OperationKind) :
    ∃ v, SiteReported events id kind v ∧
      (siteDocument ⟨id, kind, .ofCounts (observed events id)⟩).Denotes v := by
  have hcounts := fun p => countsReported_summary
    (Nat.lt_of_le_of_lt (length_observed_le events id p) hlength) fun n => lt_of_mem_observed
  obtain ⟨c, hc, hc'⟩ := hcounts .cancellation
  obtain ⟨a, ha, ha'⟩ := hcounts .absorption
  obtain ⟨r, hr, hr'⟩ := hcounts .roundoff
  exact ⟨_, .mk (mem_operationNames kind) hc ha hr, Document.denotes_object
    (.cons ⟨rfl, Document.denotes_text id⟩ (.cons ⟨rfl, Document.denotes_text kind.name⟩
      (.cons ⟨rfl, hc'⟩ (.cons ⟨rfl, ha'⟩ (.cons ⟨rfl, hr'⟩ .nil)))))⟩

/-- What is written for all sites of a registry. -/
theorem sitesReported_summaries (hlength : events.length < 2 ^ 52) (records : List Record) :
    ∃ vs, SitesReported events records vs ∧
      List.Forall₂ Document.Denotes
        (records.filterMap fun r => r.operation?.map fun info =>
          siteDocument ⟨r.id, info.kind, .ofCounts (observed events r.id)⟩) vs := by
  induction records with
  | nil => exact ⟨[], .nil, .nil⟩
  | cons r rest ih =>
    obtain ⟨vs, hvs, hdenotes⟩ := ih
    cases hkind : r.kind with
    | operation info =>
      obtain ⟨v, hv, hv'⟩ := siteReported_siteDocument hlength r.id info.kind
      refine ⟨v :: vs, .operation hkind hv hvs, ?_⟩
      rw [List.filterMap_cons_some (by rw [Record.operation?, hkind]; rfl)]
      exact .cons hv' hdenotes
    | call info =>
      refine ⟨vs, .call hkind hvs, ?_⟩
      rw [List.filterMap_cons_none (by rw [Record.operation?, hkind]; rfl)]
      exact hdenotes

/-- The report of the statistics of a run spells what it should say. -/
theorem report_spells {a : Analysis} {reg : Registry} (h : a.sites = summaries reg events)
    (hlength : events.length < 2 ^ 52) :
    ∃ sites, SitesReported events reg.records sites ∧
      Json.Spelled (.object [("sites", .list sites)]) a.report.toList := by
  obtain ⟨sites, hsites, hdenotes⟩ := sitesReported_summaries hlength reg.records
  refine ⟨sites, hsites, ?_⟩
  have hdocuments : a.sites.map siteDocument = reg.records.filterMap fun r =>
      r.operation?.map fun info =>
        siteDocument ⟨r.id, info.kind, .ofCounts (observed events r.id)⟩ := by
    rw [h, summaries, sitesOf, List.map_map, List.map_filterMap]
    refine List.filterMap_congr fun r _ => ?_
    rw [Option.map_map]
    rfl
  rw [report, hdocuments, Document.render, String.toList_ofList]
  exact Document.denotes_object (.cons ⟨rfl, Document.denotes_list hdenotes⟩ .nil) 0

end VariablePrecision.Analysis
