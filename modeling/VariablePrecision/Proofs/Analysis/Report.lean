/-
  VariablePrecision.Proofs.Analysis.Report

  The statistics of a whole run, read off the registry and the events.

  An analysis is started from a registry and sees any sequence of events.  The main
  result says what it then holds for each operation site and each phenomenon, which
  events it refuses, which leave no trace, that the order of the events is of no
  account, and what the report says.
-/

import VariablePrecision.Proofs.Analysis.ReportText
import VariablePrecision.Proofs.Registry.Lookup

namespace VariablePrecision.Analysis

variable {a : Analysis} {site : Option String} {reg : Registry} {events : List Event}

/-! ## Sites of a registry -/

theorem mem_summaries {s : Site} :
    s ∈ summaries reg events ↔ ∃ r ∈ reg.records, ∃ info, r.kind = .operation info ∧
      s = ⟨r.id, info.kind, .ofCounts (observed events r.id)⟩ := by
  unfold summaries sitesOf
  constructor
  · intro hs
    obtain ⟨s', hs', rfl⟩ := List.mem_map.1 hs
    obtain ⟨r, hr, hsome⟩ := List.mem_filterMap.1 hs'
    cases hkind : r.kind with
    | operation info =>
      rw [Record.operation?, hkind] at hsome
      obtain rfl := Option.some.inj hsome
      exact ⟨r, hr, info, hkind, rfl⟩
    | call info =>
      rw [Record.operation?, hkind] at hsome
      contradiction
  · rintro ⟨r, hr, info, hkind, rfl⟩
    refine List.mem_map.2 ⟨⟨r.id, info.kind, {}⟩, List.mem_filterMap.2 ⟨r, hr, ?_⟩, rfl⟩
    rw [Record.operation?, hkind]
    rfl

/-- The names that are not watched: none at all, an unknown one, and that of a call. -/
theorem forall_ne_iff :
    (∀ s ∈ summaries reg events, site ≠ some s.id) ↔
      site = none ∨ (∃ id, site = some id ∧ id ∉ reg.ids) ∨
        ∃ r ∈ reg.records, ∃ info, site = some r.id ∧ r.kind = .call info := by
  constructor
  · intro h
    cases site with
    | none => exact .inl rfl
    | some id =>
      refine .inr ?_
      by_cases hid : id ∈ reg.ids
      · obtain ⟨r, hr, rfl⟩ := List.mem_map.1 hid
        cases hkind : r.kind with
        | operation info => exact absurd rfl (h _ (mem_summaries.2 ⟨r, hr, info, hkind, rfl⟩))
        | call info => exact .inr ⟨r, hr, info, rfl, hkind⟩
      · exact .inl ⟨id, rfl, hid⟩
  · intro h s hs hsite
    obtain ⟨r, hr, info, hkind, rfl⟩ := mem_summaries.1 hs
    rcases h with rfl | ⟨id, rfl, hid⟩ | ⟨r', hr', info', rfl, hkind'⟩
    · contradiction
    · obtain rfl := Option.some.inj hsite
      exact hid (List.mem_map_of_mem hr)
    · rw [reg.eq_of_id_eq hr' hr (Option.some.inj hsite), hkind] at hkind'
      contradiction

/-- The statistics of an operation site. -/
theorem statistics?_of_mem (h : a.sites = summaries reg events) {r : Record}
    (hr : r ∈ reg.records) {info : OperationInfo} (hkind : r.kind = .operation info) :
    a.statistics? (some r.id) = some (.ofCounts (observed events r.id)) := by
  have hmem : ⟨r.id, info.kind, .ofCounts (observed events r.id)⟩ ∈ a.sites := by
    rw [h]
    exact mem_summaries.2 ⟨r, hr, info, hkind, rfl⟩
  cases hsite : a.site? (some r.id) with
  | none => exact absurd rfl (site?_eq_none_iff.1 hsite _ hmem)
  | some s =>
    obtain ⟨hs, hid⟩ := site?_eq_some hsite
    rw [h] at hs
    obtain ⟨r', -, info', -, rfl⟩ := mem_summaries.1 hs
    rw [statistics?, hsite, Option.some.inj hid]
    rfl

/-! ## Whole runs -/

theorem ofRegistry_yields (reg : Registry) (options : Options) :
    (ofRegistry reg options).Yields fun a => a.sites = summaries reg [] := by
  rw [summaries_nil]
  unfold ofRegistry
  dsimp only
  split
  · exact FileAction.yields_bind fun _ => FileAction.yields_pure rfl
  · exact FileAction.yields_bind fun _ => FileAction.yields_pure rfl

/-- The statistics of a run are exact: each operation site holds the least, the greatest, the sum
    and the number of the bits that its own finite events show of a phenomenon. -/
theorem run_exact {options : Options} {files files' : Files}
    (hstart : (ofRegistry reg options).Gives files a files') (events : List Event)
    (hlength : events.length < 2 ^ 52) :
    -- the statistics of each operation site, which fit their machine words
    (∀ r ∈ reg.records, ∀ info, r.kind = .operation info →
      ∃ st, (a.run events).statistics? (some r.id) = some st ∧
        ∀ p, st.of p = .summary (observed events r.id p) ∧ (st.of p).FitsWords) ∧
    -- the events that are refused
    (∀ (e : Event) (err : Error),
      (a.run events).record e.op e.x e.y e.res e.site = .error err ↔
        err = .unknownSite e.site ∧
          (e.site = none ∨ (∃ id, e.site = some id ∧ id ∉ reg.ids) ∨
            ∃ r ∈ reg.records, ∃ info, e.site = some r.id ∧ r.kind = .call info)) ∧
    -- the events that change nothing, and where the others change nothing
    (∀ e : Event, (∃ err, (a.run events).record e.op e.x e.y e.res e.site = .error err) ∨
      ¬ e.Finite → (a.run events).observe e = a.run events) ∧
    (∀ (e : Event) (id : String), e.site ≠ some id →
      ((a.run events).observe e).statistics? (some id) =
        (a.run events).statistics? (some id)) ∧
    -- the order of the events
    (∀ events' : List Event, events'.Perm events → a.run events' = a.run events) ∧
    -- the report
    ∃ sites, SitesReported events reg.records sites ∧
      Json.Spelled (.object [("sites", .list sites)]) (a.run events).report.toList := by
  have hempty := ofRegistry_yields reg options files a files' hstart
  have hsites : (a.run events).sites = summaries reg events := sites_run hempty events
  refine ⟨?_, ?_, ?_, ?_, ?_, ?_⟩
  · intro r hr info hkind
    refine ⟨_, statistics?_of_mem hsites hr hkind, fun p => ?_⟩
    rw [Statistics.of_ofCounts]
    have hcounts : (observed events r.id p).length < 2 ^ 52 :=
      Nat.lt_of_le_of_lt (length_observed_le events r.id p) hlength
    exact ⟨rfl, Accumulator.fitsWords_summary hcounts fun n hn => lt_of_mem_observed hn⟩
  · intro e err
    rw [record_eq_error_iff, hsites, forall_ne_iff]
  · rintro e (⟨err, herr⟩ | hfinite)
    · exact observe_of_error herr
    · exact observe_of_not_finite hfinite
  · intro e id hne
    exact statistics?_observe_of_ne hne
  · intro events' hperm
    rw [summaries_nil] at hempty
    exact run_eq_of_perm hempty hperm
  · exact report_spells hsites hlength

/-- A sum and a call. -/
def meanRegistry : Registry where
  records :=
    [{ id := "sum"
       kind := .operation
        { kind := .arithmetic .add, dataType := .scalar .binary64, target := ⟨52, 11⟩ } },
      { id := "mean", kind := .call { callee := "mean" } }]
  valid := by
    rintro r hr
    rcases List.mem_pair.1 hr with rfl | rfl <;> rw [← Record.fault?_eq_none_iff] <;> decide
  distinct := by decide

/-- An addition of binary64 values with its native result. -/
def additionAt (site : Option String) (x y : Nat) : Event where
  format := .binary64
  op := .add
  x := .ofBits .binary64 x
  y := .ofBits .binary64 y
  res := .ofBits .binary64 x + .ofBits .binary64 y
  site := site

/-- Additions of tiny values, one that cancels, one of a not-a-number, and two that are at no
    operation site. -/
def meanEvents : List Event :=
  [additionAt (some "sum") 0x3ff0000000000000 0x3ca0000000000000,
    additionAt (some "mean") 0x3ff0000000000000 0x3ca0000000000000,
    additionAt (some "sum") 0x3ff8000000000000 0xbff4000000000000,
    additionAt none 0x3ff8000000000000 0xbff4000000000000,
    additionAt (some "sum") 0x3ff0000000000000 0x7ff8000000000000,
    additionAt (some "sum") 0x3ff0000000000000 0x3c30000000000000]

theorem run_exact_mean :
    (ofRegistry meanRegistry {}).Gives {} ⟨sitesOf meanRegistry, none⟩ {} ∧
      meanEvents.length < 2 ^ 52 ∧
      ∃ st, (run ⟨sitesOf meanRegistry, none⟩ meanEvents).statistics? (some "sum") = some st ∧
        st.of .cancellation = { min := 2, max := 2, sum := 2, count := 1 } ∧
        st.of .absorption = { min := 1, max := 1, sum := 2, count := 2 } ∧
        st.of .roundoff = { min := 53, max := 60, sum := 113, count := 2 } := by
  have hstart : (ofRegistry meanRegistry {}).Gives {} ⟨sitesOf meanRegistry, none⟩ {} := rfl
  have hlength : meanEvents.length < 2 ^ 52 := by decide
  obtain ⟨st, hst, hof⟩ := (run_exact hstart meanEvents hlength).1 _ List.mem_cons_self _ rfl
  refine ⟨hstart, hlength, st, hst, ?_, ?_, ?_⟩
  · rw [(hof .cancellation).1]
    decide +kernel
  · rw [(hof .absorption).1]
    decide +kernel
  · rw [(hof .roundoff).1]
    decide +kernel

end VariablePrecision.Analysis
