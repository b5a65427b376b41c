/-
  VariablePrecision.Proofs.Analysis.Run

  What an analysis holds after any sequence of events.

  An event only matters at its own site, where it adds the bits that it shows
  (`observe_eq`).  By induction on the sequence, each operation site of the
  registry then holds the summaries of all bits that were shown there (`sites_run`),
  so the order of the events does not matter.  Events without a watched site fail and
  leave the analysis as it was.
-/

import VariablePrecision.Proofs.Analysis.Event
import VariablePrecision.Proofs.Files.Action

namespace VariablePrecision.Analysis

/-! ## Recording -/

variable {f : Format} {a : Analysis} {site : Option String} {reg : Registry}

theorem site?_eq_none_iff : a.site? site = none ↔ ∀ s ∈ a.sites, site ≠ some s.id := by
  cases site with
  | none => simp [site?]
  | some id =>
    rw [site?, Option.bind_some, List.find?_eq_none]
    refine forall₂_congr fun s _ => ?_
    rw [beq_iff_eq, ne_eq, Option.some.injEq, eq_comm]

theorem site?_eq_some {s : Site} (h : a.site? site = some s) : s ∈ a.sites ∧ site = some s.id := by
  obtain ⟨id, rfl, hfind⟩ := Option.bind_eq_some_iff.1 h
  have hid : s.id = id := by simpa using List.find?_some hfind
  exact ⟨List.mem_of_find?_eq_some hfind, congrArg some hid.symm⟩

/-- Recording fails where no watched site has the name, and in no other way. -/
theorem record_eq_error_iff {op : Operation} {x y res : Binary f} {err : Error} :
    a.record op x y res site = .error err ↔
      err = .unknownSite site ∧ ∀ s ∈ a.sites, site ≠ some s.id := by
  rw [← site?_eq_none_iff, record]
  cases a.site? site with
  | none => simp [eq_comm]
  | some s => simp

/-- The analysis after an event.  One that cannot be recorded leaves it as it is. -/
def observe (a : Analysis) (e : Event) : Analysis :=
  match a.record e.op e.x e.y e.res e.site with
  | .ok a' => a'
  | .error _ => a

/-- The analysis after a sequence of events. -/
def run (a : Analysis) (events : List Event) : Analysis := events.foldl observe a

/-- The site after an event. -/
def Site.observe (s : Site) (e : Event) : Site :=
  if e.site = some s.id then { s with statistics := s.statistics.record e.op e.x e.y e.res } else s

/-- Each site sees the event for itself, and nothing else changes. -/
theorem observe_eq (a : Analysis) (e : Event) :
    a.observe e = { a with sites := a.sites.map (·.observe e) } := by
  unfold observe record
  cases h : a.site? e.site with
  | none =>
    -- the event fails, and no site is its own
    have hsame : ∀ s ∈ a.sites, s.observe e = s := fun s hs =>
      if_neg (site?_eq_none_iff.1 h s hs)
    rw [List.map_congr_left hsame, List.map_id']
  | some s =>
    -- `record` updates the sites of the found name, which is that of the event
    obtain ⟨-, hsite⟩ := site?_eq_some h
    have hsame : ∀ s' ∈ a.sites, (if s'.id = s.id then
        { s' with statistics := s'.statistics.record e.op e.x e.y e.res } else s') =
          s'.observe e := by
      intro s' _
      simp only [Site.observe, hsite, Option.some.injEq, eq_comm]
    exact congrArg (fun sites => { a with sites }) (List.map_congr_left hsame)

/-! ## Series of bits -/

/-- The bits of a phenomenon that the events show at a site. -/
def observed (events : List Event) (id : String) (p : Phenomenon) : List Nat :=
  (events.filter (·.site = some id)).filterMap (·.bits? p)

theorem observed_concat (events : List Event) (e : Event) (id : String) (p : Phenomenon) :
    observed (events ++ [e]) id p =
      observed events id p ++ if e.site = some id then (e.bits? p).toList else [] := by
  unfold observed
  rw [List.filter_append, List.filterMap_append]
  by_cases h : e.site = some id
  · cases hb : e.bits? p <;> simp [h, hb]
  · simp [h]

theorem length_observed_le (events : List Event) (id : String) (p : Phenomenon) :
    (observed events id p).length ≤ events.length :=
  Nat.le_trans (List.length_filterMap_le _ _) (List.length_filter_le _ _)

theorem lt_of_mem_observed {events : List Event} {id : String} {p : Phenomenon} {n : Nat}
    (h : n ∈ observed events id p) : n < 2 ^ 11 := by
  obtain ⟨e, -, he⟩ := List.mem_filterMap.1 h
  exact Event.bits?_lt he

theorem observed_perm {events events' : List Event} (h : events.Perm events') (id : String)
    (p : Phenomenon) : (observed events id p).Perm (observed events' id p) :=
  (h.filter _).filterMap _

/-! ## Runs -/

/-- The operation sites of a registry with the statistics of the events at each. -/
def summaries (reg : Registry) (events : List Event) : List Site :=
  (sitesOf reg).map fun s => { s with statistics := .ofCounts (observed events s.id) }

theorem summaries_nil (reg : Registry) : summaries reg [] = sitesOf reg := by
  unfold summaries sitesOf
  rw [List.map_filterMap]
  refine List.filterMap_congr fun r _ => ?_
  cases r.operation? with
  | none => rfl
  | some info => rfl

/-- An event extends the series of its own site. -/
theorem observe_ofCounts (s : Site) (events : List Event) (e : Event) :
    Site.observe { s with statistics := .ofCounts (observed events s.id) } e =
      { s with statistics := .ofCounts (observed (events ++ [e]) s.id) } := by
  have hconcat : observed (events ++ [e]) s.id = fun p =>
      observed events s.id p ++ if e.site = some s.id then (e.bits? p).toList else [] :=
    funext (observed_concat events e s.id)
  rw [hconcat, Site.observe]
  by_cases hs : e.site = some s.id
  · simp only [if_pos hs, Statistics.record_ofCounts]
  · simp only [if_neg hs, List.append_nil]

/-- One event more. -/
theorem observe_summaries {events : List Event} (h : a.sites = summaries reg events) (e : Event) :
    (a.observe e).sites = summaries reg (events ++ [e]) := by
  rw [observe_eq, h, summaries, summaries]
  change ((sitesOf reg).map _).map _ = _
  rw [List.map_map]
  exact List.map_congr_left fun s _ => observe_ofCounts s events e

/-- After a run each site holds the summaries of what was observed there. -/
theorem sites_run {before : List Event} (h : a.sites = summaries reg before)
    (events : List Event) : (a.run events).sites = summaries reg (before ++ events) := by
  -- each event moves to the ones before, which are therefore general
  induction events generalizing a before with
  | nil =>
    rw [List.append_nil]
    exact h
  | cons e events ih =>
    have hrest := ih (observe_summaries h e)
    rw [List.append_assoc, List.singleton_append] at hrest
    exact hrest

theorem output_run (a : Analysis) (events : List Event) : (a.run events).output = a.output := by
  induction events generalizing a with
  | nil => rfl
  | cons e events ih =>
    have hstep : (a.observe e).output = a.output := by rw [observe_eq]
    exact (ih (a.observe e)).trans hstep

/-- The events of a run may come in any order. -/
theorem run_eq_of_perm (h : a.sites = sitesOf reg) {events events' : List Event}
    (hperm : events.Perm events') : a.run events = a.run events' := by
  have hsites : (a.run events).sites = (a.run events').sites := by
    rw [← summaries_nil] at h
    rw [sites_run h, sites_run h]
    refine List.map_congr_left fun s _ => ?_
    have hcounts := fun p => Accumulator.summary_eq_of_perm (observed_perm hperm s.id p)
    simp only [List.nil_append, Statistics.ofCounts, hcounts]
  have houtput : (a.run events).output = (a.run events').output := by
    rw [output_run, output_run]
  cases hrun : a.run events with
  | mk sites output =>
    cases hrun' : a.run events' with
    | mk sites' output' =>
      rw [hrun, hrun'] at hsites houtput
      rw [show sites = sites' from hsites, show output = output' from houtput]

/-! ## Events without effect -/

theorem observe_of_error {e : Event} {err : Error}
    (h : a.record e.op e.x e.y e.res e.site = .error err) : a.observe e = a := by
  rw [observe, h]

/-- A value that is not finite makes an event say nothing. -/
theorem observe_of_not_finite {e : Event} (h : ¬ e.Finite) : a.observe e = a := by
  have hsame : ∀ s ∈ a.sites, s.observe e = s := by
    intro s _
    have hrecord : s.statistics.record e.op e.x e.y e.res = s.statistics := by
      rw [Statistics.record, if_neg (by simpa [Event.Finite, and_assoc] using h)]
    rw [Site.observe, hrecord, ite_self]
  rw [observe_eq, List.map_congr_left hsame, List.map_id']

/-! ## The statistics of one site -/

/-- Sites keep their names. -/
theorem Site.id_observe (s : Site) (e : Event) : (s.observe e).id = s.id := by
  unfold Site.observe
  split <;> rfl

/-- An event is recorded in the statistics of its own site, and in no others. -/
theorem statistics?_observe (a : Analysis) (e : Event) (site : Option String) :
    (a.observe e).statistics? site = (a.statistics? site).map fun s =>
      if e.site = site then s.record e.op e.x e.y e.res else s := by
  cases site with
  | none => rfl
  | some id =>
    -- the same site is found, before and after the event
    rw [observe_eq, statistics?, statistics?, site?, site?, Option.bind_some, Option.bind_some,
      List.find?_map]
    simp only [Function.comp_def, Site.id_observe]
    cases hfind : a.sites.find? (·.id == id) with
    | none => rfl
    | some s =>
      have hs : s.id = id := by simpa using List.find?_some hfind
      simp only [Option.map_some, Site.observe, hs]
      split <;> rfl

/-- An event at one site is not seen at another. -/
theorem statistics?_observe_of_ne {e : Event} {id : String} (h : e.site ≠ some id) :
    (a.observe e).statistics? (some id) = a.statistics? (some id) := by
  rw [statistics?_observe]
  simp only [if_neg h, Option.map_id']

/-- At a watched site every operation can be recorded. -/
theorem exists_record {s : Statistics} (hsite : a.statistics? site = some s) (op : Operation)
    (x y res : Binary f) : ∃ a', a.record op x y res site = .ok a' := by
  obtain ⟨s', hs', -⟩ := Option.map_eq_some_iff.1 hsite
  exact ⟨_, by rw [record, hs']⟩

/-- Recording an operation changes the statistics of its own site, and no others. -/
theorem statistics?_record {a' : Analysis} {op : Operation} {x y res : Binary f}
    (h : a.record op x y res site = .ok a') (site' : Option String) :
    a'.statistics? site' = (a.statistics? site').map fun s =>
      if site = site' then s.record op x y res else s := by
  have hobserve := statistics?_observe a ⟨f, op, x, y, res, site⟩ site'
  rwa [observe, h] at hobserve

end VariablePrecision.Analysis
