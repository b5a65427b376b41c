/-
  VariablePrecision.Proofs.Backend.Events

  Stacks of backends over any sequence of operations and ends of calls.

  An event may change the statistics of an analysis and the log of an emulator, but
  never the traits of a backend: its name, where it logs, and which events it accepts
  (`traits_handle`).  So a stack whose backends accept all events handles all of them
  (`exists_gives_run`).
-/

import VariablePrecision.Proofs.Analysis.Run
import VariablePrecision.Proofs.Backend.LastAnswer
import VariablePrecision.Proofs.CallStack
import VariablePrecision.Proofs.Emulator.Log

namespace VariablePrecision

open FileAction (Gives gives_pure_iff gives_bind_iff gives_map_iff)

/-! ## Events -/

/-- Something that a program passes through its backends. -/
inductive Chain.Event where
  | operation (f : Format) (op : Operation) (x y : Binary f) (site : Option String)
  | cross (crossing : Crossing) (site : Option String) (arguments : List Argument)

namespace Crossing

/-- The call stack while an end of a call is handled. -/
def during (crossing : Crossing) (site : Option String) (stack : CallStack) : CallStack :=
  match crossing with
  | .enter => stack.push (siteText site)
  | .exit => stack

/-- The call stack once an end of a call is passed. -/
def past (crossing : Crossing) (site : Option String) (stack : CallStack) : CallStack :=
  match crossing with
  | .enter => stack.push (siteText site)
  | .exit => stack.pop.2

variable (site exitSite : Option String) (stack : CallStack)

theorem depth_during_enter : (enter.during site stack).depth = stack.depth + 1 :=
  CallStack.depth_push stack (siteText site)

theorem depth_past_enter : (enter.past site stack).depth = stack.depth + 1 :=
  CallStack.depth_push stack (siteText site)

/-- Its own exit leaves the call stack as the entry found it. -/
theorem past_exit_past_enter : exit.past exitSite (enter.past site stack) = stack :=
  CallStack.pop_push stack (siteText site)

/-- A call is open while its exit is handled, as it was while its entry was. -/
theorem depth_during_exit : (exit.during exitSite (enter.past site stack)).depth =
    stack.depth + 1 :=
  depth_past_enter site stack

end Crossing

namespace Chain

section Handle

variable {β : Type} [Instrument β] {f : Format} {c c' : Chain β} {files files' : Files}

/-- The chain after an event. -/
def handle (c : Chain β) : Event → FileAction (Chain β)
  | .operation _ op x y site => ExceptT.mk (pure ((c.binary op x y site).map Prod.snd))
  | .cross .enter site arguments => Prod.snd <$> c.enter site arguments
  | .cross .exit site arguments => Prod.snd <$> c.exit site arguments

/-- The chain after a sequence of events.  It ends with the first one that is refused. -/
def run (c : Chain β) (events : List Event) : FileAction (Chain β) := events.foldlM handle c

theorem gives_handle_operation_iff {op : Operation} {x y : Binary f} {site : Option String} :
    (c.handle (.operation f op x y site)).Gives files c' files' ↔
      ∃ z backends, thread (·.binary op x y site) c.backends (op.apply x y) = .ok (z, backends) ∧
        c' = { c with backends } ∧ files = files' := by
  show ((c.binary op x y site).map Prod.snd, files) = (Except.ok c', files') ↔ _
  rw [Prod.mk.injEq, binary]
  cases thread (·.binary op x y site) c.backends (op.apply x y) with
  | error e => simp [bind, Except.bind, Except.map]
  | ok r =>
    obtain ⟨z, backends⟩ := r
    simp [bind, Except.bind, Except.map, pure, Except.pure, eq_comm]

theorem gives_handle_cross_iff {crossing : Crossing} {site : Option String}
    {arguments : List Argument} :
    (c.handle (.cross crossing site arguments)).Gives files c' files' ↔
      ∃ answer backends,
        (thread (·.cross crossing (crossing.during site c.stack) site) c.backends
          arguments).Gives files (answer, backends) files' ∧
        c' = ⟨backends, crossing.past site c.stack⟩ := by
  -- the two ends differ only in when the call stack changes
  cases crossing with
  | enter =>
    simp only [handle, enter, gives_map_iff, gives_bind_iff, gives_pure_iff]
    constructor
    · rintro ⟨_, ⟨⟨answer, backends⟩, mid, hthread, rfl, rfl⟩, rfl⟩
      exact ⟨answer, backends, hthread, rfl⟩
    · rintro ⟨answer, backends, hthread, rfl⟩
      exact ⟨_, ⟨⟨answer, backends⟩, files', hthread, rfl, rfl⟩, rfl⟩
  | exit =>
    simp only [handle, exit, gives_map_iff, gives_bind_iff, gives_pure_iff]
    constructor
    · rintro ⟨_, ⟨⟨answer, backends⟩, mid, hthread, rfl, rfl⟩, rfl⟩
      exact ⟨answer, backends, hthread, rfl⟩
    · rintro ⟨answer, backends, hthread, rfl⟩
      exact ⟨_, ⟨⟨answer, backends⟩, files', hthread, rfl, rfl⟩, rfl⟩

theorem gives_run_cons_iff {event : Event} {events : List Event} :
    (c.run (event :: events)).Gives files c' files' ↔
      ∃ d mid, (c.handle event).Gives files d mid ∧ (d.run events).Gives mid c' files' := by
  rw [run, List.foldlM_cons, gives_bind_iff]
  rfl

theorem gives_run_append_iff {events later : List Event} :
    (c.run (events ++ later)).Gives files c' files' ↔
      ∃ d mid, (c.run events).Gives files d mid ∧ (d.run later).Gives mid c' files' := by
  rw [run, List.foldlM_append, gives_bind_iff]
  rfl

end Handle

section Thread

variable {β σ : Type} {ls ls' later : List (Loaded β)} {l : Loaded β} {s r : σ}

theorem thread_append {m : Type → Type} [Monad m] [LawfulMonad m]
    {step : Loaded β → σ → m (σ × Loaded β)} (ls later : List (Loaded β)) (s : σ) :
    thread step (ls ++ later) s = do
      let (s, ls) ← thread step ls s
      let (s, later) ← thread step later s
      return (s, ls ++ later) := by
  induction ls generalizing s with
  | nil => simp [thread]
  | cons l rest ih => simp [thread, ih]

/-- One backend in a stack sees the answer of those before it, and passes its own on. -/
theorem gives_thread_around {step : Loaded β → σ → FileAction (σ × Loaded β)}
    {files files' : Files}
    (h : (thread step (ls ++ l :: later) s).Gives files (r, ls') files') :
    ∃ seen before mid next l' mid' behind,
      (thread step ls s).Gives files (seen, before) mid ∧
      (step l seen).Gives mid (next, l') mid' ∧
      (thread step later next).Gives mid' (r, behind) files' ∧ ls' = before ++ l' :: behind := by
  rw [thread_append] at h
  obtain ⟨⟨seen, before⟩, mid, hbefore, h⟩ := gives_bind_iff.1 h
  obtain ⟨⟨last, rest⟩, done, hrest, h⟩ := gives_bind_iff.1 h
  obtain ⟨heq, rfl⟩ := gives_pure_iff.1 h
  obtain ⟨rfl, rfl⟩ := Prod.mk.inj heq
  obtain ⟨⟨next, l'⟩, mid', hl, hrest⟩ := gives_bind_iff.1 hrest
  obtain ⟨⟨final, behind⟩, done, hbehind, hrest⟩ := gives_bind_iff.1 hrest
  obtain ⟨heq, rfl⟩ := gives_pure_iff.1 hrest
  obtain ⟨rfl, rfl⟩ := Prod.mk.inj heq
  exact ⟨seen, before, mid, next, l', mid', behind, hbefore, hl, hbehind, rfl⟩

end Thread

end Chain

/-! ## Traits -/

namespace Analysis

variable {a : Analysis} {site : Option String}

theorem exists_site?_iff :
    (∃ s, a.site? site = some s) ↔ ∃ id ∈ a.sites.map Site.id, site = some id := by
  rw [← Option.ne_none_iff_exists', ne_eq, site?_eq_none_iff]
  push Not
  simp

theorem ids_update (id : String) (change : Statistics → Statistics) :
    (a.update id change).sites.map Site.id = a.sites.map Site.id := by
  rw [update, List.map_map]
  refine List.map_congr_left fun s _ => ?_
  show (if s.id = id then _ else s).id = s.id
  split <;> rfl

end Analysis

namespace Loaded

/-- The backend handles the event, whatever those before it made of the numbers, and whatever else
    has happened. -/
def Accepts (l : Loaded (Emulator ⊕ Analysis)) : Chain.Event → Prop
  | .operation f _ _ _ site => l.Knows f site
  | .cross crossing site arguments =>
      match l.backend with
      | .inl e => ∀ depth seen, seen.map Argument.shape = arguments.map Argument.shape →
          (e.roundArguments { crossing, depth, site } seen).fault = none
      | .inr _ => True

/-- Where the backend logs. -/
def logLocation? (l : Loaded (Emulator ⊕ Analysis)) : Option Location :=
  match l.backend with
  | .inl e => e.log.map FileWriter.location
  | .inr _ => none

/-- What of a backend stays the same over all events. -/
structure Traits where
  name : String
  log : Option Location
  accepts : Chain.Event → Prop

/-- The traits of a backend. -/
def traits (l : Loaded (Emulator ⊕ Analysis)) : Traits where
  name := l.name
  log := l.logLocation?
  accepts := l.Accepts

variable {l l' : Loaded (Emulator ⊕ Analysis)} {f : Format} {site : Option String}
  {files files' : Files} {arguments answer : List Argument} {crossing : Crossing}
  {stack : CallStack}

theorem traits_update (name : String) (a : Analysis) (id : String)
    (change : Analysis.Statistics → Analysis.Statistics) :
    traits ⟨name, .inr (a.update id change)⟩ = traits ⟨name, .inr a⟩ := by
  have haccepts : Accepts ⟨name, .inr (a.update id change)⟩ = Accepts ⟨name, .inr a⟩ := by
    funext event
    cases event with
    | operation f op x y site =>
      refine propext ?_
      show (∃ s, (a.update id change).site? site = some s) ↔ ∃ s, a.site? site = some s
      rw [Analysis.exists_site?_iff, Analysis.exists_site?_iff, Analysis.ids_update]
    | cross crossing site arguments => rfl
  rw [traits, haccepts]
  rfl

theorem traits_withLog (name : String) (e : Emulator) {log : Option FileWriter}
    (hlog : log.map FileWriter.location = e.log.map FileWriter.location) :
    traits ⟨name, .inl { e with log }⟩ = traits ⟨name, .inl e⟩ := by
  have haccepts : Accepts ⟨name, .inl { e with log }⟩ = Accepts ⟨name, .inl e⟩ := by
    funext event
    cases event with
    | operation f op x y site => rfl
    | cross crossing site arguments => simp only [Accepts, Emulator.roundArguments_withLog]
  rw [traits, traits, haccepts]
  exact congrArg (fun log => Traits.mk name log _) hlog

/-- Without a registry an emulator accepts everything. -/
theorem accepts_emulator {e : Emulator} (hreg : e.registry = none) (name : String)
    (event : Chain.Event) : Accepts ⟨name, .inl e⟩ event := by
  cases event with
  | operation f op x y site =>
    refine ⟨some (e.config.targets.get f), ?_⟩
    rw [Emulator.operationTarget, hreg]
    rfl
  | cross crossing site arguments =>
    exact fun _ seen _ => Emulator.fault_roundArguments hreg seen

/-- An operation leaves an emulator as it is, and an analysis with its sites. -/
theorem traits_of_binary {op : Operation} {x y res z : Binary f}
    (h : l.binary op x y site res = .ok (z, l')) :
    l'.traits = l.traits ∧ ∀ e, l.backend = .inl e → l' = l := by
  obtain ⟨name, e | a⟩ := l
  · change (((e.binaryOp op x y site).map _).map _).map _ = _ at h
    cases hop : e.binaryOp op x y site with
    | error err => simp [hop, Except.map] at h
    | ok v =>
      rw [hop] at h
      obtain ⟨-, rfl⟩ := Prod.mk.inj (Except.ok.inj h)
      exact ⟨rfl, fun _ _ => rfl⟩
  · change (((a.record op x y (op.apply x y) site).map _).map _).map _ = _ at h
    rw [Analysis.record] at h
    cases hsite : a.site? site with
    | none => simp [hsite, Except.map] at h
    | some s =>
      rw [hsite] at h
      obtain ⟨-, rfl⟩ := Prod.mk.inj (Except.ok.inj h)
      exact ⟨traits_update name a s.id _, fun e he => by cases he⟩

theorem gives_cross_emulator_iff {name : String} {e : Emulator} :
    (cross ⟨name, .inl e⟩ crossing stack site arguments).Gives files (answer, l') files' ↔
      ∃ e', (e.callHook crossing stack site arguments).Gives files (answer, e') files' ∧
        l' = ⟨name, .inl e'⟩ := by
  show Gives (Prod.map id (replace _) <$> (Prod.map id Sum.inl <$>
    e.callHook crossing stack site arguments)) files (answer, l') files' ↔ _
  simp only [gives_map_iff]
  constructor
  · rintro ⟨_, ⟨⟨given, e'⟩, hhook, rfl⟩, heq⟩
    obtain ⟨rfl, rfl⟩ := Prod.mk.inj heq
    exact ⟨e', hhook, rfl⟩
  · rintro ⟨e', hhook, rfl⟩
    exact ⟨_, ⟨_, hhook, rfl⟩, rfl⟩

theorem gives_cross_analysis_iff {name : String} {a : Analysis} :
    (cross ⟨name, .inr a⟩ crossing stack site arguments).Gives files (answer, l') files' ↔
      (arguments = answer ∧ ⟨name, .inr a⟩ = l') ∧ files = files' := by
  show Gives (pure (arguments, ⟨name, .inr a⟩)) files (answer, l') files' ↔ _
  rw [gives_pure_iff, Prod.mk.injEq]

/-- At an end of a call the values keep their shapes, and only the log is written. -/
theorem traits_of_cross
    (h : (l.cross crossing stack site arguments).Gives files (answer, l') files') :
    l'.traits = l.traits ∧ answer.map Argument.shape = arguments.map Argument.shape ∧
      ∀ location, l.logLocation? ≠ some location →
        files'.content? location = files.content? location := by
  obtain ⟨name, e | a⟩ := l
  · obtain ⟨e', hhook, rfl⟩ := gives_cross_emulator_iff.1 h
    obtain ⟨-, rfl, hrecord⟩ := Emulator.gives_callHook_iff.1 hhook
    have hshapes : (e.roundArguments (e.placeAt crossing stack site) arguments).arguments.map
        Argument.shape = arguments.map Argument.shape := Emulator.shapes_roundArguments arguments
    cases hlog : e.log with
    | none =>
      -- without a log nothing is written at all
      rw [Emulator.run_record_none hlog] at hrecord
      obtain ⟨rfl, rfl⟩ := Prod.mk.inj hrecord
      exact ⟨rfl, hshapes, fun _ _ => rfl⟩
    | some w =>
      rw [Emulator.run_record hlog] at hrecord
      obtain ⟨rfl, rfl⟩ := Prod.mk.inj hrecord
      refine ⟨?_, hshapes, fun location hother => ?_⟩
      · -- the writer stays at its file
        apply traits_withLog
        rw [hlog]
        exact congrArg some (FileWriter.location_after w _)
      · apply FileWriter.content?_writeAll_of_ne
        rintro rfl
        exact hother (show e.log.map FileWriter.location = _ by rw [hlog]; rfl)
  · obtain ⟨⟨rfl, rfl⟩, rfl⟩ := gives_cross_analysis_iff.1 h
    exact ⟨rfl, rfl, fun _ _ => rfl⟩

/-- An emulator with a log writes its lines there, and changes in nothing else. -/
theorem gives_cross_logging {name : String} {e : Emulator} {w : FileWriter}
    (hknows : e.knowsStack = true)
    (h : (cross ⟨name, .inl { e with log := some w }⟩ crossing stack site arguments).Gives files
      (answer, l') files') :
    let texts := (e.roundArguments { crossing, depth := stack.depth, site } arguments).lines.flatMap
      LogLine.parts
    l' = ⟨name, .inl { e with log := some (w.after texts) }⟩ ∧
      files' = ((w.writeAll texts).run files).2 := by
  obtain ⟨e', hhook, rfl⟩ := gives_cross_emulator_iff.1 h
  obtain ⟨-, -, hrecord⟩ := Emulator.gives_callHook_iff.1 hhook
  have hplace : Emulator.placeAt { e with log := some w } crossing stack site =
      { crossing, depth := stack.depth, site } := by
    rw [Emulator.placeAt, if_pos hknows]
  rw [hplace, Emulator.roundArguments_withLog, Emulator.run_record rfl] at hrecord
  obtain ⟨rfl, rfl⟩ := Prod.mk.inj hrecord
  exact ⟨rfl, rfl⟩

/-- What is accepted is handled. -/
theorem exists_gives_cross {seen : List Argument} (h : l.Accepts (.cross crossing site arguments))
    (hshapes : seen.map Argument.shape = arguments.map Argument.shape) (stack : CallStack)
    (files : Files) :
    ∃ answer l' files', (l.cross crossing stack site seen).Gives files (answer, l') files' := by
  obtain ⟨name, e | a⟩ := l
  · obtain ⟨e', files', hrecord⟩ : ∃ e' files', (e.record (e.roundArguments
        (e.placeAt crossing stack site) seen).lines).run files = (e', files') := ⟨_, _, rfl⟩
    have hhook : (e.callHook crossing stack site seen).Gives files (_, e') files' :=
      Emulator.gives_callHook_iff.2 ⟨h _ seen hshapes, rfl, hrecord⟩
    exact ⟨_, _, _, gives_cross_emulator_iff.2 ⟨e', hhook, rfl⟩⟩
  · exact ⟨_, _, _, gives_cross_analysis_iff.2 ⟨⟨rfl, rfl⟩, rfl⟩⟩

end Loaded

/-! ## Stacks -/

namespace Chain

variable {c c' : Chain (Emulator ⊕ Analysis)} {ls ls' : List (Loaded (Emulator ⊕ Analysis))}
  {f : Format} {site : Option String} {files files' : Files} {crossing : Crossing}
  {stack : CallStack} {arguments answer : List Argument} {event : Event}

theorem traits_of_thread_binary {op : Operation} {x y res z : Binary f}
    (h : thread (·.binary op x y site) ls res = .ok (z, ls')) :
    ls'.map Loaded.traits = ls.map Loaded.traits := by
  induction ls generalizing res ls' with
  | nil =>
    obtain ⟨-, rfl⟩ := Prod.mk.inj (Except.ok.inj h)
    rfl
  | cons l rest ih =>
    obtain ⟨⟨mid, l'⟩, hl, h⟩ := bind_eq_ok_iff.1 h
    obtain ⟨⟨last, rest'⟩, hrest, h⟩ := bind_eq_ok_iff.1 h
    obtain ⟨rfl, rfl⟩ := Prod.mk.inj (Except.ok.inj h)
    rw [List.map_cons, List.map_cons, (Loaded.traits_of_binary hl).1, ih hrest]

theorem traits_of_thread_cross
    (h : (thread (·.cross crossing stack site) ls arguments).Gives files (answer, ls') files') :
    ls'.map Loaded.traits = ls.map Loaded.traits ∧
      answer.map Argument.shape = arguments.map Argument.shape ∧
      ∀ location, (∀ l ∈ ls, l.logLocation? ≠ some location) →
        files'.content? location = files.content? location := by
  -- each backend is shown the values and the files as those before it left them
  induction ls generalizing arguments ls' files with
  | nil =>
    obtain ⟨heq, rfl⟩ := gives_pure_iff.1 h
    obtain ⟨rfl, rfl⟩ := Prod.mk.inj heq
    exact ⟨rfl, rfl, fun _ _ => rfl⟩
  | cons l rest ih =>
    obtain ⟨⟨seen, l'⟩, mid, hl, h⟩ := gives_bind_iff.1 h
    obtain ⟨⟨last, rest'⟩, mid', hrest, h⟩ := gives_bind_iff.1 h
    obtain ⟨heq, rfl⟩ := gives_pure_iff.1 h
    obtain ⟨rfl, rfl⟩ := Prod.mk.inj heq
    obtain ⟨htraits, hshapes, hfiles⟩ := Loaded.traits_of_cross hl
    obtain ⟨htraits', hshapes', hfiles'⟩ := ih hrest
    refine ⟨?_, hshapes'.trans hshapes, fun location hother => ?_⟩
    · rw [List.map_cons, List.map_cons, htraits, htraits']
    · rw [hfiles' location fun m hm => hother m (List.mem_cons_of_mem l hm),
        hfiles location (hother l List.mem_cons_self)]

/-- No event changes the traits of a backend. -/
theorem traits_handle (h : (c.handle event).Gives files c' files') :
    c'.backends.map Loaded.traits = c.backends.map Loaded.traits := by
  cases event with
  | operation f op x y site =>
    obtain ⟨z, backends, hthread, rfl, -⟩ := gives_handle_operation_iff.1 h
    exact traits_of_thread_binary hthread
  | cross crossing site arguments =>
    obtain ⟨answer, backends, hthread, rfl⟩ := gives_handle_cross_iff.1 h
    exact (traits_of_thread_cross hthread).1

/-- What holds of the traits of some backends holds of others with the same traits. -/
theorem forall_of_traits {P : Loaded.Traits → Prop}
    (htraits : ls'.map Loaded.traits = ls.map Loaded.traits) (h : ∀ l ∈ ls, P l.traits) :
    ∀ l ∈ ls', P l.traits := by
  rw [← List.forall_mem_map] at h ⊢
  rwa [htraits]

theorem exists_gives_thread_cross {seen : List Argument}
    (h : ∀ l ∈ ls, l.Accepts (.cross crossing site arguments))
    (hshapes : seen.map Argument.shape = arguments.map Argument.shape) (stack : CallStack)
    (files : Files) :
    ∃ r files', (thread (·.cross crossing stack site) ls seen).Gives files r files' := by
  induction ls generalizing seen files with
  | nil => exact ⟨_, _, gives_pure_iff.2 ⟨rfl, rfl⟩⟩
  | cons l rest ih =>
    -- the next backend is shown other numbers, of the same shapes
    obtain ⟨next, l', mid, hl⟩ :=
      Loaded.exists_gives_cross (h l List.mem_cons_self) hshapes stack files
    have hnext := (Loaded.traits_of_cross hl).2.1.trans hshapes
    obtain ⟨⟨last, rest'⟩, files', hrest⟩ :=
      ih (fun m hm => h m (List.mem_cons_of_mem l hm)) hnext mid
    exact ⟨_, _, gives_bind_iff.2 ⟨_, _, hl, gives_bind_iff.2 ⟨_, _, hrest,
      gives_pure_iff.2 ⟨rfl, rfl⟩⟩⟩⟩

theorem exists_gives_handle (h : ∀ l ∈ c.backends, l.Accepts event) (files : Files) :
    ∃ c' files', (c.handle event).Gives files c' files' := by
  cases event with
  | operation f op x y site =>
    obtain ⟨⟨z, backends⟩, hthread⟩ := exists_thread_binary h op x y (op.apply x y)
    exact ⟨_, _, gives_handle_operation_iff.2 ⟨z, backends, hthread, rfl, rfl⟩⟩
  | cross crossing site arguments =>
    obtain ⟨⟨answer, backends⟩, files', hthread⟩ :=
      exists_gives_thread_cross h rfl (crossing.during site c.stack) files
    exact ⟨_, _, gives_handle_cross_iff.2 ⟨answer, backends, hthread, rfl⟩⟩

/-- A stack whose backends accept all events handles all of them. -/
theorem exists_gives_run {events : List Event}
    (h : ∀ event ∈ events, ∀ l ∈ c.backends, l.Accepts event) (files : Files) :
    ∃ c' files', (c.run events).Gives files c' files' := by
  -- acceptance is a trait, so that the events after the first one are still accepted
  induction events generalizing c files with
  | nil => exact ⟨_, _, gives_pure_iff.2 ⟨rfl, rfl⟩⟩
  | cons event rest ih =>
    obtain ⟨d, mid, hevent⟩ := exists_gives_handle (h event List.mem_cons_self) files
    have hd : ∀ later ∈ rest, ∀ l ∈ d.backends, l.Accepts later := fun later hlater =>
      forall_of_traits (P := fun t => t.accepts later) (traits_handle hevent)
        (h later (List.mem_cons_of_mem event hlater))
    obtain ⟨c', files', hrest⟩ := ih hd mid
    exact ⟨c', files', gives_run_cons_iff.2 ⟨d, mid, hevent, hrest⟩⟩

end Chain

end VariablePrecision
