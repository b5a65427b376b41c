/-
  VariablePrecision.Proofs.Backend.Indentation

  The log of an emulator over a program that closes every call that it opens.

  Such a program is the tree of its calls.  A call is opened before its entry is handled
  and closed after its exit, so both are handled at the same depth, and in between the
  calls of the body come and go.  By induction on the tree the call stack is the same
  before and after, and the lines of the log nest as the calls do (`Calls.Logged`).

  From the emulator, the other backends are those before and those behind it.  A `Moment`
  is such a view together with the files, and `Moment.Writes` says that from one moment
  to another some lines were written into the log.
-/

import VariablePrecision.Proofs.Backend.Events

namespace VariablePrecision

open FileAction (gives_pure_iff gives_bind_iff)

/-! ## Programs -/

/-- What is left of a program that closes every call that it opens. -/
inductive Calls where
  | done
  | operation (f : Format) (op : Operation) (x y : Binary f) (site : Option String)
      (rest : Calls)
  | call (site : Option String) (arguments : List Argument) (body : Calls)
      (exitSite : Option String) (results : List Argument) (rest : Calls)

/-- The events of a program, in their order. -/
def Calls.events : Calls → List Chain.Event
  | done => []
  | operation f op x y site rest => .operation f op x y site :: rest.events
  | call site arguments body exitSite results rest =>
      .cross .enter site arguments :: (body.events ++ .cross .exit exitSite results :: rest.events)

/-- The lines of an emulator for values at an end of a call: one for each number, with as many
    tabs as calls are open there.  The numbers may be others, if backends before it round too. -/
structure Emulator.Tells (e : Emulator) (place : Place) (arguments : List Argument)
    (lines : List LogLine) : Prop where
  told : ∃ seen, seen.map Argument.shape = arguments.map Argument.shape ∧
    lines = (e.roundArguments place seen).lines
  indented : lines.map LogLine.tabs =
    List.replicate (Argument.count arguments) place.depth

/-- The lines of an emulator for a program that starts with so many open calls. -/
inductive Calls.Logged (e : Emulator) : Nat → Calls → List LogLine → Prop where
  | done {depth : Nat} : Logged e depth .done []
  | operation {depth : Nat} {f : Format} {op : Operation} {x y : Binary f} {site : Option String}
      {rest : Calls} {lines : List LogLine} (later : Logged e depth rest lines) :
      Logged e depth (.operation f op x y site rest) lines
  | call {depth : Nat} {site exitSite : Option String} {arguments results : List Argument}
      {body rest : Calls} {entry inner exit later : List LogLine}
      (enters : e.Tells { crossing := .enter, depth := depth + 1, site } arguments entry)
      (inside : Logged e (depth + 1) body inner)
      (exits : e.Tells { crossing := .exit, depth := depth + 1, site := exitSite } results exit)
      (after : Logged e depth rest later) :
      Logged e depth (.call site arguments body exitSite results rest)
        (entry ++ (inner ++ (exit ++ later)))

/-! ## Moments -/

/-- The stack of backends around an emulator, and the files. -/
structure Moment where
  before : List (Loaded (Emulator ⊕ Analysis))
  log : FileWriter
  behind : List (Loaded (Emulator ⊕ Analysis))
  files : Files

namespace Moment

variable {m m' m'' : Moment} {lines later : List LogLine} {e : Emulator} {name : String}

/-- The backends with the emulator among them. -/
def backends (m : Moment) (name : String) (e : Emulator) : List (Loaded (Emulator ⊕ Analysis)) :=
  m.before ++ ⟨name, .inl { e with log := some m.log }⟩ :: m.behind

/-- Nobody else logs into the same file. -/
def Alone (m : Moment) : Prop :=
  (∀ l ∈ m.before, l.logLocation? ≠ some m.log.location) ∧
    ∀ l ∈ m.behind, l.logLocation? ≠ some m.log.location

/-- From one moment to another the emulator wrote these lines into its log.  They are in the file
    in the end, unless somebody else writes there. -/
structure Writes (m : Moment) (lines : List LogLine) (m' : Moment) : Prop where
  before : m'.before.map Loaded.traits = m.before.map Loaded.traits
  behind : m'.behind.map Loaded.traits = m.behind.map Loaded.traits
  log : m'.log = m.log.after (lines.flatMap LogLine.parts)
  closed : m.Alone → ∀ text, (m'.log.append text).closed m'.files =
    (m.log.append (String.join (lines.map LogLine.render) ++ text)).closed m.files

theorem Writes.refl (m : Moment) : m.Writes [] m where
  before := rfl
  behind := rfl
  log := rfl
  closed _ text := by rw [List.map_nil, String.join_nil, String.empty_append]

theorem Writes.alone (h : m.Writes lines m') (halone : m.Alone) : m'.Alone := by
  have hlocation : m'.log.location = m.log.location := by rw [h.log, FileWriter.location_after]
  unfold Alone
  rw [hlocation]
  exact ⟨Chain.forall_of_traits (P := fun t => t.log ≠ some m.log.location) h.before halone.1,
    Chain.forall_of_traits (P := fun t => t.log ≠ some m.log.location) h.behind halone.2⟩

theorem Writes.trans (h : m.Writes lines m') (h' : m'.Writes later m'') :
    m.Writes (lines ++ later) m'' where
  before := h'.before.trans h.before
  behind := h'.behind.trans h.behind
  log := by rw [h'.log, h.log, List.flatMap_append, FileWriter.after_append]
  closed halone text := by
    rw [h'.closed (h.alone halone), h.closed halone, List.map_append, String.join_append,
      String.append_assoc]

/-! ## One event -/

variable {ls : List (Loaded (Emulator ⊕ Analysis))} {f : Format} {site : Option String}
  {crossing : Crossing} {stack : CallStack} {arguments answer : List Argument} {files : Files}

/-- Operations write nothing. -/
theorem writes_of_binary {op : Operation} {x y res z : Binary f}
    (h : Chain.thread (·.binary op x y site) (m.backends name e) res = .ok (z, ls)) :
    ∃ m', ls = m'.backends name e ∧ m'.files = m.files ∧ m.Writes [] m' := by
  -- the backends before the emulator, then itself, then those behind it
  rw [backends, Chain.thread_append] at h
  obtain ⟨⟨mid, before⟩, hbefore, h⟩ := bind_eq_ok_iff.1 h
  obtain ⟨⟨last, rest⟩, hrest, h⟩ := bind_eq_ok_iff.1 h
  obtain ⟨-, rfl⟩ := Prod.mk.inj (Except.ok.inj h)
  obtain ⟨⟨next, l⟩, hl, hrest⟩ := bind_eq_ok_iff.1 hrest
  obtain ⟨⟨final, behind⟩, hbehind, hrest⟩ := bind_eq_ok_iff.1 hrest
  obtain ⟨-, rfl⟩ := Prod.mk.inj (Except.ok.inj hrest)
  obtain rfl := (Loaded.traits_of_binary hl).2 _ rfl
  exact ⟨⟨before, m.log, behind, m.files⟩, rfl, rfl, Chain.traits_of_thread_binary hbefore,
    Chain.traits_of_thread_binary hbehind, rfl, (Writes.refl m).closed⟩

/-- An end of a call writes its lines. -/
theorem writes_of_cross (hknows : e.knowsStack = true)
    (h : (Chain.thread (·.cross crossing stack site) (m.backends name e) arguments).Gives m.files
      (answer, ls) files) :
    ∃ m' seen, ls = m'.backends name e ∧ m'.files = files ∧
      seen.map Argument.shape = arguments.map Argument.shape ∧
      m.Writes (e.roundArguments { crossing, depth := stack.depth, site } seen).lines m' := by
  obtain ⟨seen, before, mid, next, l, mid', behind, hbefore, hl, hbehind, rfl⟩ :=
    Chain.gives_thread_around h
  obtain ⟨rfl, rfl⟩ := Loaded.gives_cross_logging hknows hl
  obtain ⟨hbefore, hshapes, hmid⟩ := Chain.traits_of_thread_cross hbefore
  obtain ⟨hbehind, -, hfiles⟩ := Chain.traits_of_thread_cross hbehind
  refine ⟨⟨before, _, behind, files⟩, seen, rfl, rfl, hshapes, hbefore, hbehind, rfl, ?_⟩
  intro halone text
  rw [← LogLine.join_parts]
  generalize (e.roundArguments _ seen).lines.flatMap LogLine.parts = texts at hfiles ⊢
  -- the emulator writes its lines, and the others write elsewhere
  have hothers : ∀ l ∈ m.behind, l.logLocation? ≠ some (m.log.after texts).location := by
    rw [FileWriter.location_after]
    exact halone.2
  calc ((m.log.after texts).append text).closed files
      = ((m.log.after texts).append text).closed ((m.log.writeAll texts).run mid).2 :=
        FileWriter.closed_congr (hfiles _ hothers)
    _ = (m.log.append (String.join texts ++ text)).closed mid := FileWriter.closed_writeAll ..
    _ = (m.log.append (String.join texts ++ text)).closed m.files :=
        FileWriter.closed_congr (hmid _ halone.1)

/-! ## Runs -/

variable {c : Chain (Emulator ⊕ Analysis)}

theorem writes_of_handle_cross (hreg : e.registry = none) (hknows : e.knowsStack = true)
    (hmode : e.config.mode = .full) (hcoverage : e.config.coverage.coversArguments = true)
    (h : (Chain.handle ⟨m.backends name e, stack⟩ (.cross crossing site arguments)).Gives m.files
      c files) :
    ∃ m' lines, c = ⟨m'.backends name e, crossing.past site stack⟩ ∧ m'.files = files ∧
      e.Tells { crossing, depth := (crossing.during site stack).depth, site } arguments lines ∧
      m.Writes lines m' := by
  obtain ⟨answer, backends, hthread, rfl⟩ := Chain.gives_handle_cross_iff.1 h
  obtain ⟨m', seen, rfl, hfiles, hshapes, hwrites⟩ := writes_of_cross hknows hthread
  refine ⟨m', _, rfl, hfiles, ⟨⟨seen, hshapes, rfl⟩, ?_⟩, hwrites⟩
  -- the numbers are as many as in the values that the program passes
  rw [List.eq_replicate_iff, List.length_map, ← Argument.count_congr hshapes]
  refine ⟨Emulator.length_roundArguments hreg (by rw [hmode]; rfl) hcoverage seen, ?_⟩
  intro tabs htabs
  obtain ⟨l, hl, rfl⟩ := List.mem_map.1 htabs
  rw [LogLine.tabs_eq_depth, Emulator.depth_of_mem_roundArguments hl]

/-- Over a whole program the log grows by nested lines, and the stack comes back. -/
theorem logged_of_run (hreg : e.registry = none) (hknows : e.knowsStack = true)
    (hmode : e.config.mode = .full) (hcoverage : e.config.coverage.coversArguments = true)
    (calls : Calls)
    (h : (Chain.run ⟨m.backends name e, stack⟩ calls.events).Gives m.files c files) :
    ∃ m' lines, c = ⟨m'.backends name e, stack⟩ ∧ m'.files = files ∧
      calls.Logged e stack.depth lines ∧ m.Writes lines m' := by
  -- the body of a call runs from the moment after its entry, with one more call open
  induction calls generalizing m stack c files with
  | done =>
    obtain ⟨rfl, rfl⟩ := gives_pure_iff.1 h
    exact ⟨m, [], rfl, rfl, .done, .refl m⟩
  | operation f op x y site rest ih =>
    obtain ⟨d, mid, hevent, hrest⟩ := Chain.gives_run_cons_iff.1 h
    obtain ⟨z, ls, hthread, rfl, rfl⟩ := Chain.gives_handle_operation_iff.1 hevent
    obtain ⟨m₁, rfl, hfiles, hwrites⟩ := writes_of_binary hthread
    rw [← hfiles] at hrest
    obtain ⟨m₂, lines, rfl, hfiles', hlogged, hwrites'⟩ := ih hrest
    exact ⟨m₂, lines, rfl, hfiles', .operation hlogged, hwrites.trans hwrites'⟩
  | call site arguments body exitSite results rest ihbody ihrest =>
    obtain ⟨d₁, files₁, henter, h⟩ := Chain.gives_run_cons_iff.1 h
    obtain ⟨d₂, files₂, hbody, h⟩ := Chain.gives_run_append_iff.1 h
    obtain ⟨d₃, files₃, hexit, hrest⟩ := Chain.gives_run_cons_iff.1 h
    obtain ⟨m₁, entry, rfl, rfl, henters, hwrites₁⟩ :=
      writes_of_handle_cross hreg hknows hmode hcoverage henter
    obtain ⟨m₂, inner, rfl, rfl, hinside, hwrites₂⟩ := ihbody hbody
    obtain ⟨m₃, exit, rfl, rfl, hexits, hwrites₃⟩ :=
      writes_of_handle_cross hreg hknows hmode hcoverage hexit
    -- what follows the call starts with the stack that the call started with
    rw [Crossing.past_exit_past_enter] at hrest
    obtain ⟨m₄, later, rfl, rfl, hlater, hwrites₄⟩ := ihrest hrest
    -- the call is open at both of its ends, and in between
    rw [Crossing.depth_during_enter] at henters
    rw [Crossing.depth_past_enter] at hinside
    rw [Crossing.depth_during_exit] at hexits
    exact ⟨m₄, _, rfl, rfl, .call henters hinside hexits hlater,
      hwrites₁.trans (hwrites₂.trans (hwrites₃.trans hwrites₄))⟩

end Moment

/-- An emulator without registry that rounds the values at both ends of calls, knows the call
    stack, and has a log, in any stack of backends.  A program that closes every call that it opens
    is handled if the other backends accept its events.  Then the call stack is as before, and all
    lines that were written into the log are lines of a call, those of its entry and those of its
    exit with as many tabs as calls are open there, this one among them.  In the end they are in
    the file of the log, one after the other, unless another backend logs into it too. -/
theorem Calls.run_indents (calls : Calls) {e : Emulator} {w : FileWriter}
    (hreg : e.registry = none) (hknows : e.knowsStack = true) (hlog : e.log = some w)
    (hmode : e.config.mode = .full) (hcoverage : e.config.coverage.coversArguments = true)
    (name : String) (before behind : List (Loaded (Emulator ⊕ Analysis))) (stack : CallStack)
    (files : Files) :
    ((∀ event ∈ calls.events, ∀ l ∈ before ++ behind, l.Accepts event) →
      ∃ c files', (Chain.run ⟨before ++ ⟨name, .inl e⟩ :: behind, stack⟩ calls.events).Gives
        files c files') ∧
    ∀ c files', (Chain.run ⟨before ++ ⟨name, .inl e⟩ :: behind, stack⟩ calls.events).Gives
        files c files' →
      c.stack = stack ∧ ∃ before' behind' w' lines,
        c.backends = before' ++ ⟨name, .inl { e with log := some w' }⟩ :: behind' ∧
        before'.length = before.length ∧
        calls.Logged e stack.depth lines ∧
        w' = w.after (lines.flatMap LogLine.parts) ∧
        ((∀ l ∈ before ++ behind, l.logLocation? ≠ some w.location) →
          w'.closed files' =
            (w.append (String.join (lines.map LogLine.render))).closed files) := by
  have he : { e with log := some w } = e := by rw [← hlog]
  constructor
  · intro haccepts
    apply Chain.exists_gives_run
    intro event hevent l hl
    -- the emulator itself accepts everything, having no registry
    have hmem : l = ⟨name, .inl e⟩ ∨ l ∈ before ++ behind := by
      rw [← List.mem_cons]
      exact List.perm_middle.mem_iff.1 hl
    rcases hmem with rfl | hother
    · exact Loaded.accepts_emulator hreg name event
    · exact haccepts event hevent l hother
  · intro c files' h
    -- the moment from which the run is seen has the log of the emulator apart
    have h : (Chain.run ⟨Moment.backends ⟨before, w, behind, files⟩ name e, stack⟩
        calls.events).Gives files c files' := by
      rw [Moment.backends, he]
      exact h
    obtain ⟨m', lines, rfl, rfl, hlogged, hwrites⟩ :=
      Moment.logged_of_run hreg hknows hmode hcoverage calls h
    refine ⟨rfl, m'.before, m'.behind, m'.log, lines, rfl, ?_, hlogged, hwrites.log, ?_⟩
    · have hlength := congrArg List.length hwrites.before
      rwa [List.length_map, List.length_map] at hlength
    · intro halone
      have hclosed := hwrites.closed ⟨fun l hl => halone l (List.mem_append_left behind hl),
        fun l hl => halone l (List.mem_append_right before hl)⟩ ""
      rwa [FileWriter.append_empty, String.append_empty] at hclosed

/-- An emulator that logs its arguments. -/
def loggingEmulator (location : Location) : Emulator where
  config :=
    { targets := ⟨⟨10, 5⟩, ⟨10, 5⟩⟩
      mode := .full
      coverage := .arguments
      valid := Targets.half_valid }
  registry := none
  knowsStack := true
  log := some { location }

/-- More calls than the stack keeps. -/
def deepStack : CallStack where
  sites := .replicate callStackCapacity "recurse"
  dropped := 904
  size_le := by rw [Array.size_replicate]
  full _ := Array.size_replicate

/-- A call with one number, that adds, and calls another one with two numbers. -/
def nestedCalls : Calls :=
  .call (some "solve") [.scalar .binary64 (.ofBits .binary64 0x3fd5555555555555)]
    (.operation .binary64 .add (.ofBits .binary64 0x3ff199999999999a)
      (.ofBits .binary64 0x4002666666666666) (some "sum")
      (.call none [.array .binary32 [.ofBits .binary32 0x3eaaaaab, .ofBits .binary32 1]] .done
        none [] .done))
    (some "solve") [.scalar .binary64 (.ofBits .binary64 0x3ff199999999999a)] .done

/-- An emulator between an analysis and another emulator, below all those calls. -/
def deepChain : Chain (Emulator ⊕ Analysis) where
  backends :=
    [⟨"analysis", .inr ⟨Analysis.sitesOf Chain.sumRegistry, none⟩⟩] ++
      ⟨"vprec", .inl (loggingEmulator ⟨["vprec.log"]⟩)⟩ ::
        [⟨"other", .inl (loggingEmulator ⟨["other.log"]⟩)⟩]
  stack := deepStack

/-- Far above what the stack keeps, the lines of the inner call have one tab more than those around
    them. -/
theorem Calls.run_indents_deep :
    ∃ (c : Chain (Emulator ⊕ Analysis)) (files' : Files) (lines : List LogLine),
      (deepChain.run nestedCalls.events).Gives {} c files' ∧ c.stack = deepStack ∧
      lines.map LogLine.tabs = [5001, 5002, 5002, 5001] ∧
      (FileWriter.after { location := ⟨["vprec.log"]⟩ } (lines.flatMap LogLine.parts)).closed
          files' =
        (FileWriter.append { location := ⟨["vprec.log"]⟩ }
          (String.join (lines.map LogLine.render))).closed {} := by
  obtain ⟨hhandled, hruns⟩ := nestedCalls.run_indents
    (e := loggingEmulator ⟨["vprec.log"]⟩) rfl rfl rfl rfl rfl "vprec"
    [⟨"analysis", .inr ⟨Analysis.sitesOf Chain.sumRegistry, none⟩⟩]
    [⟨"other", .inl (loggingEmulator ⟨["other.log"]⟩)⟩] deepStack {}
  have haccepts : ∀ event ∈ nestedCalls.events, ∀ l ∈
      ([⟨"analysis", .inr ⟨Analysis.sitesOf Chain.sumRegistry, none⟩⟩] ++
        [⟨"other", .inl (loggingEmulator ⟨["other.log"]⟩)⟩] :
          List (Loaded (Emulator ⊕ Analysis))), l.Accepts event := by
    intro event hevent l hl
    rcases List.mem_pair.1 hl with rfl | rfl
    · -- the analysis looks at the addition only, which is at its site
      simp only [nestedCalls, Calls.events, List.nil_append, List.cons_append, List.mem_cons,
        List.not_mem_nil, or_false] at hevent
      rcases hevent with rfl | rfl | rfl | rfl | rfl
      · trivial
      · exact ⟨_, rfl⟩
      all_goals trivial
    · exact Loaded.accepts_emulator rfl "other" event
  obtain ⟨c, files', hgives⟩ := hhandled haccepts
  obtain ⟨hstack, -, -, w', lines, -, -, hlogged, rfl, hclosed⟩ := hruns c files' hgives
  refine ⟨c, files', lines, hgives, hstack, ?_, hclosed ?_⟩
  · have hdepth : deepStack.depth = 5000 := by
      rw [CallStack.depth, deepStack, Array.size_replicate]
      rfl
    rw [hdepth] at hlogged
    cases hlogged with
    | call enters inside exits after =>
      cases after
      cases inside with
      | operation later =>
        cases later with
        | call enters' inside' exits' after' =>
          cases inside'
          cases after'
          simp only [List.map_append, List.map_nil, enters.indented, enters'.indented,
            exits.indented, exits'.indented]
          rfl
  · intro l hl
    rcases List.mem_pair.1 hl with rfl | rfl
    · simp [Loaded.logLocation?]
    · simp [Loaded.logLocation?, loggingEmulator]

end VariablePrecision
