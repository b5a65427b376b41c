/-
  VariablePrecision.Proofs.Backend.LastAnswer

  Operations in a stack of emulators and analyses.

  Both kinds of backend compute their answer from the operands and drop the answer that
  is passed to them, so a stack gives the answer of its last backend.  An analysis
  answers with the native result.  Analyses therefore leave no trace in a result as long
  as an emulator stands behind them; the one that stands last puts the native result
  back.
-/

import Mathlib.Data.List.Basic
import VariablePrecision.Backend.Chain
import VariablePrecision.Backend.Instances

namespace VariablePrecision

variable {f : Format}

/-! ## Passing an answer on -/

namespace Chain

variable {β σ ε : Type} {step : Loaded β → σ → Except ε (σ × Loaded β)}

/-- If every backend answers whatever it is passed, the whole stack does. -/
theorem exists_thread {ls : List (Loaded β)}
    (h : ∀ l ∈ ls, ∀ s, ∃ r, step l s = .ok r) (s : σ) : ∃ r, thread step ls s = .ok r := by
  -- each backend may change the answer that the next one is passed
  induction ls generalizing s with
  | nil => exact ⟨(s, []), rfl⟩
  | cons l rest ih =>
    obtain ⟨⟨s₁, l'⟩, hl⟩ := h l List.mem_cons_self s
    obtain ⟨⟨s₂, rest'⟩, hrest⟩ := ih (fun m hm => h m (List.mem_cons_of_mem l hm)) s₁
    refine ⟨(s₂, l' :: rest'), ?_⟩
    rw [thread, hl]
    change (thread step rest s₁ >>= _) = _
    rw [hrest]
    rfl

/-- The last backend sees the answer of those before it, and its answer is the one given. -/
theorem thread_concat {ls ls' : List (Loaded β)} {l l' : Loaded β} {s r z : σ}
    (hinit : thread step ls s = .ok (r, ls')) (hlast : step l r = .ok (z, l')) :
    thread step (ls ++ [l]) s = .ok (z, ls' ++ [l']) := by
  induction ls generalizing s ls' with
  | nil =>
    obtain ⟨rfl, rfl⟩ := Prod.mk.inj (Except.ok.inj hinit)
    rw [List.nil_append, thread, hlast]
    rfl
  | cons m rest ih =>
    rw [thread] at hinit
    obtain ⟨⟨s₁, m'⟩, hm, hinit⟩ := bind_eq_ok_iff.1 hinit
    obtain ⟨⟨s₂, rest'⟩, hrest, hinit⟩ := bind_eq_ok_iff.1 hinit
    obtain ⟨rfl, rfl⟩ := Prod.mk.inj (Except.ok.inj hinit)
    rw [List.cons_append, thread, hm]
    change (thread step (rest ++ [l]) s₁ >>= _) = _
    rw [ih hrest]
    rfl

end Chain

/-! ## One backend -/

namespace Loaded

/-- The backend is an analysis. -/
def isAnalysis (l : Loaded (Emulator ⊕ Analysis)) : Bool := l.backend.isRight

/-- The backend takes operations in the format `f` at the site. -/
def Knows (f : Format) (site : Option String) (l : Loaded (Emulator ⊕ Analysis)) : Prop :=
  match l.backend with
  | .inl e => ∃ target, e.operationTarget f site = .ok target
  | .inr a => ∃ s, a.site? site = some s

variable {l : Loaded (Emulator ⊕ Analysis)} {site : Option String}

/-- The answer to an operation does not depend on the answer so far, and an analysis gives the
    native result. -/
theorem exists_binary (h : l.Knows f site) (op : Operation) (x y : Binary f) :
    ∃ z l', (∀ res, l.binary op x y site res = .ok (z, l')) ∧
      (l.isAnalysis = true → z = op.apply x y) := by
  obtain ⟨name, e | a⟩ := l
  · -- with a target there is always a result, rounded or not
    obtain ⟨target, htarget⟩ := h
    have hop : ∃ z, e.binaryOp op x y site = .ok z := by
      rw [Emulator.binaryOp, htarget]
      cases target with
      | none => exact ⟨_, rfl⟩
      | some t => exact ⟨_, rfl⟩
    obtain ⟨z, hz⟩ := hop
    refine ⟨z, ⟨name, .inl e⟩, fun res => ?_, by simp [isAnalysis]⟩
    change (((e.binaryOp op x y site).map _).map _).map _ = _
    rw [hz]
    rfl
  · -- what is recorded is what is computed here, not what was passed
    obtain ⟨s, hs⟩ := h
    refine ⟨op.apply x y, ⟨name, .inr (a.update s.id (·.record op x y (op.apply x y)))⟩,
      fun res => ?_, fun _ => rfl⟩
    change (((a.record op x y (op.apply x y) site).map _).map _).map _ = _
    rw [Analysis.record, hs]
    rfl

end Loaded

/-! ## Stacks -/

namespace Chain

/-- The stack with all analyses taken out. -/
def emulators (c : Chain (Emulator ⊕ Analysis)) : Chain (Emulator ⊕ Analysis) :=
  { c with backends := c.backends.filter fun l => !l.isAnalysis }

/-- An analysis was loaded last. -/
def endsInAnalysis (c : Chain (Emulator ⊕ Analysis)) : Bool :=
  c.backends.getLast?.any (·.isAnalysis)

variable {ls ls' : List (Loaded (Emulator ⊕ Analysis))} {l : Loaded (Emulator ⊕ Analysis)}
  {site : Option String} {op : Operation} {x y z : Binary f}

theorem binary_eq_ok (stack : CallStack)
    (h : thread (·.binary op x y site) ls (op.apply x y) = .ok (z, ls')) :
    Chain.binary ⟨ls, stack⟩ op x y site = .ok (z, ⟨ls', stack⟩) := by
  change (thread _ ls _ >>= _) = _
  rw [h]
  rfl

theorem exists_thread_binary (h : ∀ l ∈ ls, l.Knows f site) (op : Operation)
    (x y res : Binary f) : ∃ r, thread (·.binary op x y site) ls res = .ok r := by
  refine exists_thread (fun l hl s => ?_) res
  obtain ⟨z, l', hz, -⟩ := Loaded.exists_binary (h l hl) op x y
  exact ⟨_, hz s⟩

theorem emulators_concat_analysis {stack : CallStack} (h : l.isAnalysis = true) :
    emulators ⟨ls ++ [l], stack⟩ = emulators ⟨ls, stack⟩ := by
  simp [emulators, h]

theorem emulators_concat_emulator {stack : CallStack} (h : l.isAnalysis = false) :
    emulators ⟨ls ++ [l], stack⟩ = (emulators ⟨ls, stack⟩).push l := by
  simp [emulators, push, h]

/-- At a site that all backends know, a stack gives the result that its emulators alone give,
    except that an analysis which was loaded last gives the native one. -/
theorem binary_eq_emulators (c : Chain (Emulator ⊕ Analysis)) (op : Operation) (x y : Binary f)
    (site : Option String) (hknown : ∀ l ∈ c.backends, l.Knows f site) :
    ∃ z c' z₀ c₀, c.binary op x y site = .ok (z, c') ∧
      c.emulators.binary op x y site = .ok (z₀, c₀) ∧
      z = if c.endsInAnalysis then op.apply x y else z₀ := by
  obtain ⟨backends, stack⟩ := c
  -- Only the last backend counts: those before it have to succeed, nothing more.
  rcases List.eq_nil_or_concat' backends with rfl | ⟨ls, l, rfl⟩
  · exact ⟨_, _, _, _, rfl, rfl, rfl⟩
  have hls : ∀ m ∈ ls, m.Knows f site := fun m hm => hknown m (List.mem_append_left [l] hm)
  obtain ⟨⟨r, ls'⟩, hr⟩ := exists_thread_binary hls op x y (op.apply x y)
  have hem : ∀ m ∈ (emulators ⟨ls, stack⟩).backends, m.Knows f site := fun m hm =>
    hls m (List.mem_filter.1 hm).1
  obtain ⟨⟨r₀, ls₀⟩, hr₀⟩ := exists_thread_binary hem op x y (op.apply x y)
  obtain ⟨z, l', hz, hnative⟩ := Loaded.exists_binary (hknown l (by simp)) op x y
  have hstack := binary_eq_ok stack (thread_concat hr (hz r))
  cases ha : l.isAnalysis with
  | true =>
    -- without the analysis the stack ends earlier, and its result may be another
    refine ⟨z, _, r₀, ⟨ls₀, stack⟩, hstack, ?_, ?_⟩
    · rw [emulators_concat_analysis ha]
      exact binary_eq_ok stack hr₀
    · rw [if_pos (by simp [endsInAnalysis, ha])]
      exact hnative ha
  | false =>
    -- the same emulator is last in both stacks
    refine ⟨z, _, z, ⟨ls₀ ++ [l'], stack⟩, hstack, ?_, ?_⟩
    · rw [emulators_concat_emulator ha]
      exact binary_eq_ok stack (thread_concat hr₀ (hz r₀))
    · rw [if_neg (by simp [endsInAnalysis, ha])]

/-! ## An emulator below an analysis -/

/-- One addition of binary64 values, to be done with 4 mantissa and 5 exponent bits. -/
def sumRegistry : Registry where
  records :=
    [{ id := "sum"
       kind := .operation
        { kind := .arithmetic .add, dataType := .scalar .binary64, target := ⟨4, 5⟩ } }]
  valid := by
    rintro r hr
    rw [List.mem_singleton.1 hr, ← Record.fault?_eq_none_iff]
    decide
  distinct := by decide

/-- The emulator of the operations of that registry. -/
def sumEmulator : Emulator where
  config :=
    { coverage := .operations
      valid := Configuration.standard.valid }
  registry := some sumRegistry
  knowsStack := true
  log := none

/-- The emulator, and an analysis of the same registry behind it. -/
def watchedSum : Chain (Emulator ⊕ Analysis) where
  backends :=
    [⟨"vprec", .inl sumEmulator⟩, ⟨"analysis", .inr ⟨Analysis.sitesOf sumRegistry, none⟩⟩]

theorem knows_of_mem_watchedSum :
    ∀ l ∈ watchedSum.backends, l.Knows .binary64 (some "sum") := by
  intro l hl
  rcases List.mem_pair.1 hl with rfl | rfl
  · exact ⟨some ⟨4, 5⟩, rfl⟩
  · exact ⟨_, rfl⟩

/-- The sum of 1.1 and 2.3 is 3.375 in the emulated format, and the analysis puts 3.4 back. -/
theorem binary_eq_emulators_watchedSum :
    (∀ l ∈ watchedSum.backends, l.Knows .binary64 (some "sum")) ∧
      ∃ c' c₀,
        watchedSum.binary .add (.ofBits .binary64 0x3ff199999999999a)
          (.ofBits .binary64 0x4002666666666666) (some "sum") =
            .ok (.ofBits .binary64 0x400b333333333333, c') ∧
        watchedSum.emulators.binary .add (.ofBits .binary64 0x3ff199999999999a)
          (.ofBits .binary64 0x4002666666666666) (some "sum") =
            .ok (.ofBits .binary64 0x400b000000000000, c₀) := by
  obtain ⟨z, c', z₀, c₀, hz, hz₀, heq⟩ := binary_eq_emulators watchedSum .add
    (.ofBits .binary64 0x3ff199999999999a) (.ofBits .binary64 0x4002666666666666) (some "sum")
    knows_of_mem_watchedSum
  have hnative : z = .ofBits .binary64 0x400b333333333333 := by
    rw [heq, if_pos (by decide)]
    decide +kernel
  have hrounded : (watchedSum.emulators.binary .add (.ofBits .binary64 0x3ff199999999999a)
      (.ofBits .binary64 0x4002666666666666) (some "sum")).map Prod.fst =
        .ok (.ofBits .binary64 0x400b000000000000) := by decide +kernel
  rw [hz₀] at hrounded
  rw [hnative] at hz
  rw [show z₀ = _ from Except.ok.inj hrounded] at hz₀
  exact ⟨knows_of_mem_watchedSum, c', c₀, hz, hz₀⟩

/-- An analysis can change the results of a stack. -/
theorem analyses_change_results :
    ¬ ∀ (f : Format) (c : Chain (Emulator ⊕ Analysis)) (op : Operation) (x y : Binary f)
        (site : Option String), (∀ l ∈ c.backends, l.Knows f site) →
      (c.binary op x y site).map Prod.fst = (c.emulators.binary op x y site).map Prod.fst := by
  intro h
  have heq := h .binary64 watchedSum .add (.ofBits .binary64 0x3ff199999999999a)
    (.ofBits .binary64 0x4002666666666666) (some "sum") knows_of_mem_watchedSum
  revert heq
  decide +kernel

end Chain

end VariablePrecision
