/-
  VariablePrecision.Proofs.Files.Failure

  Actions on files that fail.

  An action that only asks `Reads`: the files are as before, whatever comes of it.  An
  action is `Careful` if they are as before unless it succeeds, so that a careful action may
  follow one that reads, but nothing that can fail may follow a careful one.  Making a
  file is careful, and what is asked about a path or loaded from it only reads.
-/

import VariablePrecision.Emulator.Basic
import VariablePrecision.Proofs.Files.Action

namespace VariablePrecision

namespace FileAction

variable {α β : Type}

/-- The action fails with `err` and leaves `files'`. -/
def Fails (action : FileAction α) (files : Files) (err : Error) (files' : Files) : Prop :=
  (ExceptT.run action).run files = (.error err, files')

/-- The action leaves the files as they are. -/
def Reads (action : FileAction α) : Prop :=
  ∀ files, ((ExceptT.run action).run files).2 = files

/-- The action leaves the files as they are unless it succeeds. -/
def Careful (action : FileAction α) : Prop :=
  ∀ files err files', Fails action files err files' → files' = files

theorem not_fails_pure {a : α} {files files' : Files} {err : Error} :
    ¬ Fails (pure a) files err files' := by
  intro h
  have h : ((.ok a : Except Error α), files) = (.error err, files') := h
  cases (Prod.mk.inj h).1

/-- An action in two steps fails in one of them. -/
theorem fails_bind_iff {action : FileAction α} {next : α → FileAction β} {files files' : Files}
    {err : Error} :
    Fails (action >>= next) files err files' ↔ Fails action files err files' ∨
      ∃ a mid, Gives action files a mid ∧ Fails (next a) mid err files' := by
  unfold Fails Gives
  rw [ExceptT.run_bind, StateT.run_bind]
  cases (ExceptT.run action).run files with
  | mk result mid =>
    cases result with
    | error e =>
      -- the second step is not taken
      constructor
      · intro h
        have h : ((.error e : Except Error β), mid) = (.error err, files') := h
        obtain ⟨he, rfl⟩ := Prod.mk.inj h
        obtain rfl := Except.error.inj he
        exact .inl rfl
      · rintro (h | ⟨a, mid', h, -⟩)
        · obtain ⟨he, rfl⟩ := Prod.mk.inj h
          obtain rfl := Except.error.inj he
          rfl
        · cases (Prod.mk.inj h).1
    | ok a =>
      constructor
      · exact fun h => .inr ⟨a, mid, rfl, h⟩
      · rintro (h | ⟨a', mid', h, hnext⟩)
        · cases (Prod.mk.inj h).1
        · obtain ⟨ha, rfl⟩ := Prod.mk.inj h
          obtain rfl := Except.ok.inj ha
          exact hnext

theorem fails_map_iff {action : FileAction α} {g : α → β} {files files' : Files} {err : Error} :
    Fails (g <$> action) files err files' ↔ Fails action files err files' := by
  rw [← bind_pure_comp, fails_bind_iff]
  constructor
  · rintro (h | ⟨_, _, -, h⟩)
    · exact h
    · exact absurd h not_fails_pure
  · exact .inl

/-! ## Reading -/

theorem Reads.eq_of_gives {action : FileAction α} (h : Reads action) {files files' : Files} {a : α}
    (ha : Gives action files a files') : files' = files := by
  rw [← h files, show (ExceptT.run action).run files = _ from ha]

theorem reads_pure (a : α) : Reads (pure a) := fun _ => rfl

theorem reads_throw (e : Error) : Reads (throw e : FileAction α) := fun _ => rfl

theorem reads_bind {action : FileAction α} {next : α → FileAction β} (h : Reads action)
    (hnext : ∀ a, Reads (next a)) : Reads (action >>= next) := by
  intro files
  have hfiles := h files
  rw [ExceptT.run_bind, StateT.run_bind]
  cases hrun : (ExceptT.run action).run files with
  | mk result mid =>
    rw [hrun] at hfiles
    obtain rfl : mid = files := hfiles
    cases result with
    | error e => rfl
    | ok a => exact hnext a mid

theorem reads_map {action : FileAction α} (h : Reads action) (g : α → β) :
    Reads (g <$> action) := by
  rw [← bind_pure_comp]
  exact reads_bind h fun a => reads_pure (g a)

/-! ## Care -/

theorem Reads.careful {action : FileAction α} (h : Reads action) : Careful action := by
  intro files err files' hfails
  rw [← h files, show (ExceptT.run action).run files = _ from hfails]

/-- What is read before makes no difference. -/
theorem careful_bind {action : FileAction α} {next : α → FileAction β} (h : Reads action)
    (hnext : ∀ a, Careful (next a)) : Careful (action >>= next) := by
  intro files err files' hfails
  rcases fails_bind_iff.1 hfails with hfirst | ⟨a, mid, ha, hsecond⟩
  · exact h.careful files err files' hfirst
  · rw [hnext a mid err files' hsecond, h.eq_of_gives ha]

/-- A careful action may be the last that can fail. -/
theorem careful_bind_of_total {action : FileAction α} {next : α → FileAction β}
    (h : Careful action) (hnext : ∀ a files err files', ¬ Fails (next a) files err files') :
    Careful (action >>= next) := by
  intro files err files' hfails
  rcases fails_bind_iff.1 hfails with hfirst | ⟨a, mid, -, hsecond⟩
  · exact h files err files' hfirst
  · exact absurd hsecond (hnext a mid err files')

theorem careful_map {action : FileAction α} (h : Careful action) (g : α → β) :
    Careful (g <$> action) := by
  rw [← bind_pure_comp]
  exact careful_bind_of_total h fun _ _ _ _ => not_fails_pure

end FileAction

open FileAction

/-! ## Paths -/

namespace Files

variable {α : Type}

theorem reads_ask (path : String) (question : Files → Path → Except PathFault α) :
    Reads (ask path question) := by
  refine reads_bind (fun _ => rfl) fun files => ?_
  cases Path.ofText path >>= question files with
  | ok a => exact reads_pure a
  | error fault => exact reads_throw _

theorem reads_entry (path : String) : Reads (entry path) := reads_ask path find

/-- A file that cannot be made leaves no trace. -/
theorem careful_create (path : String) : Careful (create path) :=
  careful_bind (reads_ask path locate) fun l =>
    careful_bind_of_total (fun _ _ _ h => by cases (Prod.mk.inj h).1) fun _ _ _ _ => not_fails_pure

end Files

theorem FileWriter.careful_create (path : String) : Careful (create path) :=
  careful_map (Files.careful_create path) _

end VariablePrecision
