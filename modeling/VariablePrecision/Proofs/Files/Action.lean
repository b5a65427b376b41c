/-
  VariablePrecision.Proofs.Files.Action

  Actions on files that succeed, step by step.

  `action.Gives files a files'` says that the action, run on `files`, succeeds with `a` and
  leaves `files'` behind; `action.Yields P` that all its results have a property,
  whatever the files are.
-/

import VariablePrecision.Files.Basic

namespace VariablePrecision.FileAction

variable {α β : Type}

/-- The action succeeds with `a` and leaves `files'`. -/
def Gives (action : FileAction α) (files : Files) (a : α) (files' : Files) : Prop :=
  (ExceptT.run action).run files = (.ok a, files')

theorem gives_pure_iff {a b : α} {files files' : Files} :
    Gives (pure a) files b files' ↔ a = b ∧ files = files' := by
  constructor
  · intro h
    obtain ⟨ha, hfiles⟩ := Prod.mk.inj (show (Except.ok a, files) = (.ok b, files') from h)
    exact ⟨Except.ok.inj ha, hfiles⟩
  · rintro ⟨rfl, rfl⟩
    rfl

theorem not_gives_throw {e : Error} {a : α} {files files' : Files} :
    ¬ Gives (throw e) files a files' := by
  intro h
  have h : ((.error e : Except Error α), files) = (.ok a, files') := h
  cases (Prod.mk.inj h).1

/-- An action in two steps succeeds exactly if both do. -/
theorem gives_bind_iff {action : FileAction α} {next : α → FileAction β} {files files' : Files}
    {b : β} :
    Gives (action >>= next) files b files' ↔
      ∃ a mid, Gives action files a mid ∧ Gives (next a) mid b files' := by
  unfold Gives
  rw [ExceptT.run_bind, StateT.run_bind]
  constructor
  · intro h
    cases hrun : (ExceptT.run action).run files with
    | mk result mid =>
      rw [hrun] at h
      cases result with
      | error e => cases (Prod.mk.inj h).1
      | ok a => exact ⟨a, mid, rfl, h⟩
  · rintro ⟨a, mid, haction, hnext⟩
    rw [haction]
    exact hnext

theorem gives_map_iff {action : FileAction α} {g : α → β} {files files' : Files} {b : β} :
    Gives (g <$> action) files b files' ↔ ∃ a, Gives action files a files' ∧ g a = b := by
  rw [← bind_pure_comp, gives_bind_iff]
  constructor
  · rintro ⟨a, mid, ha, hb⟩
    obtain ⟨rfl, rfl⟩ := gives_pure_iff.1 hb
    exact ⟨a, ha, rfl⟩
  · rintro ⟨a, ha, rfl⟩
    exact ⟨a, files', ha, rfl⟩

/-- An action that cannot fail. -/
theorem gives_lift_iff {action : StateM Files α} {files files' : Files} {a : α} :
    Gives (liftM action) files a files' ↔ action.run files = (a, files') := by
  show (Except.ok (action.run files).1, (action.run files).2) = (Except.ok a, files') ↔ _
  rw [Prod.mk.injEq, Except.ok.injEq, Prod.ext_iff]

/-! ## Properties of results -/

/-- Whenever the action succeeds, its result has the property. -/
def Yields (action : FileAction α) (P : α → Prop) : Prop :=
  ∀ files a files', Gives action files a files' → P a

theorem yields_pure {P : α → Prop} {a : α} (h : P a) : Yields (pure a) P := by
  intro files b files' hb
  rw [← (gives_pure_iff.1 hb).1]
  exact h

theorem yields_throw {P : α → Prop} (e : Error) : Yields (throw e) P := by
  intro files a files' h
  exact absurd h not_gives_throw

theorem yields_bind {action : FileAction α} {next : α → FileAction β} {P : β → Prop}
    (h : ∀ a, Yields (next a) P) : Yields (action >>= next) P := by
  intro files b files' hb
  obtain ⟨a, mid, -, hnext⟩ := gives_bind_iff.1 hb
  exact h a mid b files' hnext

end VariablePrecision.FileAction
