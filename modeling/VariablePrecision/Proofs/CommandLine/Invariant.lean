/-
  VariablePrecision.Proofs.CommandLine.Invariant

  Properties of settings that no token can break.

  An option keeps a property if its presence, or any value that it accepts, takes
  settings with the property to such settings.  When all options of a table keep it, so
  does every step of the reading.  A pending option has been found in the table, so it
  keeps the property as well; with this the steps compose to the whole run.
-/

import VariablePrecision.CommandLine.Parse

namespace VariablePrecision.CommandLine

variable {σ : Type} {P : σ → Prop}

/-- Whatever value is accepted, the settings keep the property. -/
def KeepsValue (P : σ → Prop) (set : String → Except Refusal (σ → σ)) : Prop :=
  ∀ text update, set text = .ok update → ∀ s, P s → P (update s)

/-- The option keeps a property of the settings. -/
def Entry.Keeps (P : σ → Prop) (entry : Entry σ) : Prop :=
  match entry.action with
  | .help => True
  | .flag set => ∀ s, P s → P (set s)
  | .value _ set => KeepsValue P set

/-- The settings have the property, and the pending option keeps it. -/
structure State.Has (P : σ → Prop) (st : State σ) : Prop where
  settings : P st.settings
  pending : ∀ p ∈ st.pending, KeepsValue P p.set

/-! ## Inversion of the steps -/

namespace State

variable {st st' : State σ}

theorem note_eq_ok {key : String} (h : st.note key = .ok st') :
    st' = { st with seen := key :: st.seen } := by
  unfold note at h
  split at h
  · contradiction
  · exact (Except.ok.inj h).symm

theorem Has.note {key : String} (hst : st.Has P) (h : st.note key = .ok st') : st'.Has P := by
  rw [note_eq_ok h]
  exact ⟨hst.settings, hst.pending⟩

theorem Has.assign {key text : String} {set : String → Except Refusal (σ → σ)} (hst : st.Has P)
    (hset : KeepsValue P set) (h : st.assign key set text = .ok st') : st'.Has P := by
  obtain ⟨noted, hnote, h⟩ := bind_eq_ok_iff.1 h
  have hnoted := hst.note hnote
  cases htext : set text with
  | error refusal =>
    rw [htext] at h
    contradiction
  | ok update =>
    rw [htext] at h
    rw [← Except.ok.inj h]
    exact ⟨hset text update htext _ hnoted.settings, hnoted.pending⟩

theorem Has.settle (hst : st.Has P) (h : st.settle = .ok st') : st'.Has P := by
  unfold State.settle at h
  split at h
  · rwa [← Except.ok.inj h]
  · next p hp =>
    split at h
    · contradiction
    · have hclear : State.Has P { st with pending := none } := ⟨hst.settings, by simp⟩
      exact hclear.assign (hst.pending p hp) h

/-! ## Taking options -/

theorem Has.take {entry : Entry σ} {attached : Option String} (hst : st.Has P)
    (he : entry.Keeps P) (h : st.take entry attached = .ok st') : st'.Has P := by
  unfold Entry.Keeps at he
  unfold State.take at h
  cases haction : entry.action with
  | help =>
    rw [haction] at h
    cases attached with
    | some text => contradiction
    | none =>
      -- help is no success, whatever was settled before
      obtain ⟨_, _, h⟩ := bind_eq_ok_iff.1 h
      contradiction
  | flag set =>
    rw [haction] at h he
    cases attached with
    | some text => contradiction
    | none =>
      obtain ⟨settled, hsettle, h⟩ := bind_eq_ok_iff.1 h
      obtain ⟨noted, hnote, h⟩ := bind_eq_ok_iff.1 h
      have hnoted := (hst.settle hsettle).note hnote
      rw [← Except.ok.inj h]
      exact ⟨he _ hnoted.settings, hnoted.pending⟩
  | value allowsNegative set =>
    rw [haction] at h he
    cases attached with
    | some text =>
      obtain ⟨settled, hsettle, h⟩ := bind_eq_ok_iff.1 h
      exact (hst.settle hsettle).assign he h
    | none =>
      -- the value may follow, so the option is the pending one from here on
      obtain ⟨settled, hsettle, h⟩ := bind_eq_ok_iff.1 h
      rw [← Except.ok.inj h]
      refine ⟨(hst.settle hsettle).settings, fun p hp => ?_⟩
      obtain rfl := Option.mem_some_iff.1 hp
      exact he

variable {table : List (Entry σ)}

theorem Has.takeLong (hst : st.Has P) (ht : ∀ entry ∈ table, entry.Keeps P) {cs : List Char}
    (h : st.takeLong table cs = .ok st') : st'.Has P := by
  unfold State.takeLong at h
  dsimp only at h
  split at h
  · next entry hfind => exact hst.take (ht entry (List.mem_of_find?_eq_some hfind)) h
  · contradiction

theorem Has.takeLetters (hst : st.Has P) (ht : ∀ entry ∈ table, entry.Keeps P) {cs : List Char}
    (h : st.takeLetters table cs = .ok st') : st'.Has P := by
  -- every letter but the last is a flag, and each letter starts from what the one before left
  induction cs generalizing st with
  | nil =>
    unfold State.takeLetters at h
    rwa [← Except.ok.inj h]
  | cons c rest ih =>
    unfold State.takeLetters at h
    split at h
    · contradiction
    · next entry hfind =>
      have hentry := ht entry (List.mem_of_find?_eq_some hfind)
      split at h
      · exact hst.take hentry h
      · obtain ⟨taken, htake, h⟩ := bind_eq_ok_iff.1 h
        exact ih (hst.take hentry htake) h

theorem Has.takePlain (hst : st.Has P) {token : String} (h : st.takePlain token = .ok st') :
    st'.Has P := by
  unfold State.takePlain at h
  split at h
  · next p hp =>
    have hpending : st.pending = some p := (Option.filter_eq_some_iff.1 hp).1
    rw [← Except.ok.inj h]
    refine ⟨hst.settings, fun q hq => ?_⟩
    obtain rfl := Option.mem_some_iff.1 hq
    exact hst.pending p hpending
  · contradiction

/-! ## Runs -/

/-- Whatever token is taken, the settings keep the property. -/
theorem Has.step (hst : st.Has P) (ht : ∀ entry ∈ table, entry.Keeps P) {token : String}
    (h : st.step table token = .ok st') : st'.Has P := by
  unfold State.step at h
  split at h
  · exact hst.takeLong ht h
  · split at h
    · exact hst.takePlain h
    · exact hst.takeLetters ht h
  · exact hst.takePlain h

theorem Has.run (hst : st.Has P) (ht : ∀ entry ∈ table, entry.Keeps P) {tokens : List String}
    (h : st.run table tokens = .ok st') : st'.Has P := by
  -- on the tokens, from any state with the property
  induction tokens generalizing st with
  | nil => exact hst.settle h
  | cons token rest ih =>
    unfold State.run at h
    split at h
    · -- behind the mark that ends the options nothing may follow
      cases rest with
      | nil => exact hst.settle h
      | cons extra more => contradiction
    · obtain ⟨taken, hstep, h⟩ := bind_eq_ok_iff.1 h
      exact ih (hst.step ht hstep) h

end State

/-- A property of the defaults that all options keep is one of the settings that the tokens
    give. -/
theorem parse_keeps {table : List (Entry σ)} {defaults s : σ} {tokens : List String}
    (ht : ∀ entry ∈ table, entry.Keeps P) (hd : P defaults)
    (h : parse table defaults tokens = .ok s) : P s := by
  obtain ⟨st, hrun, h⟩ := bind_eq_ok_iff.1 h
  have hstart : State.Has P { settings := defaults : State σ } := ⟨hd, by simp⟩
  have htable : ∀ entry ∈ table ++ [helpEntry], entry.Keeps P := by
    intro entry he
    rcases List.mem_append.1 he with he | he
    · exact ht entry he
    · rw [List.eq_of_mem_singleton he]
      trivial
  rw [← Except.ok.inj h]
  exact (hstart.run htable hrun).settings

end VariablePrecision.CommandLine
