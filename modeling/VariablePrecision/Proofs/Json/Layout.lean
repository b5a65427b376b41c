/-
  VariablePrecision.Proofs.Json.Layout

  Documents are laid out as spellings of values, and so they are read back.

  `d.Denotes v` says that the characters of the document `d` spell `v` at every level,
  and `d.Recovers r a` that the reader `r` gets `a` from them.  The members of an object
  restore a draft part by part, so a record is read back when its parts are.
-/

import VariablePrecision.Json.Document
import VariablePrecision.Proofs.Json.Bytes
import VariablePrecision.Proofs.Json.Schema

namespace VariablePrecision.Json

open Reader (blanks_nil)

variable {α σ : Type}

namespace Document

/-- At every level the document is laid out as a spelling of the value. -/
def Denotes (d : Document) (v : Value) : Prop := ∀ level, Spelled v (d.chars level)

/-- The member of an object is laid out as a spelling of the other. -/
def MemberDenotes (m : String × Document) (m' : String × Value) : Prop :=
  m.1 = m'.1 ∧ m.2.Denotes m'.2

theorem blanks_newline (level : Nat) : Blanks (newline level) := by
  intro c hc
  rcases List.mem_cons.1 hc with rfl | hc
  · decide
  · rw [List.eq_of_mem_replicate hc]
    decide

theorem blanks_space : Blanks [' '] := by
  intro c hc
  rw [List.eq_of_mem_singleton hc]
  decide

theorem denotes_natural (n : Nat) : (natural n).Denotes (.natural n) :=
  fun _ => .number (numberToken_digitChars n)

theorem denotes_text (s : String) : (text s).Denotes (.text s) :=
  fun _ => .text (textSpelled_writtenText s)

/-! ## Lists and objects -/

theorem itemsSpelled_restItems {ds : List Document} {vs : List Value}
    (h : List.Forall₂ Denotes ds vs) (level outer : Nat) :
    ItemsSpelled false vs (restItems level ds ++ (newline outer ++ [']'])) := by
  induction h with
  | nil => exact .nil (blanks_newline outer)
  | @cons d v ds vs hd _ ih =>
    have hitem := ItemsSpelled.cons (.comma blanks_nil (blanks_newline level)) (hd level) ih
    simpa only [restItems, List.append_assoc, List.cons_append, List.nil_append] using hitem

theorem denotes_list {ds : List Document} {vs : List Value} (h : List.Forall₂ Denotes ds vs) :
    (list ds).Denotes (.list vs) := by
  intro level
  cases h with
  | nil => exact .list (.nil blanks_nil)
  | @cons d v ds vs hd hs =>
    have hitem := ItemsSpelled.cons (.first (blanks_newline (level + 1))) (hd (level + 1))
      (itemsSpelled_restItems hs (level + 1) level)
    rw [chars]
    simpa only [List.append_assoc, List.cons_append, List.nil_append] using Spelled.list hitem

theorem membersSpelled_restMembers {ms : List (String × Document)} {vs : List (String × Value)}
    (h : List.Forall₂ MemberDenotes ms vs) (level outer : Nat) :
    MembersSpelled false vs (restMembers level ms ++ (newline outer ++ ['}'])) := by
  induction h with
  | nil => exact .nil (blanks_newline outer)
  | @cons m v ms vs hm _ ih =>
    obtain ⟨key, d⟩ := m
    obtain ⟨key, v⟩ := v
    obtain ⟨rfl, hd⟩ := hm
    have hmember := MembersSpelled.cons (.comma blanks_nil (blanks_newline level))
      (textSpelled_writtenText key) blanks_nil blanks_space (hd level) ih
    simpa only [restMembers, List.append_assoc, List.cons_append, List.nil_append] using hmember

theorem denotes_object {ms : List (String × Document)} {vs : List (String × Value)}
    (h : List.Forall₂ MemberDenotes ms vs) : (object ms).Denotes (.object vs) := by
  intro level
  cases h with
  | nil => exact .object (.nil blanks_nil)
  | @cons m v ms vs hm hs =>
    obtain ⟨key, d⟩ := m
    obtain ⟨key, v⟩ := v
    obtain ⟨rfl, hd⟩ := hm
    have hmember := MembersSpelled.cons (.first (blanks_newline (level + 1)))
      (textSpelled_writtenText key) blanks_nil blanks_space (hd (level + 1))
      (membersSpelled_restMembers hs (level + 1) level)
    rw [chars]
    simpa only [List.append_assoc, List.cons_append, List.nil_append] using Spelled.object hmember

/-! ## Reading back -/

/-- The reader gets `a` from what is written for the document. -/
def Recovers (d : Document) (r : Reader α) (a : α) : Prop := ∃ v, d.Denotes v ∧ Decodes r v a

theorem recovers_text (s : String) : (text s).Recovers Reader.string s :=
  ⟨_, denotes_text s, decodes_string s⟩

theorem recovers_optionalText (s : String) : (text s).Recovers Reader.optionalString (some s) :=
  ⟨_, denotes_text s, decodes_optionalString_some s⟩

theorem recovers_word (n : UInt32) : (natural n.toNat).Recovers Reader.word n :=
  ⟨_, denotes_natural n.toNat, decodes_word n⟩

theorem recovers_enumeration {β : Type} {known : List (String × β)} {name : String} {b : β}
    (h : known.lookup name = some b) : (text name).Recovers (Reader.enumeration known) b :=
  ⟨_, denotes_text name, decodes_enumeration h⟩

theorem recovers_variant {β : Type} {known : List (String × β)} {bare content : β → Reader α}
    {name : String} {b : β} {d : Document} {a : α} (h : known.lookup name = some b)
    (hd : d.Recovers (content b) a) :
    (object [(name, d)]).Recovers (Reader.variant known bare content) a := by
  obtain ⟨v, hdenotes, hdecodes⟩ := hd
  exact ⟨_, denotes_object (.cons ⟨rfl, hdenotes⟩ .nil), decodes_variant h hdecodes⟩

theorem recovers_list {β : Type} {element : Reader α} {document : β → Document} {f : β → α}
    {bs : List β} (h : ∀ b ∈ bs, (document b).Recovers element (f b)) :
    (list (bs.map document)).Recovers (Reader.list element) (bs.map f) := by
  -- the values of the items have to be gathered before either half can be used
  suffices ∃ vs, List.Forall₂ Denotes (bs.map document) vs ∧
      List.Forall₂ (Decodes element) vs (bs.map f) by
    obtain ⟨vs, hdenotes, hdecodes⟩ := this
    exact ⟨_, denotes_list hdenotes, decodes_list hdecodes⟩
  induction bs with
  | nil => exact ⟨[], .nil, .nil⟩
  | cons b bs ih =>
    obtain ⟨v, hv, hv'⟩ := h b List.mem_cons_self
    obtain ⟨vs, hvs, hvs'⟩ := ih fun b hb => h b (List.mem_cons_of_mem _ hb)
    exact ⟨v :: vs, .cons hv hvs, .cons hv' hvs'⟩

end Document

/-! ## Records -/

namespace Schema

variable {s : Schema σ α}

/-- What is written for the members takes one draft to another. -/
def Restores (s : Schema σ α) (ms : List (String × Document)) (d d' : σ) : Prop :=
  ∃ vs, List.Forall₂ Document.MemberDenotes ms vs ∧ s.Gathers vs d d'

theorem restores_nil (d : σ) : s.Restores [] d d := ⟨[], .nil, .nil⟩

theorem Restores.append {ms ms' : List (String × Document)} {d d' d'' : σ}
    (h : s.Restores ms d d') (h' : s.Restores ms' d' d'') : s.Restores (ms ++ ms') d d'' := by
  obtain ⟨vs, hdenotes, hgathers⟩ := h
  obtain ⟨vs', hdenotes', hgathers'⟩ := h'
  exact ⟨vs ++ vs', List.rel_append hdenotes hdenotes', hgathers.append hgathers'⟩

/-- A member restores its field. -/
theorem restores_cons {γ : Type} {key : String} {required : Bool} {get : σ → Option γ}
    {set : σ → γ → σ} {value : Reader γ} {doc : Document} {c : γ}
    {ms : List (String × Document)} {d d' : σ}
    (hf : s.fields.find? (·.name == key) = some (.of key required get set value))
    (hget : get d = none) (hdoc : doc.Recovers value c) (hs : s.Restores ms (set d c) d') :
    s.Restores ((key, doc) :: ms) d d' := by
  obtain ⟨v, hdenotes, hdecodes⟩ := hdoc
  obtain ⟨vs, hdenotes', hgathers⟩ := hs
  have hset : (Field.of key required get set value).isSet d = false := by
    show (get d).isSome = false
    rw [hget]
    rfl
  exact ⟨(key, v) :: vs, .cons ⟨rfl, hdenotes⟩ hdenotes',
    .cons (takes_field hf hset (decodes_field hdecodes d)) hgathers⟩

/-- A record is read back when its members restore a draft of it. -/
theorem recovers_object {ms : List (String × Document)} {d : σ} {a : α}
    (h : s.Restores ms s.empty d) (hfinish : s.finish d = .ok a) :
    (Document.object ms).Recovers s.reader a := by
  obtain ⟨vs, hdenotes, hgathers⟩ := h
  exact ⟨_, Document.denotes_object hdenotes, decodes_reader hgathers hfinish⟩

end Schema

/-- A document that fills a whole text is read back from it. -/
theorem Document.Recovers.run_render {d : Document} {r : Reader α} {a : α} (h : d.Recovers r a) :
    r.run d.render.toUTF8 = .ok a := by
  obtain ⟨v, hdenotes, hdecodes⟩ := h
  have hread := hdecodes _ (hdenotes 0) [] [] blanks_nil .nil
  rw [List.nil_append, List.append_nil] at hread
  have hchars : d.render.toList = [] ++ (d.chars 0 ++ []) := by
    rw [render, String.toList_ofList, List.nil_append, List.append_nil]
  have hgives : r.Gives (seenBytes d.render.toUTF8) a [] := by
    rw [seenBytes_of_spelled hchars (hdenotes 0) blanks_nil blanks_nil, render,
      String.toList_ofList]
    exact hread
  exact Reader.run_eq hgives blanks_nil

end VariablePrecision.Json
