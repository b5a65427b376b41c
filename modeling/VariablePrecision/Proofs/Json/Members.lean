/-
  VariablePrecision.Proofs.Json.Members

  Objects whose members come in any order.

  A `Slot` is what an object may say about one field.  The members of an object fill the
  slots when each field is given once, or left out if it may be, whatever stands beside
  them under other names.  The draft that is gathered from such members only depends on
  which keys have been read, so their order is forgotten when it is finished.
-/

import VariablePrecision.Proofs.Json.Schema
import VariablePrecision.Proofs.Json.Skip

namespace VariablePrecision.Json

open Reader

variable {α γ σ : Type}

/-! ## Slots -/

/-- What the members of an object may say about one field. -/
structure Slot where
  name : String
  /-- The values by which the field is given. -/
  Renders : Value → Prop
  /-- The field may be left out. -/
  Omissible : Prop

/-- A field that is given by one value, and may be left out when it has its default. -/
def Slot.defaulted (name : String) (v : Value) (isDefault : Prop) : Slot := ⟨name, (· = v), isDefault⟩

/-- A field that is always given, by one value. -/
def Slot.required (name : String) (v : Value) : Slot := .defaulted name v False

/-- The value of an optional text. -/
def Value.optionalText : Option String → Value
  | none => .null
  | some s => .text s

/-- An optional text, which is `null` or left out when there is none. -/
def Slot.optionalText (name : String) (s : Option String) : Slot :=
  .defaulted name (.optionalText s) (s = none)

@[simp] theorem Slot.required_eq (name : String) (v : Value) :
    Slot.required name v = .defaulted name v False := rfl

@[simp] theorem Slot.optionalText_eq (name : String) (s : Option String) :
    Slot.optionalText name s = .defaulted name (.optionalText s) (s = none) := rfl

section

variable {name : String} {v w : Value} {p : Prop}

@[simp] theorem Slot.name_defaulted : (Slot.defaulted name v p).name = name := rfl

@[simp] theorem Slot.renders_defaulted : (Slot.defaulted name v p).Renders w ↔ w = v := .rfl

@[simp] theorem Slot.omissible_defaulted : (Slot.defaulted name v p).Omissible ↔ p := .rfl

end

/-- The members give each field once, or leave it out if they may.  Members of other names are
    free. -/
structure Fills (slots : List Slot) (ms : List (String × Value)) : Prop where
  once : ∀ slot ∈ slots, (ms.map Prod.fst).count slot.name ≤ 1
  renders : ∀ slot ∈ slots, ∀ v, (slot.name, v) ∈ ms → slot.Renders v
  complete : ∀ slot ∈ slots, slot.name ∈ ms.map Prod.fst ∨ slot.Omissible

/-- The value is an object of members that fill the slots. -/
def ObjectOf (slots : List Slot) (v : Value) : Prop := ∃ ms, v = .object ms ∧ Fills slots ms

/-- The value is a list whose items are related to the given elements, one by one. -/
def ListOf {β : Type} (R : β → Value → Prop) (bs : List β) (v : Value) : Prop :=
  ∃ vs, v = .list vs ∧ List.Forall₂ R bs vs

theorem decodes_optionalText (s : Option String) : Decodes optionalString (.optionalText s) s := by
  cases s with
  | none => exact decodes_optionalString_none
  | some s => exact decodes_optionalString_some s

theorem ListOf.decodes {β : Type} {R : β → Value → Prop} {element : Reader β} {bs : List β}
    {v : Value} (h : ListOf R bs v) (hR : ∀ b ∈ bs, ∀ v, R b v → Decodes element v b) :
    Decodes (list element) v bs := by
  obtain ⟨vs, rfl, hvs⟩ := h
  apply decodes_list
  induction hvs with
  | nil => exact .nil
  | @cons b v bs vs hb _ ih =>
    exact .cons (hR b List.mem_cons_self v hb) (ih fun b hb => hR b (List.mem_cons_of_mem _ hb))

/-! ## Components of a draft -/

/-- A component of a draft, which is there once its key has been read. -/
def given? (keys : List String) (name : String) (c : γ) : Option γ :=
  if name ∈ keys then some c else none

section

variable {keys : List String} {name key : String} {c : γ}

theorem given?_of_not_mem (h : name ∉ keys) : given? keys name c = none := if_neg h

@[simp]
theorem given?_append (h : key ≠ name) : given? (keys ++ [key]) name c = given? keys name c := by
  simp [given?, h.symm]

@[simp]
theorem given?_append_self : given? (keys ++ [name]) name c = some c := by
  simp [given?]

theorem require_given? (h : name ∈ keys ∨ False) : require name (given? keys name c) = .ok c := by
  rw [given?, if_pos (h.resolve_right id)]
  rfl

theorem getD_given? {d : γ} (h : name ∈ keys ∨ c = d) : (given? keys name c).getD d = c := by
  rcases h with h | rfl
  · rw [given?, if_pos h]
    rfl
  · unfold given?
    split <;> rfl

theorem join_given? {c : Option γ} (h : name ∈ keys ∨ c = none) :
    (given? keys name c).join = c := by
  rcases h with h | rfl
  · rw [given?, if_pos h]
    rfl
  · unfold given?
    split <;> rfl

end

namespace Schema

variable {s : Schema σ α} {slots : List Slot} {draft : List String → σ} {a : α}

/-- A member of an unknown name is passed over. -/
theorem takes_unknown {key : String} (h : s.fields.find? (·.name == key) = none) (v : Value)
    (d : σ) : s.Takes key v d d := by
  intro k ws ws' cs rest hk hws hws' hcs hr
  unfold readMember
  refine (gives_text hk _).bind ?_
  rw [h]
  exact (gives_colon hws _).bind ((gives_skipValue hcs.wellFormed hws' hr).bind (gives_pure d rest))

/-- A member of the slot's name takes the draft of any keys without it to the one with it. -/
def SetsSlot (s : Schema σ α) (draft : List String → σ) (slot : Slot) : Prop :=
  ∀ keys v, slot.name ∉ keys → slot.Renders v →
    s.Takes slot.name v (draft keys) (draft (keys ++ [slot.name]))

/-- The drafts of `a` behind members of the given keys. -/
structure Drafts (s : Schema σ α) (slots : List Slot) (draft : List String → σ) (a : α) :
    Prop where
  empty : draft [] = s.empty
  names : s.fields.map Field.name = slots.map Slot.name
  sets : ∀ slot ∈ slots, s.SetsSlot draft slot
  keeps : ∀ keys key, key ∉ slots.map Slot.name → draft (keys ++ [key]) = draft keys
  finishes : ∀ keys, (∀ slot ∈ slots, slot.name ∈ keys ∨ slot.Omissible) →
    s.finish (draft keys) = .ok a

/-- A field that has a component of the drafts sets its slot. -/
theorem setsSlot_of {required : Bool} {get : σ → Option γ} {set : σ → γ → σ} {value : Reader γ}
    {slot : Slot} {c : γ}
    (hf : s.fields.find? (·.name == slot.name) = some (.of slot.name required get set value))
    (hget : ∀ keys, get (draft keys) = given? keys slot.name c)
    (hset : ∀ keys, set (draft keys) c = draft (keys ++ [slot.name]))
    (hv : ∀ v, slot.Renders v → Decodes value v c) : s.SetsSlot draft slot := by
  intro keys v hnew hrenders
  have hfree : (Field.of slot.name required get set value).isSet (draft keys) = false := by
    show (get (draft keys)).isSome = false
    rw [hget, given?_of_not_mem hnew]
    rfl
  have hread : Decodes ((Field.of slot.name required get set value).read (draft keys)) v
      (set (draft keys) c) := decodes_field (hv v hrenders) (draft keys)
  rw [hset] at hread
  intro k ws ws' cs rest hk hws hws' hcs hr
  exact takes_field hf hfree hread hk hws hws' hcs hr

theorem setsSlot_defaulted {required : Bool} {get : σ → Option γ} {set : σ → γ → σ}
    {value : Reader γ} {name : String} {v : Value} {p : Prop} {c : γ}
    (hf : s.fields.find? (·.name == name) = some (.of name required get set value))
    (hget : ∀ keys, get (draft keys) = given? keys name c)
    (hset : ∀ keys, set (draft keys) c = draft (keys ++ [name])) (hv : Decodes value v c) :
    s.SetsSlot draft (.defaulted name v p) := by
  refine setsSlot_of hf hget hset fun w hw => ?_
  rwa [Slot.renders_defaulted.1 hw]

/-- A name that is no slot's is no field's. -/
theorem Drafts.find?_eq_none (h : Drafts s slots draft a) {key : String}
    (hkey : key ∉ slots.map Slot.name) : s.fields.find? (·.name == key) = none := by
  rw [← h.names] at hkey
  refine List.find?_eq_none.2 fun f hf hname => hkey ?_
  rw [← eq_of_beq hname]
  exact List.mem_map_of_mem hf

/-- Members in any order lead to the draft of their keys. -/
theorem Drafts.gathers (h : Drafts s slots draft a) {ms : List (String × Value)} :
    ∀ keys, (∀ slot ∈ slots, (keys ++ ms.map Prod.fst).count slot.name ≤ 1) →
      (∀ slot ∈ slots, ∀ v, (slot.name, v) ∈ ms → slot.Renders v) →
      s.Gathers ms (draft keys) (draft (keys ++ ms.map Prod.fst)) := by
  -- the keys that are read already grow with each member
  induction ms with
  | nil =>
    intro keys _ _
    rw [List.map_nil, List.append_nil]
    exact .nil
  | cons m ms ih =>
    intro keys honce hrenders
    obtain ⟨key, v⟩ := m
    have hkeys : keys ++ ((key, v) :: ms).map Prod.fst = keys ++ [key] ++ ms.map Prod.fst := by
      simp
    rw [hkeys] at honce ⊢
    have hrest := ih (keys ++ [key]) honce fun slot hslot v hv =>
      hrenders slot hslot v (List.mem_cons_of_mem _ hv)
    refine .cons ?_ hrest
    by_cases hkey : key ∈ slots.map Slot.name
    · -- a field that was given before would be counted twice
      obtain ⟨slot, hslot, rfl⟩ := List.mem_map.1 hkey
      have hnew : slot.name ∉ keys := by
        intro hmem
        have hcount := honce slot hslot
        have hpos := List.count_pos_iff.2 hmem
        simp only [List.count_append, List.count_singleton_self] at hcount
        omega
      exact h.sets slot hslot keys v hnew (hrenders slot hslot v List.mem_cons_self)
    · -- the draft stays, and so does every component of it
      rw [h.keeps keys key hkey]
      exact takes_unknown (h.find?_eq_none hkey) v (draft keys)

/-- An object whose members fill the slots is decoded, whatever their order. -/
theorem Drafts.decodes (h : Drafts s slots draft a) {v : Value} (hv : ObjectOf slots v) :
    Decodes s.reader v a := by
  obtain ⟨ms, rfl, hms⟩ := hv
  have hgathers := h.gathers [] hms.once hms.renders
  rw [h.empty] at hgathers
  exact decodes_reader hgathers (h.finishes _ hms.complete)

end Schema

end VariablePrecision.Json
