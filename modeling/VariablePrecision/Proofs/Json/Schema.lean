/-
  VariablePrecision.Proofs.Json.Schema

  Which values the readers of known structures decode.

  `Decodes r v a` says that the reader `r` takes every spelling of the value `v` to `a`
  and stops where the value ends.  There is one lemma for each reader, down to those of
  the parts: scalars, lists, variants, and objects, whose members take a draft from its
  empty state to one that is finished.
-/

import Mathlib.Data.List.Forall2
import VariablePrecision.Json.Schema
import VariablePrecision.Proofs.Json.Number
import VariablePrecision.Proofs.Json.Text

namespace VariablePrecision.Json

open Reader

variable {α β σ : Type}

/-- The reader reads the spelling `cs` as `a`, behind any blanks and before any end. -/
def Reads (r : Reader α) (cs : List Char) (a : α) : Prop :=
  ∀ ws rest, Blanks ws → Ends rest → r.Gives (ws ++ (cs ++ rest)) a rest

/-- The reader reads the value as `a`, however it is spelled. -/
def Decodes (r : Reader α) (v : Value) (a : α) : Prop :=
  ∀ cs, Spelled v cs → Reads r cs a

theorem Decodes.map {r : Reader α} {v : Value} {a : α} (f : α → β) (h : Decodes r v a) :
    Decodes (f <$> r) v (f a) :=
  fun cs hcs ws rest hws hr => (h cs hcs ws rest hws hr).map f

theorem Decodes.gives {r : Reader α} {v : Value} {a : α} (h : Decodes r v a) {cs rest : List Char}
    (hcs : Spelled v cs) (hr : Ends rest) : r.Gives (cs ++ rest) a rest :=
  h cs hcs [] rest blanks_nil hr

/-! ## Scalars -/

theorem gives_toWord (n : UInt32) (rest : List Char) :
    (toWord (.integer n.toNat)).Gives rest n rest := by
  have hn : n.toNat < UInt32.size := n.toNat_lt
  unfold toWord
  simp only []
  rw [if_pos ⟨by omega, by omega⟩, Int.toNat_natCast, UInt32.ofNat_toNat]
  exact gives_pure n rest

theorem decodes_word (n : UInt32) : Decodes word (.natural n.toNat) n := by
  intro cs hcs ws rest hws hr
  cases hcs with
  | number _ =>
    have hn : n.toNat < UInt64.size := Nat.lt_trans n.toNat_lt (by decide)
    have hdigits := digits_digitChars n.toNat
    have hread : (lift (readNumber false)).Gives (Decimal.digitChars n.toNat ++ rest)
        (.integer n.toNat) rest := gives_lift (readNumber_digitChars hn hr)
    obtain ⟨c, ds, hcs⟩ := List.exists_cons_of_ne_nil hdigits.1
    have hc : c.isDigit := hdigits.2 c (hcs ▸ List.mem_cons_self)
    have hminus : c ≠ '-' := by
      rintro rfl
      exact absurd hc (by decide)
    rw [hcs] at hread ⊢
    refine (gives_token hws (isBlank_eq_false_of_isDigit hc)).bind ?_
    show (if c = '-' then _ else if c.isDigit then _ else _ : Reader UInt32).Gives _ _ _
    rw [if_neg hminus, if_pos hc]
    exact hread.bind (gives_toWord n rest)

theorem decodes_string (s : String) : Decodes string (.text s) s := by
  intro cs hcs ws rest hws _
  cases hcs with
  | text ht =>
    have htext := gives_text ht rest
    obtain ⟨body, rfl⟩ := ht.head
    exact (gives_token hws (by decide)).bind htext

theorem decodes_optionalString_some (s : String) :
    Decodes optionalString (.text s) (some s) := by
  intro cs hcs ws rest hws hr
  have hstring := (decodes_string s).gives hcs hr
  cases hcs with
  | text ht =>
    obtain ⟨body, rfl⟩ := ht.head
    exact (gives_token hws (by decide)).bind (hstring.bind (gives_pure (some s) rest))

theorem decodes_optionalString_none : Decodes optionalString .null none := by
  intro cs hcs ws rest hws _
  cases hcs with
  | null =>
    exact (gives_token hws (by decide)).bind ((gives_advance 'n' _).bind
      ((gives_literal ['u', 'l', 'l'] rest).bind (gives_pure none rest)))

/-! ## Lists -/

theorem ItemsSpelled.length_pos {first : Bool} {vs : List Value} {body : List Char}
    (h : ItemsSpelled first vs body) : 0 < body.length := by
  cases h with
  | nil _ => simp
  | cons _ hv _ =>
    obtain ⟨c, cs, rfl, -⟩ := hv.head
    simp only [List.length_append, List.length_cons]
    omega

/-- As many rounds as characters are enough for all items. -/
theorem gives_elementsUpTo {element : Reader α} {vs : List Value} {as : List α}
    (h : List.Forall₂ (Decodes element) vs as) :
    ∀ {first : Bool} {body rounds : List Char} (rest : List Char), ItemsSpelled first vs body →
      body.length ≤ rounds.length →
      (elementsUpTo element rounds first).Gives (body ++ rest) as (']' :: rest) := by
  -- the characters and the rounds shrink with the items, so both are general
  induction h with
  | nil =>
    intro first body rounds rest hbody hlen
    obtain ⟨r, rounds, rfl⟩ := List.exists_cons_of_length_pos
      (Nat.lt_of_lt_of_le hbody.length_pos hlen)
    cases hbody with
    | @nil _ ws hws =>
      rw [List.append_assoc]
      exact (gives_nextElement_of_end hws first rest).bind (gives_pure [] _)
  | @cons v a vs as hv _ ih =>
    intro first body rounds rest hbody hlen
    obtain ⟨r, rounds, rfl⟩ := List.exists_cons_of_length_pos
      (Nat.lt_of_lt_of_le hbody.length_pos hlen)
    cases hbody with
    | @cons _ _ _ gap cs body hg hcs hs =>
      have hitem := hv.gives hcs (hs.ends rest)
      obtain ⟨c, cs, rfl, hblank, hne⟩ := hcs.head
      have hrounds : body.length ≤ rounds.length := by
        simp only [List.length_append, List.length_cons] at hlen
        omega
      rw [List.append_assoc, List.append_assoc]
      refine (gives_nextElement hg hblank hne).bind ?_
      exact hitem.bind ((ih rest hs hrounds).bind (gives_pure (a :: as) _))

/-- A list is decoded item by item. -/
theorem decodes_list {element : Reader α} {vs : List Value} {as : List α}
    (h : List.Forall₂ (Decodes element) vs as) : Decodes (list element) (.list vs) as := by
  intro cs hcs ws rest hws _
  cases hcs with
  | @list _ body hbody =>
    have helements : (elements element).Gives (body ++ rest) as (']' :: rest) :=
      (gives_get _).bind (gives_elementsUpTo h rest hbody (by simp))
    exact (gives_token hws (by decide)).bind ((gives_advance '[' _).bind
      (helements.bind ((gives_endList rest).bind (gives_pure as rest))))

/-! ## Variants -/

theorem gives_variantNamed {known : List (String × β)} {name : String} {b : β}
    (h : known.lookup name = some b) (rest : List Char) :
    (variantNamed known name).Gives rest b rest := by
  unfold variantNamed
  rw [h]
  exact gives_pure b rest

/-- A bare name stands for a variant without content. -/
theorem decodes_enumeration {known : List (String × β)} {name : String} {b : β}
    (h : known.lookup name = some b) : Decodes (enumeration known) (.text name) b := by
  intro cs hcs ws rest hws _
  cases hcs with
  | text ht =>
    have htext := gives_text ht rest
    obtain ⟨body, rfl⟩ := ht.head
    exact (gives_token hws (by decide)).bind
      (htext.bind ((gives_variantNamed h rest).bind (gives_pure b rest)))

/-- An object with one member stands for a variant with content. -/
theorem decodes_variant {known : List (String × β)} {bare content : β → Reader α}
    {name : String} {b : β} {v : Value} {a : α} (h : known.lookup name = some b)
    (hv : Decodes (content b) v a) :
    Decodes (variant known bare content) (.object [(name, v)]) a := by
  intro cs hcs ws rest hws _
  cases hcs with
  | object hbody =>
    cases hbody with
    | cons hg hk hw hw' hcs hs =>
      cases hg with
      | first hgap =>
        cases hs with
        | @nil _ ws'' hend =>
          have hclose : Ends (ws'' ++ ['}'] ++ rest) := by
            rw [List.append_assoc]
            exact .blanks_append hend (.closing (by simp))
          have hcontent := hv _ hcs _ _ hw' hclose
          have htext := gives_text hk
          obtain ⟨body, rfl⟩ := hk.head
          simp only [List.append_assoc, List.cons_append, List.nil_append] at hcontent htext ⊢
          refine (gives_token hws (by decide)).bind ((gives_advance '{' _).bind ?_)
          refine (gives_token hgap (by decide)).bind ((htext _).bind ?_)
          refine (gives_variantNamed h _).bind ((gives_colon hw _).bind (hcontent.bind ?_))
          exact (gives_token hend (by decide)).bind
            ((gives_advance '}' rest).bind (gives_pure a rest))

/-! ## Objects -/

namespace Schema

/-- The member takes one draft to another, however it is spelled. -/
def Takes (s : Schema σ α) (key : String) (v : Value) (d d' : σ) : Prop :=
  ∀ {k ws ws' cs rest : List Char}, TextSpelled key k → Blanks ws → Blanks ws' → Spelled v cs →
    Ends rest → (s.readMember d).Gives (k ++ (ws ++ ':' :: (ws' ++ (cs ++ rest)))) d' rest

/-- The members take one draft to another, in their order. -/
inductive Gathers (s : Schema σ α) : List (String × Value) → σ → σ → Prop
  | nil {d : σ} : Gathers s [] d d
  | cons {key : String} {v : Value} {ms : List (String × Value)} {d d' d'' : σ}
      (h : s.Takes key v d d') (hs : Gathers s ms d' d'') : Gathers s ((key, v) :: ms) d d''

variable {s : Schema σ α}

theorem Gathers.append {ms ms' : List (String × Value)} {d d' d'' : σ}
    (h : s.Gathers ms d d') (h' : s.Gathers ms' d' d'') : s.Gathers (ms ++ ms') d d'' := by
  induction h with
  | nil => exact h'
  | cons hm _ ih => exact .cons hm (ih h')

/-- A member of a field that is not set yet sets it. -/
theorem takes_field {f : Field σ} {key : String} {v : Value} {d d' : σ}
    (hf : s.fields.find? (·.name == key) = some f) (hset : f.isSet d = false)
    (hv : Decodes (f.read d) v d') : s.Takes key v d d' := by
  intro k ws ws' cs rest hk hws hws' hcs hr
  unfold readMember
  refine (gives_text hk _).bind ?_
  rw [hf]
  show (if f.isSet d = true then _ else _ : Reader σ).Gives _ _ _
  rw [if_neg (by simp [hset])]
  exact (gives_colon hws _).bind (hv cs hcs ws' rest hws' hr)

theorem decodes_field {γ : Type} {name : String} {required : Bool} {get : σ → Option γ}
    {set : σ → γ → σ} {value : Reader γ} {v : Value} {c : γ} (h : Decodes value v c) (d : σ) :
    Decodes ((Field.of name required get set value).read d) v (set d c) :=
  fun cs hcs ws rest hws hr => (h cs hcs ws rest hws hr).bind (gives_pure (set d c) rest)

theorem length_pos_of_membersSpelled {first : Bool} {ms : List (String × Value)}
    {body : List Char} (h : MembersSpelled first ms body) : 0 < body.length := by
  cases h with
  | nil _ => simp
  | cons _ _ _ _ _ _ =>
    simp only [List.length_append, List.length_cons]
    omega

/-- As many rounds as characters are enough for all members. -/
theorem gives_readMembers {ms : List (String × Value)} {d d' : σ} (h : s.Gathers ms d d') :
    ∀ {first : Bool} {body rounds : List Char} (rest : List Char),
      MembersSpelled first ms body → body.length ≤ rounds.length →
      (s.readMembers rounds first d).Gives (body ++ rest) d' ('}' :: rest) := by
  induction h with
  | @nil d =>
    intro first body rounds rest hbody hlen
    obtain ⟨r, rounds, rfl⟩ := List.exists_cons_of_length_pos
      (Nat.lt_of_lt_of_le (length_pos_of_membersSpelled hbody) hlen)
    cases hbody with
    | nil hws =>
      rw [List.append_assoc]
      exact (gives_nextMember_of_end hws first rest).bind (gives_pure d _)
  | cons hm _ ih =>
    intro first body rounds rest hbody hlen
    obtain ⟨r, rounds, rfl⟩ := List.exists_cons_of_length_pos
      (Nat.lt_of_lt_of_le (length_pos_of_membersSpelled hbody) hlen)
    cases hbody with
    | @cons _ _ _ _ gap k ws ws' cs body hg hk hw hw' hv hs =>
      have hmember := hm hk hw hw' hv (hs.ends rest)
      have hrounds : body.length ≤ rounds.length := by
        simp only [List.length_append, List.length_cons] at hlen
        omega
      obtain ⟨k, rfl⟩ := hk.head
      simp only [List.append_assoc, List.cons_append] at hmember ⊢
      exact (gives_nextMember hg).bind (hmember.bind (ih rest hs hrounds))

/-- An object is decoded when its members gather a draft that can be finished. -/
theorem decodes_reader {ms : List (String × Value)} {d : σ} {a : α}
    (h : s.Gathers ms s.empty d) (hfinish : s.finish d = .ok a) :
    Decodes s.reader (.object ms) a := by
  intro cs hcs ws rest hws _
  cases hcs with
  | @object _ body hbody =>
    have hfinished : (s.finished d).Gives ('}' :: rest) a ('}' :: rest) := by
      unfold finished
      rw [hfinish]
      exact gives_pure a _
    refine (gives_token hws (by decide)).bind ((gives_advance '{' _).bind ?_)
    refine (gives_get _).bind (Gives.bind ?_ (hfinished.bind
      ((gives_endObject rest).bind (gives_pure a rest))))
    exact gives_readMembers h rest hbody (by simp)

end Schema

end VariablePrecision.Json
