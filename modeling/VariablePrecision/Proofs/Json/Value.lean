/-
  VariablePrecision.Proofs.Json.Value

  JSON values and their spellings.

  A `Value` is what a text says once blanks and escapes are forgotten; its numbers stay
  as they are written.  `Spelled v cs` relates a value to each of its texts: any blanks
  between tokens, and any of the spellings of each character between quotes.  Items and
  members are spelled one by one, each behind its `Gap`, so that the relation follows
  the loops of the reader.

  `WellFormed cs` is the grammar alone, for texts that are passed over and never
  interpreted.  It also has the texts that escape half of a surrogate pair, which stand
  for no character.
-/

import VariablePrecision.Decimal.Notation
import VariablePrecision.Json.Text

namespace VariablePrecision.Json

/-- A value of a JSON text. -/
inductive Value where
  | null
  | boolean (b : Bool)
  | number (token : List Char)
  | text (s : String)
  | list (items : List Value)
  | object (members : List (String × Value))
  /-- A value that is not interpreted, as it is written. -/
  | other (written : List Char)

/-- A natural number as a value. -/
def Value.natural (n : Nat) : Value := .number (Decimal.digitChars n)

/-! ## Texts -/

/-- The characters that a single letter may stand for behind a backslash. -/
def letterEscapes : List (Char × Char) :=
  [('"', '"'), ('\\', '\\'), ('/', '/'), ('b', '\x08'), ('f', '\x0c'), ('n', '\n'), ('r', '\r'),
    ('t', '\t')]

/-- Four hexadecimal digits of a code unit. -/
def HexSpelled (n : Nat) (ds : List Char) : Prop :=
  ∃ c₃ c₂ c₁ c₀ d₃ d₂ d₁ d₀, ds = [c₃, c₂, c₁, c₀] ∧
    hexDigit? c₃ = some d₃ ∧ hexDigit? c₂ = some d₂ ∧ hexDigit? c₁ = some d₁ ∧
    hexDigit? c₀ = some d₀ ∧ n = 0x1000 * d₃ + 0x100 * d₂ + 0x10 * d₁ + d₀

/-- A character between quotes: bare, by a letter, or by one or two code units. -/
inductive CharSpelled : Char → List Char → Prop
  | bare {c : Char} (hq : c ≠ '"') (hb : c ≠ '\\') (hc : isControl c = false) : CharSpelled c [c]
  | letter {e c : Char} (h : (e, c) ∈ letterEscapes) : CharSpelled c ['\\', e]
  | unit {c : Char} {ds : List Char} (h : HexSpelled c.toNat ds) : CharSpelled c ('\\' :: 'u' :: ds)
  | pair {c : Char} {ds ds' : List Char} (hc : 0x10000 ≤ c.toNat)
      (h : HexSpelled (0xD800 + (c.toNat - 0x10000) / 0x400) ds)
      (h' : HexSpelled (0xDC00 + (c.toNat - 0x10000) % 0x400) ds') :
      CharSpelled c ('\\' :: 'u' :: ds ++ '\\' :: 'u' :: ds')

/-- Characters between quotes. -/
inductive CharsSpelled : List Char → List Char → Prop
  | nil : CharsSpelled [] []
  | cons {c : Char} {cs text body : List Char} (h : CharSpelled c cs)
      (hs : CharsSpelled text body) : CharsSpelled (c :: text) (cs ++ body)

/-- A text with its quotes. -/
def TextSpelled (s : String) (cs : List Char) : Prop :=
  ∃ body, CharsSpelled s.toList body ∧ cs = '"' :: (body ++ ['"'])

/-! ## Numbers -/

/-- At least one digit. -/
def Digits (ds : List Char) : Prop := ds ≠ [] ∧ ∀ c ∈ ds, c.isDigit

/-- The digits before the point, which start with a zero only if it is the whole. -/
def WholePart (ds : List Char) : Prop := Digits ds ∧ (ds.head? = some '0' → ds = ['0'])

/-- What may follow the whole part. -/
def FractionPart (cs : List Char) : Prop := cs = [] ∨ ∃ ds, Digits ds ∧ cs = '.' :: ds

/-- What may follow the fraction. -/
def ExponentPart (cs : List Char) : Prop :=
  cs = [] ∨ ∃ mark sign ds, (mark = 'e' ∨ mark = 'E') ∧ sign ∈ [[], ['+'], ['-']] ∧ Digits ds ∧
    cs = mark :: (sign ++ ds)

/-- A number. -/
def NumberToken (cs : List Char) : Prop :=
  ∃ sign whole fraction exponent, sign ∈ [[], ['-']] ∧ WholePart whole ∧
    FractionPart fraction ∧ ExponentPart exponent ∧ cs = sign ++ whole ++ fraction ++ exponent

/-! ## Between tokens -/

/-- Any blanks. -/
def Blanks (ws : List Char) : Prop := ∀ c ∈ ws, isBlank c

/-- What stands before an item or a member: blanks, and a comma among them unless it is the
    first. -/
inductive Gap : Bool → List Char → Prop
  | first {ws : List Char} (h : Blanks ws) : Gap true ws
  | comma {ws ws' : List Char} (h : Blanks ws) (h' : Blanks ws') : Gap false (ws ++ ',' :: ws')

/-! ## Well-formed texts -/

/-- The literal of a truth value. -/
def booleanToken (b : Bool) : List Char :=
  if b then ['t', 'r', 'u', 'e'] else ['f', 'a', 'l', 's', 'e']

/-- A character between quotes or any code unit. -/
inductive QuotedUnit : List Char → Prop
  | bare {c : Char} (hq : c ≠ '"') (hb : c ≠ '\\') (hc : isControl c = false) : QuotedUnit [c]
  | letter {e c : Char} (h : (e, c) ∈ letterEscapes) : QuotedUnit ['\\', e]
  | unit {n : Nat} {ds : List Char} (h : HexSpelled n ds) : QuotedUnit ('\\' :: 'u' :: ds)

/-- What may stand between quotes, with the quote that closes it. -/
inductive QuotedRest : List Char → Prop
  | nil : QuotedRest ['"']
  | cons {cs body : List Char} (h : QuotedUnit cs) (hs : QuotedRest body) : QuotedRest (cs ++ body)

mutual

/-- The texts that are values. -/
inductive WellFormed : List Char → Prop
  | null : WellFormed ['n', 'u', 'l', 'l']
  | boolean {b : Bool} : WellFormed (booleanToken b)
  | number {cs : List Char} (h : NumberToken cs) : WellFormed cs
  | text {body : List Char} (h : QuotedRest body) : WellFormed ('"' :: body)
  | list {body : List Char} (h : ItemsFormed true body) : WellFormed ('[' :: body)
  | object {body : List Char} (h : MembersFormed true body) : WellFormed ('{' :: body)

/-- The items of a list that are left, with the bracket that closes it. -/
inductive ItemsFormed : Bool → List Char → Prop
  | nil {first : Bool} {ws : List Char} (h : Blanks ws) : ItemsFormed first (ws ++ [']'])
  | cons {first : Bool} {gap cs body : List Char} (hg : Gap first gap) (hv : WellFormed cs)
      (hs : ItemsFormed false body) : ItemsFormed first (gap ++ (cs ++ body))

/-- The members of an object that are left, with the bracket that closes it. -/
inductive MembersFormed : Bool → List Char → Prop
  | nil {first : Bool} {ws : List Char} (h : Blanks ws) : MembersFormed first (ws ++ ['}'])
  | cons {first : Bool} {gap k ws ws' cs body : List Char} (hg : Gap first gap)
      (hk : QuotedRest k) (hw : Blanks ws) (hw' : Blanks ws') (hv : WellFormed cs)
      (hs : MembersFormed false body) :
      MembersFormed first (gap ++ '"' :: (k ++ (ws ++ ':' :: (ws' ++ (cs ++ body)))))

end

/-! ## Values -/

mutual

/-- The spellings of a value, which start with its first token. -/
inductive Spelled : Value → List Char → Prop
  | null : Spelled .null ['n', 'u', 'l', 'l']
  | boolean {b : Bool} : Spelled (.boolean b) (booleanToken b)
  | number {cs : List Char} (h : NumberToken cs) : Spelled (.number cs) cs
  | text {s : String} {cs : List Char} (h : TextSpelled s cs) : Spelled (.text s) cs
  | list {items : List Value} {body : List Char} (h : ItemsSpelled true items body) :
      Spelled (.list items) ('[' :: body)
  | object {members : List (String × Value)} {body : List Char}
      (h : MembersSpelled true members body) : Spelled (.object members) ('{' :: body)
  | other {cs : List Char} (h : WellFormed cs) : Spelled (.other cs) cs

/-- The items of a list that are left, with the bracket that closes it. -/
inductive ItemsSpelled : Bool → List Value → List Char → Prop
  | nil {first : Bool} {ws : List Char} (h : Blanks ws) : ItemsSpelled first [] (ws ++ [']'])
  | cons {first : Bool} {v : Value} {vs : List Value} {gap cs body : List Char}
      (hg : Gap first gap) (hv : Spelled v cs) (hs : ItemsSpelled false vs body) :
      ItemsSpelled first (v :: vs) (gap ++ (cs ++ body))

/-- The members of an object that are left, with the bracket that closes it. -/
inductive MembersSpelled : Bool → List (String × Value) → List Char → Prop
  | nil {first : Bool} {ws : List Char} (h : Blanks ws) : MembersSpelled first [] (ws ++ ['}'])
  | cons {first : Bool} {key : String} {v : Value} {ms : List (String × Value)}
      {gap k ws ws' cs body : List Char} (hg : Gap first gap) (hk : TextSpelled key k)
      (hw : Blanks ws) (hw' : Blanks ws') (hv : Spelled v cs)
      (hs : MembersSpelled false ms body) :
      MembersSpelled first ((key, v) :: ms) (gap ++ (k ++ (ws ++ ':' :: (ws' ++ (cs ++ body)))))

end

/-! ## Where values start and end -/

/-- What may follow a value: nothing, a blank, a comma or a closing bracket. -/
def Ends (rest : List Char) : Prop :=
  ∀ c ∈ rest.head?, isBlank c ∨ c = ',' ∨ c = ']' ∨ c = '}'

theorem Ends.nil : Ends [] := by
  intro c hc
  cases hc

/-- Blanks may stand before whatever may follow a value. -/
theorem Ends.blanks_append {ws rest : List Char} (hws : Blanks ws) (h : Ends rest) :
    Ends (ws ++ rest) := by
  cases ws with
  | nil => exact h
  | cons w ws =>
    intro c hc
    obtain rfl : w = c := by simpa using hc
    exact .inl (hws w List.mem_cons_self)

theorem Ends.closing {rest : List Char} {c : Char} (h : c = ',' ∨ c = ']' ∨ c = '}') :
    Ends (c :: rest) := by
  intro d hd
  obtain rfl : c = d := by simpa using hd
  exact .inr h

/-- What stands before a further item or member ends the one before. -/
theorem Gap.ends {gap : List Char} (h : Gap false gap) (rest : List Char) : Ends (gap ++ rest) := by
  cases h with
  | comma hws _ =>
    rw [List.append_assoc]
    exact .blanks_append hws (.closing (by simp))

/-- What follows an item is another one or the end of the list. -/
theorem ItemsFormed.ends {body : List Char} (h : ItemsFormed false body) (rest : List Char) :
    Ends (body ++ rest) := by
  cases h with
  | nil hws =>
    rw [List.append_assoc]
    exact .blanks_append hws (.closing (by simp))
  | cons hg _ _ =>
    rw [List.append_assoc]
    exact hg.ends _

/-- What follows a member is another one or the end of the object. -/
theorem MembersFormed.ends {body : List Char} (h : MembersFormed false body) (rest : List Char) :
    Ends (body ++ rest) := by
  cases h with
  | nil hws =>
    rw [List.append_assoc]
    exact .blanks_append hws (.closing (by simp))
  | cons hg _ _ _ _ _ =>
    rw [List.append_assoc]
    exact hg.ends _

theorem NumberToken.head {cs : List Char} (h : NumberToken cs) :
    ∃ c rest, cs = c :: rest ∧ (c = '-' ∨ c.isDigit) := by
  obtain ⟨sign, whole, fraction, exponent, hsign, ⟨⟨hne, hdigits⟩, -⟩, -, -, rfl⟩ := h
  obtain ⟨d, ds, rfl⟩ := List.exists_cons_of_ne_nil hne
  have hd : d.isDigit := hdigits d List.mem_cons_self
  obtain rfl | rfl : sign = [] ∨ sign = ['-'] := by simpa using hsign
  · exact ⟨d, _, rfl, .inr hd⟩
  · exact ⟨'-', _, rfl, .inl rfl⟩

theorem isBlank_eq_false_of_isDigit {c : Char} (h : c.isDigit) : isBlank c = false := by
  refine Bool.eq_false_iff.2 fun hb => ?_
  simp only [isBlank, Bool.or_eq_true, decide_eq_true_eq] at hb
  rcases hb with ((rfl | rfl) | rfl) | rfl <;> exact absurd h (by decide)

/-- A value starts with a mark that neither is blank nor closes a list. -/
theorem WellFormed.head {cs : List Char} (h : WellFormed cs) :
    ∃ c rest, cs = c :: rest ∧ isBlank c = false ∧ c ≠ ']' := by
  cases h with
  | null => exact ⟨'n', _, rfl, by decide, by decide⟩
  | @boolean b =>
    cases b
    · exact ⟨'f', _, rfl, by decide, by decide⟩
    · exact ⟨'t', _, rfl, by decide, by decide⟩
  | number hn =>
    obtain ⟨c, rest, rfl, rfl | hd⟩ := hn.head
    · exact ⟨'-', rest, rfl, by decide, by decide⟩
    · refine ⟨c, rest, rfl, isBlank_eq_false_of_isDigit hd, ?_⟩
      rintro rfl
      exact absurd hd (by decide)
  | text _ => exact ⟨'"', _, rfl, by decide, by decide⟩
  | list _ => exact ⟨'[', _, rfl, by decide, by decide⟩
  | object _ => exact ⟨'{', _, rfl, by decide, by decide⟩

/-! ## Spellings are well formed -/

/-- A spelled character is one unit or two. -/
theorem CharSpelled.quotedRest {c : Char} {cs body : List Char} (h : CharSpelled c cs)
    (hbody : QuotedRest body) : QuotedRest (cs ++ body) := by
  cases h with
  | bare hq hb hc => exact .cons (.bare hq hb hc) hbody
  | letter h => exact .cons (.letter h) hbody
  | unit h => exact .cons (.unit h) hbody
  | pair _ h h' =>
    have hpair := QuotedRest.cons (.unit h) (.cons (.unit h') hbody)
    simpa using hpair

theorem CharsSpelled.quotedRest {text body : List Char} (h : CharsSpelled text body) :
    QuotedRest (body ++ ['"']) := by
  induction h with
  | nil => exact .nil
  | cons hc _ ih =>
    rw [List.append_assoc]
    exact hc.quotedRest ih

theorem TextSpelled.exists_quotedRest {s : String} {cs : List Char} (h : TextSpelled s cs) :
    ∃ body, cs = '"' :: body ∧ QuotedRest body := by
  obtain ⟨body, hbody, rfl⟩ := h
  exact ⟨_, rfl, hbody.quotedRest⟩

mutual

/-- Every spelling of a value is well formed. -/
theorem Spelled.wellFormed {v : Value} {cs : List Char} (h : Spelled v cs) : WellFormed cs := by
  cases h with
  | null => exact .null
  | boolean => exact .boolean
  | number h => exact .number h
  | text h =>
    obtain ⟨body, rfl, hbody⟩ := h.exists_quotedRest
    exact .text hbody
  | list h => exact .list h.formed
  | object h => exact .object h.formed
  | other h => exact h

theorem ItemsSpelled.formed {first : Bool} {vs : List Value} {body : List Char}
    (h : ItemsSpelled first vs body) : ItemsFormed first body := by
  cases h with
  | nil hws => exact .nil hws
  | cons hg hv hs => exact .cons hg hv.wellFormed hs.formed

theorem MembersSpelled.formed {first : Bool} {ms : List (String × Value)} {body : List Char}
    (h : MembersSpelled first ms body) : MembersFormed first body := by
  cases h with
  | nil hws => exact .nil hws
  | cons hg hk hw hw' hv hs =>
    obtain ⟨k, rfl, hkey⟩ := hk.exists_quotedRest
    exact .cons hg hkey hw hw' hv.wellFormed hs.formed

end

/-- What follows an item is another one or the end of the list. -/
theorem ItemsSpelled.ends {vs : List Value} {body : List Char} (h : ItemsSpelled false vs body)
    (rest : List Char) : Ends (body ++ rest) :=
  h.formed.ends rest

/-- What follows a member is another one or the end of the object. -/
theorem MembersSpelled.ends {ms : List (String × Value)} {body : List Char}
    (h : MembersSpelled false ms body) (rest : List Char) : Ends (body ++ rest) :=
  h.formed.ends rest

/-- A value starts with a mark that neither is blank nor closes a list. -/
theorem Spelled.head {v : Value} {cs : List Char} (h : Spelled v cs) :
    ∃ c rest, cs = c :: rest ∧ isBlank c = false ∧ c ≠ ']' :=
  h.wellFormed.head

end VariablePrecision.Json
