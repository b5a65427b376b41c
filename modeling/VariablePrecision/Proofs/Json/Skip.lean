/-
  VariablePrecision.Proofs.Json.Skip

  Every well-formed value is passed over, and nothing behind it.

  Skipping keeps a stack of open brackets and runs on until it is empty, so a statement
  on one value has to say what happens behind it: `Resumes due opened n cs rest` says
  that skipping, standing in `cs` with the brackets `opened`, ends before `rest`, in at
  most `n` rounds.  The induction is on the grammar; a value in front of such a text
  makes another one, and so does a body of items or members with its bracket.
-/

import VariablePrecision.Json.Skip
import VariablePrecision.Proofs.Json.Number
import VariablePrecision.Proofs.Json.Text

namespace VariablePrecision.Json

open Reader

/-! ## Texts -/

theorem escapeLength_letter {e c : Char} (h : (e, c) ∈ letterEscapes) (rest : List Char) :
    escapeLength (e :: rest) = .ok 1 := by
  have hunit : ∀ digits, e :: rest = 'u' :: digits → False := by
    rintro digits heq
    rw [(List.cons.inj heq).1] at h
    simp [letterEscapes] at h
  rw [escapeLength, escapedChar_letter h]
  · rfl
  · exact hunit

theorem escapeLength_unit {n : Nat} {ds : List Char} (h : HexSpelled n ds) (rest : List Char) :
    escapeLength ('u' :: (ds ++ rest)) = .ok 5 := by
  show (fourHexDigits (ds ++ rest) >>= fun _ => pure 5) = _
  rw [fourHexDigits_append h]
  rfl

theorem skipText_escape {n : Nat} {cs : List Char} (h : escapeLength cs = .ok n) :
    skipText ('\\' :: cs) = skipText (cs.drop n) := by
  rw [skipText, if_neg (by decide), if_pos rfl, h]
  rfl

theorem skipText_append {cs : List Char} (h : QuotedUnit cs) (rest : List Char) :
    skipText (cs ++ rest) = skipText rest := by
  cases h with
  | bare hq hb hc =>
    rw [List.singleton_append, skipText, if_neg hq, if_neg hb,
      if_neg (ne_strayByte_of_isControl hc), if_neg (by simp [hc])]
  | letter he => exact skipText_escape (escapeLength_letter he rest)
  | @unit n ds hu =>
    -- the code unit may be half of a pair: its value is never looked at
    have hdrop : ('u' :: (ds ++ rest)).drop 5 = rest := by
      rw [List.drop_succ_cons, ← hu.length, List.drop_left]
    show skipText ('\\' :: 'u' :: (ds ++ rest)) = _
    rw [skipText_escape (escapeLength_unit hu rest), hdrop]

theorem skipText_rest {body : List Char} (h : QuotedRest body) (rest : List Char) :
    skipText (body ++ rest) = .ok rest := by
  induction h with
  | nil => rw [List.singleton_append, skipText, if_pos rfl]
  | cons hc _ ih => rw [List.append_assoc, skipText_append hc, ih]

/-! ## Numbers -/

theorem any_head_digits {ds : List Char} (h : Digits ds) (rest : List Char) :
    (ds ++ rest).head?.any Char.isDigit = true := by
  obtain ⟨d, ds, rfl⟩ := List.exists_cons_of_ne_nil h.1
  simpa using h.2 d List.mem_cons_self

theorem skipExponent_eq {sign ds rest : List Char} (hsign : sign ∈ [[], ['+'], ['-']])
    (hds : Digits ds) (hr : Ends rest) : skipExponent (sign ++ (ds ++ rest)) = .ok rest := by
  have hany := any_head_digits hds rest
  have hdrop := dropWhile_digits hds hr.head_not_digit
  have hmark : ∀ {c : Char} {cs : List Char}, c.isDigit = false → ds ++ rest = c :: cs → False := by
    intro c cs hc heq
    rw [heq] at hany
    simp [hc] at hany
  simp only [List.mem_cons, List.not_mem_nil, or_false] at hsign
  rcases hsign with rfl | rfl | rfl
  · rw [List.nil_append, skipExponent, if_pos hany, hdrop]
    · exact fun cs heq => hmark (by decide) heq
    · exact fun cs heq => hmark (by decide) heq
  · rw [List.singleton_append, skipExponent, if_pos hany, hdrop]
  · rw [List.singleton_append, skipExponent, if_pos hany, hdrop]

/-- What may follow the whole part of a number starts with no digit. -/
theorem head_not_digit_of_parts {fraction exponent rest : List Char} (hf : FractionPart fraction)
    (he : ExponentPart exponent) (hr : Ends rest) :
    ∀ c ∈ (fraction ++ (exponent ++ rest)).head?, c.isDigit = false := by
  rcases hf with rfl | ⟨ds, -, rfl⟩
  · rcases he with rfl | ⟨mark, sign, ds, hmark, -, -, rfl⟩
    · exact hr.head_not_digit
    · rcases hmark with rfl | rfl <;> simp
  · simp

theorem skipFraction_eq {fraction exponent rest : List Char} (hf : FractionPart fraction)
    (he : ExponentPart exponent) (hr : Ends rest) :
    skipFraction (fraction ++ (exponent ++ rest)) = .ok rest := by
  have hhead := head_not_digit_of_parts (.inl rfl) he hr
  rcases hf with rfl | ⟨ds, hds, rfl⟩
  · rcases he with rfl | ⟨mark, sign, ds, hmark, hsign, hds, rfl⟩
    · -- neither part is there, so the number has ended
      rw [List.nil_append, List.nil_append]
      cases rest with
      | nil => rfl
      | cons c rest =>
        obtain ⟨-, hpoint, he, hE⟩ := hr.head_ne
        rw [skipFraction]
        · exact fun cs heq => hpoint (List.cons.inj heq).1
        · exact fun cs heq => he (List.cons.inj heq).1
        · exact fun cs heq => hE (List.cons.inj heq).1
    · have hexponent := skipExponent_eq hsign hds hr
      rcases hmark with rfl | rfl <;> simpa [skipFraction] using hexponent
  · have hany := any_head_digits hds (exponent ++ rest)
    have hdrop := dropWhile_digits hds hhead
    rw [List.nil_append] at hdrop
    rw [List.cons_append, skipFraction, if_pos hany, hdrop]
    rcases he with rfl | ⟨mark, sign, ds', hmark, hsign, hds', rfl⟩
    · rw [List.nil_append]
      split
      · exact absurd rfl hr.head_ne.2.2.1
      · exact absurd rfl hr.head_ne.2.2.2
      · rfl
    · have hexponent := skipExponent_eq hsign hds' hr
      rcases hmark with rfl | rfl <;> simpa using hexponent

/-- A number is passed over from behind its sign. -/
theorem skipNumber_eq {whole fraction exponent rest : List Char} (hw : WholePart whole)
    (hf : FractionPart fraction) (he : ExponentPart exponent) (hr : Ends rest) :
    skipNumber (whole ++ (fraction ++ (exponent ++ rest))) = .ok rest := by
  have hhead := head_not_digit_of_parts hf he hr
  have hdrop := dropWhile_digits hw.1 hhead
  have hfraction := skipFraction_eq hf he hr
  generalize fraction ++ (exponent ++ rest) = tail at hhead hdrop hfraction ⊢
  obtain ⟨c, ds, rfl⟩ := List.exists_cons_of_ne_nil hw.1.1
  have hc : c.isDigit := hw.1.2 c List.mem_cons_self
  have hlead := hw.lone_zero hhead
  rw [List.cons_append] at hdrop ⊢
  rw [skipNumber, hlead, hc, hdrop, hfraction]
  rfl

/-- The mark that opens the bracket. -/
def Bracket.opening : Bracket → Char
  | list => '['
  | object => '{'

namespace Reader

/-! ## Scalars -/

/-- The text is a scalar, which is passed over before `rest`. -/
def SkipsScalar (cs rest : List Char) : Prop :=
  ∃ c cs', cs = c :: cs' ∧ isBlank c = false ∧ c ≠ '[' ∧ c ≠ '{' ∧
    (skipScalar c).Gives (c :: (cs' ++ rest)) () rest

theorem skipsScalar_null (rest : List Char) : SkipsScalar ['n', 'u', 'l', 'l'] rest :=
  ⟨'n', _, rfl, by decide, by decide, by decide,
    (gives_advance 'n' _).bind (gives_literal ['u', 'l', 'l'] rest)⟩

theorem skipsScalar_boolean (b : Bool) (rest : List Char) : SkipsScalar (booleanToken b) rest := by
  cases b with
  | true =>
    exact ⟨'t', _, rfl, by decide, by decide, by decide,
      (gives_advance 't' _).bind (gives_literal ['r', 'u', 'e'] rest)⟩
  | false =>
    exact ⟨'f', _, rfl, by decide, by decide, by decide,
      (gives_advance 'f' _).bind (gives_literal ['a', 'l', 's', 'e'] rest)⟩

theorem gives_skipText {body : List Char} (h : QuotedRest body) (rest : List Char) :
    (lift fun cs => return ((), ← skipText cs)).Gives (body ++ rest) () rest := by
  apply gives_lift
  rw [skipText_rest h]
  rfl

theorem skipsScalar_text {body : List Char} (h : QuotedRest body) (rest : List Char) :
    SkipsScalar ('"' :: body) rest :=
  ⟨'"', body, rfl, by decide, by decide, by decide,
    (gives_advance '"' _).bind (gives_skipText h rest)⟩

theorem gives_skipNumber {whole fraction exponent rest : List Char} (hw : WholePart whole)
    (hf : FractionPart fraction) (he : ExponentPart exponent) (hr : Ends rest) :
    (lift fun cs => return ((), ← skipNumber cs)).Gives
      (whole ++ (fraction ++ (exponent ++ rest))) () rest := by
  apply gives_lift
  rw [skipNumber_eq hw hf he hr]
  rfl

theorem ne_of_isDigit {d c : Char} (hd : d.isDigit) (hc : c.isDigit = false) : d ≠ c := by
  rintro rfl
  rw [hd] at hc
  contradiction

theorem skipsScalar_number {cs rest : List Char} (h : NumberToken cs) (hr : Ends rest) :
    SkipsScalar cs rest := by
  obtain ⟨sign, whole, fraction, exponent, hsign, hw, hf, he, rfl⟩ := h
  have hnumber := gives_skipNumber hw hf he hr
  obtain rfl | rfl : sign = [] ∨ sign = ['-'] := by simpa using hsign
  · obtain ⟨d, ds, rfl⟩ := List.exists_cons_of_ne_nil hw.1.1
    have hd : d.isDigit := hw.1.2 d List.mem_cons_self
    have hne := fun c => ne_of_isDigit (c := c) hd
    refine ⟨d, ds ++ fraction ++ exponent, by simp, isBlank_eq_false_of_isDigit hd,
      hne _ (by decide), hne _ (by decide), ?_⟩
    rw [skipScalar, if_neg (hne _ (by decide)), if_neg (hne _ (by decide)),
      if_neg (hne _ (by decide)), if_neg (hne _ (by decide)), if_pos hd]
    simpa using hnumber
  · refine ⟨'-', whole ++ fraction ++ exponent, by simp, by decide, by decide, by decide, ?_⟩
    refine (gives_advance '-' _).bind ?_
    simpa using hnumber

/-! ## Brackets -/

/-- Skipping that stands in `cs` with the brackets `opened` ends before `rest`, in at most `n`
    rounds. -/
def Resumes (due : Bool) (opened : List Bracket) (n : Nat) (cs rest : List Char) : Prop :=
  ∃ opened' mid, (closeBrackets due opened).Gives cs opened' mid ∧
    ∀ rounds, n ≤ rounds.length →
      (if opened'.isEmpty then return () else skipUpTo rounds opened' : Reader Unit).Gives mid () rest

section

variable {opened : List Bracket} {b : Bracket} {n : Nat} {ws tail rest rounds : List Char}

/-- Behind the last bracket there is nothing to skip. -/
theorem resumes_nil (due : Bool) (rest : List Char) : Resumes due [] 0 rest rest :=
  ⟨[], rest, gives_pure [] rest, fun _ _ => gives_pure () rest⟩

/-- More rounds do no harm. -/
theorem Resumes.mono {due : Bool} {m : Nat} {cs : List Char} (h : Resumes due opened n cs rest)
    (hnm : n ≤ m) : Resumes due opened m cs rest := by
  obtain ⟨opened', mid, hclose, hrest⟩ := h
  exact ⟨opened', mid, hclose, fun rounds hlen => hrest rounds (Nat.le_trans hnm hlen)⟩

/-- The closing bracket takes the innermost bracket away. -/
theorem Resumes.close {due : Bool} (hws : Blanks ws) (h : Resumes true opened n tail rest) :
    Resumes due (b :: opened) n (ws ++ b.closing :: tail) rest := by
  obtain ⟨opened', mid, hclose, hrest⟩ := h
  refine ⟨opened', mid, ?_, hrest⟩
  have hblank : isBlank b.closing = false := by cases b <;> rfl
  have hcomma : b.closing ≠ ',' := by cases b <;> decide
  rw [closeBrackets]
  refine (gives_token hws hblank).bind ?_
  show (if (due && decide (b.closing = ',')) = true then _ else _ : Reader (List Bracket)).Gives _ _ _
  rw [if_neg (by simp [hcomma]), if_pos rfl]
  exact (gives_advance b.closing tail).bind hclose

/-- Another item or member follows, in which skipping goes on behind the key. -/
theorem Resumes.next {first : Bool} {gap cs : List Char} {c : Char} (hg : Gap first gap)
    (hc : isBlank c = false) (hne : c ≠ b.closing)
    (h : ∀ ws, Blanks ws → ∃ mid, (skipKey b).Gives (ws ++ c :: cs) () mid ∧
      ∀ rounds, n ≤ rounds.length → (skipUpTo rounds (b :: opened)).Gives mid () rest) :
    Resumes (!first) (b :: opened) n (gap ++ c :: cs) rest := by
  cases hg with
  | first hws =>
    -- asking for the mark has left the blanks behind
    obtain ⟨mid, hkey, hrest⟩ := h [] blanks_nil
    refine ⟨b :: opened, mid, ?_, hrest⟩
    refine (gives_token hws hc).bind ?_
    show (if c = b.closing then _ else _ : Reader (List Bracket)).Gives _ _ _
    rw [if_neg hne]
    exact hkey.bind (gives_pure _ mid)
  | @comma ws ws' hws hws' =>
    -- the blanks behind the comma are still there
    obtain ⟨mid, hkey, hrest⟩ := h ws' hws'
    refine ⟨b :: opened, mid, ?_, hrest⟩
    rw [List.append_assoc]
    exact (gives_token hws (by decide)).bind
      ((gives_advance ',' _).bind (hkey.bind (gives_pure _ mid)))

end

/-! ## Values -/

/-- The text of a value is passed over wherever a value may stand. -/
def PassesValue (cs : List Char) : Prop :=
  ∀ {opened : List Bracket} {n : Nat} {ws tail rest rounds : List Char}, Blanks ws → Ends tail →
    Resumes true opened n tail rest → cs.length + n ≤ rounds.length →
    (skipUpTo rounds opened).Gives (ws ++ (cs ++ tail)) () rest

/-- What is left inside a bracket is passed over together with the mark that closes it. -/
def PassesBody (b : Bracket) (first : Bool) (body : List Char) : Prop :=
  ∀ {opened : List Bracket} {n : Nat} {tail rest : List Char}, Resumes true opened n tail rest →
    Resumes (!first) (b :: opened) (body.length + n) (body ++ tail) rest

/-- A scalar is passed over in one round. -/
theorem passesValue_scalar {cs : List Char} (h : ∀ tail, Ends tail → SkipsScalar cs tail) :
    PassesValue cs := by
  intro opened n ws tail rest rounds hws htail hnext hlen
  obtain ⟨c, cs, rfl, hblank, hlist, hobject, hskip⟩ := h tail htail
  obtain ⟨opened', mid, hclose, hrest⟩ := hnext
  rw [List.length_cons] at hlen
  obtain ⟨r, rounds, rfl⟩ := List.exists_cons_of_length_pos (show 0 < rounds.length by omega)
  have hrounds : n ≤ rounds.length := by
    rw [List.length_cons] at hlen
    omega
  rw [List.cons_append, skipUpTo]
  refine (gives_token hws hblank).bind ?_
  -- the first mark says which branch a round takes
  split
  · contradiction
  · next h => exact absurd (Option.some.inj h) hlist
  · next h => exact absurd (Option.some.inj h) hobject
  · next h =>
    obtain rfl := Option.some.inj h
    exact hskip.bind (hclose.bind (hrest rounds hrounds))

/-- An opening bracket takes one round, and what stands inside the others. -/
theorem passesValue_opening {b : Bracket} {body : List Char} (h : PassesBody b true body) :
    PassesValue (b.opening :: body) := by
  intro opened n ws tail rest rounds hws _ hnext hlen
  obtain ⟨opened', mid, hclose, hrest⟩ := h hnext
  rw [List.length_cons] at hlen
  obtain ⟨r, rounds, rfl⟩ := List.exists_cons_of_length_pos (show 0 < rounds.length by omega)
  have hrounds : body.length + n ≤ rounds.length := by
    rw [List.length_cons] at hlen
    omega
  rw [List.cons_append, skipUpTo]
  cases b with
  | list =>
    exact (gives_token hws (by decide)).bind ((gives_advance '[' _).bind
      (hclose.bind (hrest rounds hrounds)))
  | object =>
    exact (gives_token hws (by decide)).bind ((gives_advance '{' _).bind
      (hclose.bind (hrest rounds hrounds)))

theorem passesBody_nil (b : Bracket) {first : Bool} {ws : List Char} (hws : Blanks ws) :
    PassesBody b first (ws ++ [b.closing]) := by
  intro opened n tail rest hnext
  rw [List.append_assoc]
  exact (Resumes.close hws hnext).mono (Nat.le_add_left n _)

/-- A value and what follows it are passed over one after the other.  The rounds that they need add
    up, since each takes at most its length. -/
theorem passesBody_item {first : Bool} {gap cs body : List Char} (hg : Gap first gap)
    (hv : WellFormed cs) (hs : ItemsFormed false body) (hvalue : PassesValue cs)
    (hbody : PassesBody .list false body) : PassesBody .list first (gap ++ (cs ++ body)) := by
  intro opened n tail rest hnext
  obtain ⟨c, cs', rfl, hblank, hne⟩ := hv.head
  rw [List.append_assoc, List.append_assoc]
  refine .next hg hblank hne fun ws hws => ⟨_, gives_pure () _, fun rounds hlen => ?_⟩
  simp only [List.length_append] at hlen
  exact hvalue hws (hs.ends tail) (hbody hnext) (by omega)

theorem passesBody_member {first : Bool} {gap k ws ws' cs body : List Char} (hg : Gap first gap)
    (hk : QuotedRest k) (hw : Blanks ws) (hw' : Blanks ws') (hs : MembersFormed false body)
    (hvalue : PassesValue cs) (hbody : PassesBody .object false body) :
    PassesBody .object first (gap ++ '"' :: (k ++ (ws ++ ':' :: (ws' ++ (cs ++ body))))) := by
  intro opened n tail rest hnext
  have hkey : ∀ blanks, Blanks blanks → (skipKey .object).Gives
      (blanks ++ '"' :: (k ++ (ws ++ ':' :: (ws' ++ (cs ++ (body ++ tail)))))) ()
      (ws' ++ (cs ++ (body ++ tail))) := by
    intro blanks hblanks
    exact (gives_token hblanks (by decide)).bind ((gives_advance '"' _).bind
      ((gives_skipText hk _).bind (gives_colon hw _)))
  simp only [List.append_assoc, List.cons_append]
  refine .next hg (by decide) (by decide) fun blanks hblanks => ⟨_, hkey blanks hblanks, ?_⟩
  intro rounds hlen
  simp only [List.length_append, List.length_cons] at hlen
  exact hvalue hw' (hs.ends tail) (hbody hnext) (by omega)

mutual

/-- Every well-formed text is passed over, one step for each rule of the grammar. -/
theorem passesValue {cs : List Char} : WellFormed cs → PassesValue cs
  | .null => passesValue_scalar fun tail _ => skipsScalar_null tail
  | .boolean => passesValue_scalar fun tail _ => skipsScalar_boolean _ tail
  | .number hn => passesValue_scalar fun _ htail => skipsScalar_number hn htail
  | .text ht => passesValue_scalar fun tail _ => skipsScalar_text ht tail
  | .list hitems => passesValue_opening (b := .list) (passesBody_items hitems)
  | .object hmembers => passesValue_opening (b := .object) (passesBody_members hmembers)

theorem passesBody_items {first : Bool} {body : List Char} :
    ItemsFormed first body → PassesBody .list first body
  | .nil hws => passesBody_nil .list hws
  | .cons hg hv hs => passesBody_item hg hv hs (passesValue hv) (passesBody_items hs)

theorem passesBody_members {first : Bool} {body : List Char} :
    MembersFormed first body → PassesBody .object first body
  | .nil hws => passesBody_nil .object hws
  | .cons hg hk hw hw' hv hs =>
    passesBody_member hg hk hw hw' hs (passesValue hv) (passesBody_members hs)

end

/-- A well-formed value is passed over. -/
theorem gives_skipValue {cs ws rest : List Char} (h : WellFormed cs) (hws : Blanks ws)
    (hrest : Ends rest) : skipValue.Gives (ws ++ (cs ++ rest)) () rest := by
  refine (gives_get _).bind (passesValue h hws hrest (resumes_nil true rest) ?_)
  simp only [List.length_append]
  omega

end Reader

end VariablePrecision.Json
