/-
  VariablePrecision.Proofs.CommandLine.Spelling

  Options that are spelled out as tokens, in any order and form.

  An option is spelled by its name alone, by its name with a value behind an equals sign,
  or by its name with the value as the next token (`Entry.Spells`).  In the last form the
  option stays pending, so what has been read is seen only once a state settles: a state
  *has read* settings and names if settling it leaves these and nothing pending
  (`State.HasRead`).  An option that is new takes such a state to one that has read it as
  well, and a repeated one is refused.  By induction the tokens of any options without a
  repetition make the changes of these options, one after the other.
-/

import Mathlib.Data.List.Nodup
import Mathlib.Data.List.TakeWhile
import VariablePrecision.CommandLine.Parse

namespace VariablePrecision.CommandLine

variable {σ : Type}

/-! ## Numerals -/

/-- The characters are the decimal digits of a number. -/
structure IsDecimal (ds : List Char) (n : Nat) : Prop where
  ne_nil : ds ≠ []
  isDigit : ∀ c ∈ ds, c.isDigit
  value : Nat.ofDigitChars 10 ds 0 = n

/-- The text is a numeral of an integer: decimal digits behind at most one sign. -/
inductive IsNumeral : String → Int → Prop where
  | unsigned {ds : List Char} {n : Nat} (h : IsDecimal ds n) : IsNumeral (.ofList ds) n
  | plus {ds : List Char} {n : Nat} (h : IsDecimal ds n) : IsNumeral (.ofList ('+' :: ds)) n
  | minus {ds : List Char} {n : Nat} (h : IsDecimal ds n) : IsNumeral (.ofList ('-' :: ds)) (-n)

theorem IsDecimal.exists_cons {ds : List Char} {n : Nat} (h : IsDecimal ds n) :
    ∃ d rest, ds = d :: rest ∧ d.isDigit := by
  obtain ⟨d, rest, rfl⟩ := List.exists_cons_of_ne_nil h.ne_nil
  exact ⟨d, rest, rfl, h.isDigit d List.mem_cons_self⟩

/-- The number of decimal digits is what the reading of an integer makes of them. -/
theorem IsDecimal.fold_eq {ds : List Char} {n : Nat} (h : IsDecimal ds n) :
    (if ds.isEmpty || !ds.all Char.isDigit then none
      else some (ds.foldl (fun n c => 10 * n + (c.toNat - '0'.toNat)) 0)) = some n := by
  have hempty : ds.isEmpty = false := List.isEmpty_eq_false_iff.2 h.ne_nil
  have hall : ds.all Char.isDigit = true := List.all_eq_true.2 h.isDigit
  rw [if_neg (by simp [hempty, hall])]
  exact congrArg some h.value

/-- Numerals are read as their integers. -/
theorem IsNumeral.integer?_eq {text : String} {n : Int} (h : IsNumeral text n) :
    integer? text = some n := by
  unfold integer?
  cases h with
  | @unsigned ds n h =>
    obtain ⟨d, rest, rfl, hd⟩ := h.exists_cons
    rw [String.toList_ofList]
    -- the first digit is none of the signs
    split
    · next heq => simp [(List.cons.inj heq).1] at hd
    · next heq => simp [(List.cons.inj heq).1] at hd
    · simp only [h.fold_eq]
      rfl
  | plus h =>
    simp only [String.toList_ofList, h.fold_eq]
    rfl
  | minus h =>
    simp only [String.toList_ofList, h.fold_eq]
    rfl

/-- Digits behind a dash look like a negative number. -/
theorem IsDecimal.looksNumeric {ds : List Char} {n : Nat} (h : IsDecimal ds n) :
    looksNumeric ds = true := by
  have hmark : ∀ c ∈ ds, (!isExponentMark c) = true := by
    intro c hc
    have hdigit := h.isDigit c hc
    simp only [isExponentMark, Bool.not_eq_true', Bool.or_eq_false_iff, decide_eq_false_iff_not]
    constructor <;> rintro rfl <;> simp at hdigit
  have hpoint : ∀ c ∈ ds, decide (c ≠ '.') = true := by
    intro c hc
    have hdigit := h.isDigit c hc
    rw [decide_eq_true_iff]
    rintro rfl
    simp at hdigit
  have hall : ds.all Char.isDigit = true := List.all_eq_true.2 h.isDigit
  have hhead : ds.head?.any Char.isDigit = true := by
    obtain ⟨d, rest, rfl, hd⟩ := h.exists_cons
    exact hd
  -- no mark and no point ends the digits, so they are the whole part, and nothing is left
  unfold CommandLine.looksNumeric
  simp only [List.takeWhile_eq_self_iff.2 hmark, List.dropWhile_eq_nil_iff.2 hmark,
    List.takeWhile_eq_self_iff.2 hpoint, List.dropWhile_eq_nil_iff.2 hpoint, hall, hhead]
  rfl

/-- A numeral that starts with a dash looks like a negative number behind it. -/
theorem IsNumeral.looksNumeric_of_dash {text : String} {n : Int} (h : IsNumeral text n)
    (hdash : text.toList.head? = some '-') :
    ∃ cs, text.toList = '-' :: cs ∧ looksNumeric cs = true := by
  cases h with
  | unsigned h =>
    obtain ⟨d, rest, rfl, hd⟩ := h.exists_cons
    simp at hdash
    simp [hdash] at hd
  | plus h => simp at hdash
  | @minus ds n h => exact ⟨ds, String.toList_ofList, h.looksNumeric⟩

/-! ## Accepted values -/

/-- The option takes the text as its value, and makes this change for it. -/
def Entry.Accepts (entry : Entry σ) (allowsNegative : Bool) (text : String) (update : σ → σ) :
    Prop :=
  ∃ set, entry.action = .value allowsNegative set ∧ set text = .ok update

theorem integerEntry_accepts {name : String} {low high n : Int} {set : Int → σ → σ}
    {allowsNegative : Bool} {text : String} (h : IsNumeral text n) (hlow : low ≤ n)
    (hhigh : n ≤ high) :
    (integerEntry name low high set allowsNegative).Accepts allowsNegative text (set n) := by
  refine ⟨_, rfl, ?_⟩
  rw [h.integer?_eq]
  exact if_pos ⟨hlow, hhigh⟩

/-- The text is one of the names of a choice, in letters of any case. -/
def IsNamed {α : Type} (choices : List (String × α)) (text : String) (a : α) : Prop :=
  (text.map Char.toLower, a) ∈ choices

theorem choiceEntry_accepts {α : Type} {name : String} {choices : List (String × α)}
    {set : α → σ → σ} {text : String} {a : α} (hnodup : (choices.map Prod.fst).Nodup)
    (h : IsNamed choices text a) : (choiceEntry name choices set).Accepts false text (set a) := by
  refine ⟨_, rfl, ?_⟩
  dsimp only
  split
  · next choice b hfind =>
    -- the choice that is found has the same name, and there is one choice of each name
    have hname : choice = text.map Char.toLower := by simpa using List.find?_some hfind
    have hmem := List.mem_of_find?_eq_some hfind
    obtain rfl : b = a := congrArg Prod.snd (List.inj_on_of_nodup_map hnodup hmem h hname)
    rfl
  · next hfind => simpa using List.find?_eq_none.1 hfind _ h

theorem pathEntry_accepts {name path : String} {set : String → σ → σ} {letter : Option Char}
    (h : path ≠ "") : (pathEntry name set letter).Accepts false path (set path) := by
  refine ⟨_, rfl, if_neg ?_⟩
  rwa [String.isEmpty_iff]

/-! ## Spelled options -/

/-- The option with this name as a token. -/
def long (name : String) : String := "--" ++ name

/-- The text may be a token of its own behind the option that it belongs to. -/
def StandsAlone (allowsNegative : Bool) (text : String) : Prop :=
  text.toList.head? = some '-' →
    allowsNegative = true ∧ ∃ cs, text.toList = '-' :: cs ∧ looksNumeric cs = true

/-- What stands alone does not end the options. -/
theorem StandsAlone.ne {allowsNegative : Bool} {text : String}
    (h : StandsAlone allowsNegative text) : text ≠ "--" := by
  rintro rfl
  obtain ⟨-, cs, hcs, hnumeric⟩ := h rfl
  obtain rfl : cs = ['-'] := (List.cons.inj hcs).2.symm
  contradiction

/-- The tokens give the option, and it makes this change. -/
inductive Entry.Spells (entry : Entry σ) : List String → (σ → σ) → Prop where
  | flag {update : σ → σ} (haction : entry.action = .flag update) :
      entry.Spells [long entry.name] update
  | attached {allowsNegative : Bool} {text : String} {update : σ → σ}
      (h : entry.Accepts allowsNegative text update) :
      entry.Spells [long entry.name ++ "=" ++ text] update
  | separate {allowsNegative : Bool} {text : String} {update : σ → σ}
      (h : entry.Accepts allowsNegative text update)
      (halone : StandsAlone allowsNegative text) : entry.Spells [long entry.name, text] update

/-- The name of the option leads to it in the table, and nothing in it ends the name early. -/
structure Listed (table : List (Entry σ)) (entry : Entry σ) : Prop where
  find : table.find? (·.name == entry.name) = some entry
  ne_empty : entry.name ≠ ""
  no_equals : '=' ∉ entry.name.toList

variable {table : List (Entry σ)} {entry : Entry σ}

theorem Listed.append (h : Listed table entry) (more : List (Entry σ)) :
    Listed (table ++ more) entry :=
  ⟨by rw [List.find?_append, h.find, Option.some_or], h.ne_empty, h.no_equals⟩

/-- The whole name stands before the first equals sign. -/
theorem Listed.forall_ne_equals (h : Listed table entry) :
    ∀ c ∈ entry.name.toList, decide (c ≠ '=') = true :=
  fun _ hc => decide_eq_true (ne_of_mem_of_not_mem hc h.no_equals)

theorem toList_long (name : String) : (long name).toList = '-' :: '-' :: name.toList :=
  String.toList_append

theorem Listed.long_ne (h : Listed table entry) : long entry.name ≠ "--" := by
  intro hlong
  have hchars := congrArg String.toList hlong
  rw [toList_long] at hchars
  simp [h.ne_empty] at hchars

theorem Listed.long_append_ne (text : String) : long entry.name ++ "=" ++ text ≠ "--" := by
  intro hlong
  have hchars := congrArg String.toList hlong
  simp [toList_long] at hchars

namespace State

variable {st : State σ} {settings : σ} {seen : List String} {update : σ → σ}
  {tokens : List String}

/-! ## Steps -/

theorem step_long (h : Listed table entry) :
    st.step table (long entry.name) = st.take entry none := by
  simp only [step, toList_long, takeLong, List.takeWhile_eq_self_iff.2 h.forall_ne_equals,
    List.dropWhile_eq_nil_iff.2 h.forall_ne_equals, String.ofList_toList, h.find]

theorem step_attached (h : Listed table entry) (text : String) :
    st.step table (long entry.name ++ "=" ++ text) = st.take entry (some text) := by
  have htoken : (long entry.name ++ "=" ++ text).toList =
      '-' :: '-' :: (entry.name.toList ++ '=' :: text.toList) := by
    simp [toList_long]
  simp only [step, htoken, takeLong, List.takeWhile_append_of_pos h.forall_ne_equals,
    List.dropWhile_append_of_pos h.forall_ne_equals]
  simp [h.find]

/-- The value of a pending option is kept without a look at it. -/
theorem step_standsAlone {p : Pending σ} (hp : st.pending = some p) (hnone : p.text = none)
    {text : String} (h : StandsAlone p.allowsNegative text) :
    st.step table text = .ok { st with pending := some { p with text := some text } } := by
  have hawait : st.awaiting? = some p := by simp [awaiting?, hp, hnone]
  have hplain : st.takePlain text =
      .ok { st with pending := some { p with text := some text } } := by
    simp only [takePlain, hawait]
  unfold step
  split
  · next cs heq =>
    -- a second dash looks like no number
    obtain ⟨-, rest, hrest, hnumeric⟩ := h (by rw [heq]; rfl)
    obtain rfl : rest = '-' :: cs := (List.cons.inj (hrest.symm.trans heq)).2
    simp [looksNumeric, isExponentMark] at hnumeric
  · next c rest _ heq =>
    obtain ⟨hneg, cs, hcs, hnumeric⟩ := h (by rw [heq]; rfl)
    obtain rfl : cs = c :: rest := (List.cons.inj (hcs.symm.trans heq)).2
    rw [if_pos (by simp [hawait, hneg, hnumeric]), hplain]
  · exact hplain

theorem run_cons {token : String} (hne : token ≠ "--") (rest : List String) :
    st.run table (token :: rest) = st.step table token >>= fun st' => st'.run table rest := by
  rw [run.eq_def]
  exact if_neg hne

/-! ## What has been read -/

/-- Settling the state gives these settings, after these options, with nothing pending. -/
def HasRead (st : State σ) (settings : σ) (seen : List String) : Prop :=
  st.settle = .ok { settings, seen }

/-- What becomes of what has been read when one more option is looked at. -/
def enter (settings : σ) (seen : List String) (key : String) (update : σ → σ) :
    Except Fault (State σ) := do
  let st ← note { settings, seen } key
  return { st with settings := update st.settings }

theorem enter_of_not_mem {key : String} (h : key ∉ seen) :
    enter settings seen key update = .ok { settings := update settings, seen := key :: seen } := by
  simp only [enter, note, if_neg h]
  rfl

theorem enter_of_mem {key : String} (h : key ∈ seen) :
    enter settings seen key update = .error ⟨key, "", .repeated⟩ := by
  simp only [enter, note, if_pos h]
  rfl

theorem assign_eq_enter {key text : String} {set : String → Except Refusal (σ → σ)}
    (h : set text = .ok update) :
    assign { settings, seen } key set text = enter settings seen key update := by
  simp only [assign, h, enter]

theorem HasRead.take_flag (hst : st.HasRead settings seen) (h : entry.action = .flag update) :
    st.take entry none = enter settings seen entry.name update := by
  unfold take
  rw [h]
  dsimp only
  rw [show st.settle = _ from hst]
  rfl

theorem HasRead.take_attached (hst : st.HasRead settings seen) {allowsNegative : Bool}
    {set : String → Except Refusal (σ → σ)} {text : String}
    (h : entry.action = .value allowsNegative set) (htext : set text = .ok update) :
    st.take entry (some text) = enter settings seen entry.name update := by
  unfold take
  rw [h]
  dsimp only
  rw [show st.settle = _ from hst]
  exact assign_eq_enter htext

theorem HasRead.take_separate (hst : st.HasRead settings seen) {allowsNegative : Bool}
    {set : String → Except Refusal (σ → σ)} (h : entry.action = .value allowsNegative set) :
    st.take entry none =
      .ok { settings, seen, pending := some { key := entry.name, allowsNegative, set } } := by
  unfold take
  rw [h]
  dsimp only
  rw [show st.settle = _ from hst]
  rfl

/-! ## Runs -/

theorem enter_settle (key : String) :
    (enter settings seen key update >>= settle) = enter settings seen key update := by
  by_cases h : key ∈ seen
  · rw [enter_of_mem h]
    rfl
  · rw [enter_of_not_mem h]
    rfl

/-- The tokens of an option are taken without those behind them, and once the outcome settles, the
    option is entered into what has been read. -/
theorem HasRead.exists_outcome (hst : st.HasRead settings seen) (hlisted : Listed table entry)
    (h : entry.Spells tokens update) :
    ∃ outcome : Except Fault (State σ),
      (∀ rest, st.run table (tokens ++ rest) = outcome >>= fun st' => st'.run table rest) ∧
      (outcome >>= settle) = enter settings seen entry.name update := by
  -- without a value, or with an attached one, the option is looked at in its own step
  cases h with
  | flag haction =>
    refine ⟨enter settings seen entry.name update, fun rest => ?_, enter_settle _⟩
    rw [List.singleton_append, run_cons hlisted.long_ne, step_long hlisted,
      hst.take_flag haction]
  | attached haccepts =>
    obtain ⟨set, haction, htext⟩ := haccepts
    refine ⟨enter settings seen entry.name update, fun rest => ?_, enter_settle _⟩
    rw [List.singleton_append, run_cons (Listed.long_append_ne _), step_attached hlisted,
      hst.take_attached haction htext]
  | @separate allowsNegative text _ haccepts halone =>
    obtain ⟨set, haction, htext⟩ := haccepts
    -- the option is pending between its tokens, and still is behind them
    refine ⟨.ok ⟨settings, seen, some ⟨entry.name, allowsNegative, set, some text⟩⟩,
      fun rest => ?_, ?_⟩
    · rw [List.cons_append, run_cons hlisted.long_ne, step_long hlisted,
        hst.take_separate haction]
      show State.run _ table (text :: rest) = _
      rw [run_cons halone.ne, step_standsAlone rfl rfl halone]
    · exact assign_eq_enter htext

/-- The tokens of a new option leave it read. -/
theorem HasRead.run_new (hst : st.HasRead settings seen) (hlisted : Listed table entry)
    (h : entry.Spells tokens update) (hnew : entry.name ∉ seen) :
    ∃ st' : State σ, st'.HasRead (update settings) (entry.name :: seen) ∧
      ∀ rest, st.run table (tokens ++ rest) = st'.run table rest := by
  obtain ⟨outcome, hrun, hsettle⟩ := hst.exists_outcome hlisted h
  rw [enter_of_not_mem hnew] at hsettle
  obtain ⟨st', rfl, hread⟩ := bind_eq_ok_iff.1 hsettle
  exact ⟨st', hread, hrun⟩

/-- The tokens of a repeated option are refused at the end. -/
theorem HasRead.run_repeated (hst : st.HasRead settings seen) (hlisted : Listed table entry)
    (h : entry.Spells tokens update) (hseen : entry.name ∈ seen) :
    st.run table tokens = .error ⟨entry.name, "", .repeated⟩ := by
  obtain ⟨outcome, hrun, hsettle⟩ := hst.exists_outcome hlisted h
  -- nothing is behind the tokens, so the run ends by settling
  have hend : (outcome >>= fun st' : State σ => st'.run table []) = outcome >>= settle := by
    simp only [run]
  rw [← List.append_nil tokens, hrun, hend, hsettle, enter_of_mem hseen]

end State

/-! ## Command lines -/

/-- An option of a table as tokens give it, with the change that it makes. -/
structure Use (table : List (Entry σ)) where
  entry : Entry σ
  tokens : List String
  update : σ → σ
  listed : Listed table entry
  spells : entry.Spells tokens update

/-- Options that are new and do not repeat each other are read one after the other. -/
theorem State.HasRead.run_uses {st : State σ} {settings : σ} {seen : List String}
    (hst : st.HasRead settings seen) (uses : List (Use table))
    (hnodup : (uses.map (·.entry.name)).Nodup) (hnew : ∀ u ∈ uses, u.entry.name ∉ seen) :
    ∃ st' : State σ,
      st'.HasRead (uses.foldl (fun s u => u.update s) settings)
        ((uses.map (·.entry.name)).reverse ++ seen) ∧
      ∀ rest, st.run table (uses.flatMap Use.tokens ++ rest) = st'.run table rest := by
  -- on the options, from any state that has read others
  induction uses generalizing st settings seen with
  | nil => exact ⟨st, hst, fun _ => rfl⟩
  | cons u uses ih =>
    rw [List.map_cons, List.nodup_cons] at hnodup
    obtain ⟨middle, hmiddle, hrun⟩ :=
      hst.run_new u.listed u.spells (hnew u List.mem_cons_self)
    have hrest : ∀ v ∈ uses, v.entry.name ∉ u.entry.name :: seen := by
      intro v hv
      rw [List.mem_cons, not_or]
      refine ⟨fun h => hnodup.1 ?_, hnew v (List.mem_cons_of_mem _ hv)⟩
      rw [← h]
      exact List.mem_map_of_mem hv
    obtain ⟨st', hst', hrun'⟩ := ih hmiddle hnodup.2 hrest
    refine ⟨st', ?_, fun rest => ?_⟩
    · simpa using hst'
    · rw [List.flatMap_cons, List.append_assoc, hrun, hrun']

variable (defaults : σ) (program : String)

theorem exists_hasRead_uses (uses : List (Use (table ++ [helpEntry])))
    (hnodup : (uses.map (·.entry.name)).Nodup) :
    ∃ st : State σ,
      st.HasRead (uses.foldl (fun s u => u.update s) defaults)
        (uses.map (·.entry.name)).reverse ∧
      ∀ rest, parse table defaults (program :: (uses.flatMap Use.tokens ++ rest)) =
        st.run (table ++ [helpEntry]) rest >>= fun st' => .ok st'.settings := by
  have hstart : State.HasRead ({ settings := defaults } : State σ) defaults [] := rfl
  obtain ⟨st, hst, hrun⟩ := hstart.run_uses uses hnodup (by simp)
  rw [List.append_nil] at hst
  refine ⟨st, hst, fun rest => ?_⟩
  rw [← hrun]
  rfl

/-- The tokens of options that are not repeated make the changes of these options. -/
theorem parse_uses (uses : List (Use (table ++ [helpEntry])))
    (hnodup : (uses.map (·.entry.name)).Nodup) :
    parse table defaults (program :: uses.flatMap Use.tokens) =
      .ok (uses.foldl (fun s u => u.update s) defaults) := by
  obtain ⟨st, hst, hparse⟩ := exists_hasRead_uses defaults program uses hnodup
  have hend := hparse []
  rw [List.append_nil] at hend
  rw [hend, State.run, show st.settle = _ from hst]
  rfl

/-- An option that is repeated at the end is refused. -/
theorem parse_uses_repeated (uses : List (Use (table ++ [helpEntry])))
    (hnodup : (uses.map (·.entry.name)).Nodup) (again : Use (table ++ [helpEntry]))
    (hagain : again.entry.name ∈ uses.map (·.entry.name)) :
    parse table defaults (program :: (uses.flatMap Use.tokens ++ again.tokens)) =
      .error ⟨again.entry.name, "", .repeated⟩ := by
  obtain ⟨st, hst, hparse⟩ := exists_hasRead_uses defaults program uses hnodup
  rw [hparse, hst.run_repeated again.listed again.spells (List.mem_reverse.2 hagain)]
  rfl

end VariablePrecision.CommandLine
