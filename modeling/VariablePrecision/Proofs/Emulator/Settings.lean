/-
  VariablePrecision.Proofs.Emulator.Settings

  The settings of the emulator do not depend on the order and the form of its options.

  Each option is a key that leads to one place of the options, read by `get` and changed
  by `put`.  `Spells` says which texts spell which values, and `Given` is an option with a
  legal value as tokens give it, in whatever form.  Every key has its entry in the table,
  which accepts the texts that are legal for the key and puts their value, so options
  given once each put their values one after the other (`parse_given`).  What is put at one
  place is not seen at the others, so the order makes no difference (`assigns_iff`).
-/

import VariablePrecision.Proofs.CommandLine.Spelling
import VariablePrecision.Proofs.Emulator.Options

namespace VariablePrecision.Options

open CommandLine

/-! ## Keys -/

/-- The options that tokens can give. -/
inductive Key where
  | precision (f : Format)
  | range (f : Format)
  | mode
  | errorMode
  | absoluteExponent
  | coverage
  | daz
  | ftz
  | inputFile
  | outputFile
  | logFile
  deriving DecidableEq

namespace Key

/-- The name of an option in tokens. -/
def name : Key → String
  | precision f => "precision-" ++ f.name
  | range f => "range-" ++ f.name
  | mode => "mode"
  | errorMode => "error-mode"
  | absoluteExponent => "max-abs-error-exponent"
  | coverage => "instrument"
  | daz => "daz"
  | ftz => "ftz"
  | inputFile => "prec-input-file"
  | outputFile => "prec-output-file"
  | logFile => "prec-log-file"

/-- What an option can be set to. -/
def Value : Key → Type
  | precision _ | range _ => Nat
  | mode => Mode
  | errorMode => ErrorMode
  | absoluteExponent => Int
  | coverage => Coverage
  | daz | ftz => Bool
  | inputFile | outputFile | logFile => Option String

/-- All keys, in the order of the table. -/
def all : List Key :=
  [precision .binary32, precision .binary64, range .binary32, range .binary64, mode, errorMode,
    absoluteExponent, coverage, daz, ftz, inputFile, outputFile, logFile]

theorem mem_all (k : Key) : k ∈ all := by
  rcases k with (_ | _) | (_ | _) | _ <;> decide

theorem name_injective : Function.Injective name := by
  intro k k' h
  have hnodup : (all.map name).Nodup := by decide
  exact List.inj_on_of_nodup_map hnodup (mem_all k) (mem_all k') h

end Key

/-! ## Places -/

/-- What an option is set to. -/
def get (o : Options) : (k : Key) → k.Value
  | .precision f => (o.targets.get f).precision
  | .range f => (o.targets.get f).range
  | .mode => o.mode
  | .errorMode => o.context.policy.mode
  | .absoluteExponent => o.context.policy.absoluteExponent
  | .coverage => o.coverage
  | .daz => o.context.daz
  | .ftz => o.context.ftz
  | .inputFile => o.inputFile
  | .outputFile => o.outputFile
  | .logFile => o.logFile

/-- Sets an option. -/
def put : (k : Key) → k.Value → Options → Options
  | .precision f, n => updateTarget f fun t => { t with precision := n }
  | .range f, n => updateTarget f fun t => { t with range := n }
  | .mode, m => fun o => { o with mode := m }
  | .errorMode, m => fun o => { o with context.policy.mode := m }
  | .absoluteExponent, n => fun o => { o with context.policy.absoluteExponent := n }
  | .coverage, c => fun o => { o with coverage := c }
  | .daz, b => fun o => { o with context.daz := b }
  | .ftz, b => fun o => { o with context.ftz := b }
  | .inputFile, p => fun o => { o with inputFile := p }
  | .outputFile, p => fun o => { o with outputFile := p }
  | .logFile, p => fun o => { o with logFile := p }

theorem get_put_self (k : Key) (v : k.Value) (o : Options) : (put k v o).get k = v := by
  rcases k with (_ | _) | (_ | _) | _ <;> rfl

theorem get_put_of_ne {k k' : Key} (h : k' ≠ k) (v : k.Value) (o : Options) :
    (put k v o).get k' = o.get k' := by
  rcases k with (_ | _) | (_ | _) | _ <;> rcases k' with (_ | _) | (_ | _) | _ <;>
    first | rfl | contradiction

/-- The places of all keys make up the options. -/
theorem eq_of_get_eq {o o' : Options} (h : ∀ k, o.get k = o'.get k) : o = o' := by
  obtain ⟨⟨⟨p32, r32⟩, ⟨p64, r64⟩⟩, m, c, ⟨⟨e, n⟩, daz, ftz⟩, input, output, log⟩ := o
  obtain ⟨⟨⟨p32', r32'⟩, ⟨p64', r64'⟩⟩, m', c', ⟨⟨e', n'⟩, daz', ftz'⟩, input', output', log'⟩ := o'
  obtain rfl : p32 = p32' := h (.precision .binary32)
  obtain rfl : p64 = p64' := h (.precision .binary64)
  obtain rfl : r32 = r32' := h (.range .binary32)
  obtain rfl : r64 = r64' := h (.range .binary64)
  obtain rfl : m = m' := h .mode
  obtain rfl : e = e' := h .errorMode
  obtain rfl : n = n' := h .absoluteExponent
  obtain rfl : c = c' := h .coverage
  obtain rfl : daz = daz' := h .daz
  obtain rfl : ftz = ftz' := h .ftz
  obtain rfl : input = input' := h .inputFile
  obtain rfl : output = output' := h .outputFile
  obtain rfl : log = log' := h .logFile
  rfl

/-! ## Legal values -/

namespace Key

/-- The text spells a legal value of the option. -/
def Spells : (k : Key) → String → k.Value → Prop
  | precision f, text, (n : Nat) =>
      IsNumeral text n ∧ Target.precisionMin ≤ n ∧ n ≤ f.mantissaBits
  | range f, text, (n : Nat) => IsNumeral text n ∧ Target.rangeMin ≤ n ∧ n ≤ f.exponentBits
  | mode, text, m => IsNamed Mode.choices text m
  | errorMode, text, m => IsNamed ErrorMode.choices text m
  | absoluteExponent, text, (n : Int) =>
      IsNumeral text n ∧ -absoluteExponentLimit ≤ n ∧ n ≤ absoluteExponentLimit
  | coverage, text, c => IsNamed Coverage.choices text c
  -- flags are given by their names alone
  | daz, _, _ | ftz, _, _ => False
  | inputFile, text, path | outputFile, text, path | logFile, text, path =>
      text ≠ "" ∧ path = some text

/-- The tokens give the option a legal value.  Only the exponent of the absolute bound may have a
    token with a dash in front as its value. -/
inductive Gives : (k : Key) → List String → k.Value → Prop where
  | daz : Gives daz [long daz.name] true
  | ftz : Gives ftz [long ftz.name] true
  | attached {k : Key} {text : String} {v : k.Value} (h : k.Spells text v) :
      Gives k [long k.name ++ "=" ++ text] v
  | separate {k : Key} {text : String} {v : k.Value} (h : k.Spells text v)
      (hdash : text.toList.head? = some '-' → k = absoluteExponent) :
      Gives k [long k.name, text] v

end Key

/-- An option with a legal value, as tokens give it. -/
structure Given where
  key : Key
  tokens : List String
  value : key.Value
  gives : key.Gives tokens value

/-- The options have the given values, and their defaults where none is given. -/
structure Assigns (given : List Given) (o : Options) : Prop where
  value : ∀ g ∈ given, o.get g.key = g.value
  default : ∀ k ∉ given.map Given.key, o.get k = ({} : Options).get k

/-! ## Entries -/

namespace Key

/-- The option in the table. -/
def entry : Key → Entry Options
  | precision f => precisionEntry f
  | range f => rangeEntry f
  | mode => choiceEntry "mode" Mode.choices (put mode)
  | errorMode => choiceEntry "error-mode" ErrorMode.choices (put errorMode)
  | absoluteExponent =>
      integerEntry "max-abs-error-exponent" (-absoluteExponentLimit) absoluteExponentLimit
        (put absoluteExponent) true
  | coverage => choiceEntry "instrument" Coverage.choices (put coverage)
  | daz => flagEntry "daz" (put daz true)
  | ftz => flagEntry "ftz" (put ftz true)
  | inputFile => pathEntry "prec-input-file" fun p => put inputFile (some p)
  | outputFile => pathEntry "prec-output-file" fun p => put outputFile (some p)
  | logFile => pathEntry "prec-log-file" fun p => put logFile (some p)

theorem entry_name (k : Key) : k.entry.name = k.name := by
  cases k <;> rfl

theorem listed (k : Key) : Listed table k.entry where
  find := by rcases k with (_ | _) | (_ | _) | _ <;> rfl
  ne_empty := by rcases k with (_ | _) | (_ | _) | _ <;> decide
  no_equals := by rcases k with (_ | _) | (_ | _) | _ <;> decide

theorem entry_accepts {k : Key} {text : String} {v : k.Value} (h : k.Spells text v) :
    k.entry.Accepts (k = absoluteExponent) text (put k v) := by
  cases k with
  | precision f =>
    obtain ⟨hnumeral, hlow, hhigh⟩ := h
    exact integerEntry_accepts hnumeral (Int.ofNat_le.2 hlow) (Int.ofNat_le.2 hhigh)
  | range f =>
    obtain ⟨hnumeral, hlow, hhigh⟩ := h
    exact integerEntry_accepts hnumeral (Int.ofNat_le.2 hlow) (Int.ofNat_le.2 hhigh)
  | mode => exact choiceEntry_accepts (by decide) h
  | errorMode => exact choiceEntry_accepts (by decide) h
  | absoluteExponent => exact integerEntry_accepts h.1 h.2.1 h.2.2
  | coverage => exact choiceEntry_accepts (by decide) h
  | daz => exact h.elim
  | ftz => exact h.elim
  | inputFile =>
    obtain ⟨hne, rfl⟩ := h
    exact pathEntry_accepts hne
  | outputFile =>
    obtain ⟨hne, rfl⟩ := h
    exact pathEntry_accepts hne
  | logFile =>
    obtain ⟨hne, rfl⟩ := h
    exact pathEntry_accepts hne

/-- What stands behind an option without a dash stands alone, and so do negative exponents. -/
theorem Spells.standsAlone {k : Key} {text : String} {v : k.Value} (h : k.Spells text v)
    (hdash : text.toList.head? = some '-' → k = absoluteExponent) :
    StandsAlone (k = absoluteExponent) text := by
  intro hhead
  obtain rfl := hdash hhead
  exact ⟨decide_eq_true rfl, h.1.looksNumeric_of_dash hhead⟩

theorem Gives.entry_spells {k : Key} {tokens : List String} {v : k.Value}
    (h : k.Gives tokens v) : k.entry.Spells tokens (put k v) := by
  cases h with
  | daz => exact .flag rfl
  | ftz => exact .flag rfl
  | attached h =>
    rw [← entry_name]
    exact .attached (entry_accepts h)
  | separate h hdash =>
    rw [← entry_name]
    exact .separate (entry_accepts h) (h.standsAlone hdash)

end Key

/-- A given option, as a use of the entry of its key. -/
def Given.use (g : Given) : Use (table ++ [helpEntry]) where
  entry := g.key.entry
  tokens := g.tokens
  update := put g.key g.value
  listed := g.key.listed.append _
  spells := g.gives.entry_spells

/-! ## Assignments -/

/-- The options after the given values have been put, one after the other. -/
def putAll (given : List Given) (o : Options) : Options :=
  given.foldl (fun o g => put g.key g.value o) o

/-- Where nothing is put, the options stay as they were. -/
theorem get_putAll_of_not_mem {given : List Given} {k : Key} (h : k ∉ given.map Given.key)
    (o : Options) : (putAll given o).get k = o.get k := by
  induction given generalizing o with
  | nil => rfl
  | cons g given ih =>
    rw [List.map_cons, List.mem_cons, not_or] at h
    calc (putAll given (put g.key g.value o)).get k
      _ = (put g.key g.value o).get k := ih h.2 _
      _ = o.get k := get_put_of_ne h.1 _ o

/-- What is put once is there at the end. -/
theorem get_putAll_of_mem {given : List Given} (hnodup : (given.map Given.key).Nodup)
    {g : Given} (hg : g ∈ given) (o : Options) : (putAll given o).get g.key = g.value := by
  induction given generalizing o with
  | nil => contradiction
  | cons g' given ih =>
    rw [List.map_cons, List.nodup_cons] at hnodup
    rcases List.mem_cons.1 hg with rfl | hg
    · -- no later option has this key
      calc (putAll given (put g.key g.value o)).get g.key
        _ = (put g.key g.value o).get g.key := get_putAll_of_not_mem hnodup.1 _
        _ = g.value := get_put_self g.key g.value o
    · exact ih hnodup.2 hg _

/-- Given values determine the options, whatever their order. -/
theorem assigns_iff {given : List Given} (hnodup : (given.map Given.key).Nodup) (o : Options) :
    Assigns given o ↔ o = putAll given {} := by
  constructor
  · intro h
    refine eq_of_get_eq fun k => ?_
    by_cases hk : k ∈ given.map Given.key
    · obtain ⟨g, hg, rfl⟩ := List.mem_map.1 hk
      rw [h.value g hg, get_putAll_of_mem hnodup hg]
    · rw [h.default k hk, get_putAll_of_not_mem hk]
  · rintro rfl
    exact ⟨fun g hg => get_putAll_of_mem hnodup hg _, fun k hk => get_putAll_of_not_mem hk _⟩

/-! ## Tokens -/

theorem nodup_names {given : List Given} (h : (given.map Given.key).Nodup) :
    ((given.map Given.use).map (·.entry.name)).Nodup := by
  have hname : (given.map Given.use).map (·.entry.name) = (given.map Given.key).map Key.name := by
    simp only [List.map_map]
    exact List.map_congr_left fun g _ => g.key.entry_name
  rw [hname]
  exact h.map Key.name_injective

variable (program : String) {given : List Given}

theorem parse_given (hnodup : (given.map Given.key).Nodup) :
    parse (program :: given.flatMap Given.tokens) = .ok (putAll given {}) := by
  have h : CommandLine.parse table {} (program :: given.flatMap Given.tokens) =
      .ok (putAll given {}) := by
    have huses := parse_uses {} program (given.map Given.use) (nodup_names hnodup)
    rwa [List.flatMap_map, List.foldl_map] at huses
  simp only [parse, h]

theorem parse_given_repeated (hnodup : (given.map Given.key).Nodup) {again : Given}
    (hagain : again.key ∈ given.map Given.key) :
    parse (program :: (given.flatMap Given.tokens ++ again.tokens)) =
      .error (.invalidOption again.key.name "" Refusal.repeated.reason) := by
  have hmem : again.use.entry.name ∈ (given.map Given.use).map (·.entry.name) := by
    obtain ⟨g, hg, hkey⟩ := List.mem_map.1 hagain
    refine List.mem_map.2 ⟨g.use, List.mem_map_of_mem hg, ?_⟩
    show g.key.entry.name = again.key.entry.name
    rw [hkey]
  have h : CommandLine.parse table {} (program :: (given.flatMap Given.tokens ++ again.tokens)) =
      .error ⟨again.key.name, "", .repeated⟩ := by
    have huses := parse_uses_repeated {} program _ (nodup_names hnodup) again.use hmem
    rw [← Key.entry_name]
    rwa [List.flatMap_map] at huses
  simp only [parse, h, Fault.toError]

end VariablePrecision.Options

namespace VariablePrecision.Configuration

open CommandLine Options

/-- Options that are given once each, with legal values, in any order and form, make exactly the
    configuration with these values and the defaults otherwise.  Any one of them that is repeated
    at the end is refused. -/
theorem parse_of_given (program : String) (given : List Given)
    (hnodup : (given.map Given.key).Nodup) :
    (∃ config, parse (program :: given.flatMap Given.tokens) = .ok config ∧
      ∀ o, Assigns given o ↔ o = config.toOptions) ∧
    ∀ again : Given, again.key ∈ given.map Given.key →
      parse (program :: (given.flatMap Given.tokens ++ again.tokens)) =
        .error (.invalidOption again.key.name "" Refusal.repeated.reason) := by
  constructor
  · -- what tokens give is sound, so the check of the targets passes
    have hoptions := parse_given program hnodup
    obtain ⟨config, hconfig, heq⟩ := (sound_of_parse hoptions).ofOptions_eq_ok
    refine ⟨config, bind_eq_ok_iff.2 ⟨_, hoptions, hconfig⟩, fun o => ?_⟩
    rw [heq]
    exact assigns_iff hnodup o
  · intro again hagain
    unfold parse
    rw [parse_given_repeated program hnodup hagain]
    rfl

theorem isNamed_full : IsNamed Mode.choices "Full" .full := by
  have hlower : "Full".map Char.toLower = "full" := String.toList_inj.1 (by simp)
  rw [IsNamed, hlower]
  decide

/-- Options in each of their forms. -/
def mixedForms : List Given := [
  ⟨.mode, ["--mode=Full"], Mode.full, .attached (show Key.mode.Spells _ _ from isNamed_full)⟩,
  ⟨.absoluteExponent, ["--max-abs-error-exponent", "-20"], (-20 : Int),
    .separate (show Key.absoluteExponent.Spells "-20" (-20 : Int) from
      ⟨.minus ⟨by decide, List.all_eq_true.1 rfl, rfl⟩, by decide, by decide⟩) fun _ => rfl⟩,
  ⟨.daz, ["--daz"], true, .daz⟩,
  ⟨.precision .binary64, ["--precision-binary64", "030"], (30 : Nat),
    .separate (show (Key.precision .binary64).Spells "030" (30 : Nat) from
      ⟨.unsigned ⟨by decide, List.all_eq_true.1 rfl, rfl⟩, by decide, by decide⟩) (by decide)⟩,
  ⟨.logFile, ["--prec-log-file=-a=b"], some "-a=b",
    .attached (show Key.logFile.Spells "-a=b" (some "-a=b") from ⟨by decide, rfl⟩)⟩]

theorem parse_of_given_mixed :
    (mixedForms.map Given.key).Nodup ∧
    (∃ config, parse ["vprec", "--mode=Full", "--max-abs-error-exponent", "-20", "--daz",
        "--precision-binary64", "030", "--prec-log-file=-a=b"] = .ok config ∧
      config.toOptions =
        { targets.binary64 := ⟨30, 11⟩
          mode := .full
          context := { policy := ⟨.relative, -20⟩, daz := true }
          logFile := some "-a=b" }) ∧
    parse ["vprec", "--mode=Full", "--max-abs-error-exponent", "-20", "--daz",
        "--precision-binary64", "030", "--prec-log-file=-a=b", "--daz"] =
      .error (.invalidOption "daz" "" Refusal.repeated.reason) := by
  have hnodup : (mixedForms.map Given.key).Nodup := by decide
  obtain ⟨⟨config, hconfig, hassigns⟩, hrepeated⟩ := parse_of_given "vprec" mixedForms hnodup
  refine ⟨hnodup, ⟨config, hconfig, ?_⟩, hrepeated ⟨.daz, ["--daz"], true, .daz⟩ (by decide)⟩
  refine ((hassigns _).1 ⟨?_, fun k hk => ?_⟩).symm
  · simp only [mixedForms, List.forall_mem_cons]
    exact ⟨rfl, rfl, rfl, rfl, rfl, by simp⟩
  · rcases k with (_ | _) | (_ | _) | _ <;> first | rfl | exact absurd (by decide) hk

end VariablePrecision.Configuration
