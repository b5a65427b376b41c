/-
  VariablePrecision.CommandLine.Basic

  Options given as command-line tokens, for settings of any type: what an option is,
  how a value is read, and why a token may be refused.
-/

import VariablePrecision.Error
import VariablePrecision.Text.Blank

namespace VariablePrecision.CommandLine

/-! ## Refusals -/

/-- Why a token is refused. -/
inductive Refusal where
  /-- The value cannot be read, or is out of range. -/
  | invalidValue
  /-- The value is missing, or is none of those that can be chosen. -/
  | disallowedValue
  /-- The option was given before. -/
  | repeated
  /-- The option takes no value. -/
  | unexpectedValue
  /-- There is no such option. -/
  | unexpectedArgument
  /-- Help was asked for, and settings have none to give. -/
  | helpRequested
  deriving DecidableEq, Repr

/-- The wording of a refusal. -/
def Refusal.reason : Refusal → String
  | invalidValue => "invalid value for one of the arguments"
  | disallowedValue => "one of the values isn't valid for an argument"
  | repeated =>
      "an argument cannot be used with one or more of the other specified arguments"
  | unexpectedValue => "unexpected value for an argument found"
  | unexpectedArgument => "unexpected argument found"
  | helpRequested => "invalid option"

/-- A refusal with the option and the value that it is about. -/
structure Fault where
  key : String
  value : String
  refusal : Refusal
  deriving DecidableEq, Repr

/-- The failure that a fault of the command line is. -/
def Fault.toError (fault : Fault) : Error :=
  .invalidOption fault.key fault.value fault.refusal.reason

/-- The key of faults that are about no option. -/
def noKey : String := "(backend)"

/-- The key of an argument that names no option: its first word without leading dashes. -/
def keyOf (cs : List Char) : String :=
  match Text.firstWord? cs with
  | some word => .ofList (word.dropWhile (· = '-'))
  | none => noKey

/-- The fault of an argument that names no option. -/
def unexpected (cs : List Char) : Fault := ⟨keyOf cs, "", .unexpectedArgument⟩

/-! ## Options -/

/-- What an option does to settings of type `σ`. -/
inductive Action (σ : Type) where
  /-- Asks for help. -/
  | help
  /-- Changes the settings by its presence. -/
  | flag (set : σ → σ)
  /-- Changes the settings by its value.  The value may be a token of its own, which may look like
      a negative number only if `allowsNegative`. -/
  | value (allowsNegative : Bool) (set : String → Except Refusal (σ → σ))

/-- An option. -/
structure Entry (σ : Type) where
  name : String
  letter : Option Char := none
  action : Action σ

/-! ## Values -/

/-- An integer with an optional sign. -/
def integer? (text : String) : Option Int :=
  let digits? (cs : List Char) : Option Nat :=
    if cs.isEmpty || !cs.all Char.isDigit then none
    else some (cs.foldl (fun n c => 10 * n + (c.toNat - '0'.toNat)) 0)
  match text.toList with
  | '+' :: cs => (digits? cs).map fun n => (n : Int)
  | '-' :: cs => (digits? cs).map fun n => -(n : Int)
  | cs => (digits? cs).map fun n => (n : Int)

/-- The marks before an exponent. -/
def isExponentMark (c : Char) : Bool := c = 'e' || c = 'E'

/-- Whether the characters after a dash make it a negative number: digits, with at most one point
    before at most one exponent mark, neither at the start and no mark at the end. -/
def looksNumeric (cs : List Char) : Bool :=
  let whole := cs.takeWhile (!isExponentMark ·)
  let exponent := cs.dropWhile (!isExponentMark ·)
  let fraction := whole.dropWhile (· ≠ '.')
  (whole.takeWhile (· ≠ '.')).all Char.isDigit && (fraction.drop 1).all Char.isDigit &&
    (exponent.drop 1).all Char.isDigit && whole.head?.any Char.isDigit &&
    (exponent.isEmpty || 2 ≤ exponent.length)

/-- An option with an integer value between two bounds. -/
def integerEntry {σ : Type} (name : String) (low high : Int) (set : Int → σ → σ)
    (allowsNegative : Bool := false) : Entry σ where
  name := name
  action := .value allowsNegative fun text =>
    match integer? text with
    | some n => if low ≤ n ∧ n ≤ high then .ok (set n) else .error .invalidValue
    | none => .error .invalidValue

/-- An option with a value that is chosen by name, in capital or small letters. -/
def choiceEntry {σ α : Type} (name : String) (choices : List (String × α)) (set : α → σ → σ) :
    Entry σ where
  name := name
  action := .value false fun text =>
    match choices.find? fun (choice, _) => choice == text.map Char.toLower with
    | some (_, a) => .ok (set a)
    | none => .error .disallowedValue

/-- An option with a path as its value, which may not be empty. -/
def pathEntry {σ : Type} (name : String) (set : String → σ → σ) (letter : Option Char := none) :
    Entry σ where
  name := name
  letter := letter
  action := .value false fun text =>
    if text.isEmpty then .error .disallowedValue else .ok (set text)

/-- An option without a value. -/
def flagEntry {σ : Type} (name : String) (set : σ → σ) : Entry σ where
  name := name
  action := .flag set

/-- The option that asks for help. -/
def helpEntry {σ : Type} : Entry σ where
  name := "help"
  letter := some 'h'
  action := .help

end VariablePrecision.CommandLine
