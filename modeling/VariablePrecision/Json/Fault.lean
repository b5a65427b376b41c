/-
  VariablePrecision.Json.Fault

  What can be wrong with a JSON text that is read into a known structure, and the
  wording of each fault.  A reader stops at the first fault of the text.
-/

import VariablePrecision.Decimal.Notation
import VariablePrecision.Text.Quoted

namespace VariablePrecision

/-- Reports write the fewest digits that read back, a half going to the even digit.  Exponents
    of the leading digit from -5 to 15 are written positionally, others with a signed exponent. -/
def reportNotation : Decimal.Notation where
  tie := .even
  positionalFrom := -5
  positionalBelow := 16
  exponentPlus := true
  nanText := "NaN"
  infinityText := "inf"

namespace Json

/-- What was met where something else was expected. -/
inductive Found where
  | null
  | boolean (b : Bool)
  | integer (n : Int)
  | real (x : Binary .binary64)
  | text (s : String)
  | sequence
  | map
  | unitVariant
  deriving DecidableEq, Repr

/-- How messages describe what was met. -/
def Found.describe : Found → String
  | null => "null"
  | boolean true => "boolean `true`"
  | boolean false => "boolean `false`"
  | integer n => "integer `" ++ toString n ++ "`"
  | real x => "floating point `" ++ reportNotation.render x ++ "`"
  | text s => "string " ++ Text.quoted s
  | sequence => "sequence"
  | map => "map"
  | unitVariant => "unit variant"

/-- The first fault of a text. -/
inductive Fault where
  | endOfValue
  | endOfList
  | endOfObject
  | endOfText
  | expectedColon
  | expectedListCommaOrEnd
  | expectedObjectCommaOrEnd
  | expectedLiteral
  | expectedValue
  | invalidEscape
  | invalidNumber
  | invalidUnicode
  | numberOutOfRange
  | controlCharacter
  | keyMustBeText
  | loneSurrogate
  | unpairedSurrogate
  | trailingComma
  | trailingCharacters
  | invalidType (found : Found) (expected : String)
  | invalidValue (found : Found) (expected : String)
  | invalidLength (length : Nat) (expected : String)
  | missingField (name : String)
  | duplicateField (name : String)
  | unknownVariant (name : String) (known : List String)
  deriving DecidableEq, Repr

/-- A name between backquotes. -/
def backquoted (name : String) : String := "`" ++ name ++ "`"

/-- The choice among variants: a pair with `or`, more as a list. -/
def oneOf : List String → String
  | [] => "there are no variants"
  | [a] => backquoted a
  | [a, b] => backquoted a ++ " or " ++ backquoted b
  | names => "one of " ++ ", ".intercalate (names.map backquoted)

/-- The wording of a fault. -/
def Fault.message : Fault → String
  | endOfValue => "EOF while parsing a value"
  | endOfList => "EOF while parsing a list"
  | endOfObject => "EOF while parsing an object"
  | endOfText => "EOF while parsing a string"
  | expectedColon => "expected `:`"
  | expectedListCommaOrEnd => "expected `,` or `]`"
  | expectedObjectCommaOrEnd => "expected `,` or `\x7d`"
  | expectedLiteral => "expected ident"
  | expectedValue => "expected value"
  | invalidEscape => "invalid escape"
  | invalidNumber => "invalid number"
  | invalidUnicode => "invalid unicode code point"
  | numberOutOfRange => "number out of range"
  | controlCharacter => "control character (\\u0000-\\u001F) found while parsing a string"
  | keyMustBeText => "key must be a string"
  | loneSurrogate => "lone leading surrogate in hex escape"
  | unpairedSurrogate => "unexpected end of hex escape"
  | trailingComma => "trailing comma"
  | trailingCharacters => "trailing characters"
  | invalidType found expected => "invalid type: " ++ found.describe ++ ", expected " ++ expected
  | invalidValue found expected => "invalid value: " ++ found.describe ++ ", expected " ++ expected
  | invalidLength length expected =>
      "invalid length " ++ toString length ++ ", expected " ++ expected
  | missingField name => "missing field " ++ backquoted name
  | duplicateField name => "duplicate field " ++ backquoted name
  | unknownVariant name known =>
      "unknown variant " ++ backquoted name ++ ", expected " ++ oneOf known

end Json

end VariablePrecision
