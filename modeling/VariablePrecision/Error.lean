/-
  VariablePrecision.Error

  The failures that the library reports, each with the data that explains it, and
  their wording.
-/

import VariablePrecision.Files.Path
import VariablePrecision.Format

namespace VariablePrecision

/-- A failure. -/
inductive Error where
  /-- A setting has a value that it cannot take. -/
  | invalidOption (key value reason : String)
  /-- A profile cannot be read, or describes no registry. -/
  | malformedProfile (detail : String)
  /-- No site of the wanted kind has this identifier. -/
  | unknownSite (site : Option String)
  /-- The text names no operation. -/
  | unknownOperator (symbol : String)
  /-- A call site describes fewer arguments than were passed. -/
  | argumentMismatch (site : String) (index : Nat)
  /-- A site describes values of another format. -/
  | formatMismatch (site : String) (registered found : Format)
  /-- A registry is needed and none was given. -/
  | missingRegistry
  /-- The path leads to no file, or to no place where one could be made. -/
  | unusablePath (path : String) (fault : PathFault)
  deriving DecidableEq, Repr

/-- How a site that may be absent is written in messages and logs. -/
def siteText (site : Option String) : String := site.getD "(null)"

namespace Error

/-- The wording of a failure. -/
def message : Error → String
  | invalidOption key value reason =>
      "--" ++ key ++ " invalid value provided (" ++ value ++ "): " ++ reason
  | malformedProfile detail => "malformed profile: " ++ detail
  | unknownSite site => "the site " ++ siteText site ++ " cannot be found in the map"
  | unknownOperator symbol => "invalid operator " ++ symbol
  | argumentMismatch site index =>
      "the site " ++ site ++ " has no metadata for argument " ++ toString index
  | formatMismatch site registered found =>
      "the site " ++ site ++ " is registered as " ++ registered.name ++
        " but was reached with " ++ found.name
  | missingRegistry => "this backend cannot work without the compiler profile"
  | unusablePath path fault => path ++ ": " ++ fault.reason

/-- Values of the format `found` may only reach a site that registers that format. -/
def checkFormat (site : Option String) (registered found : Format) : Except Error Unit :=
  if registered = found then .ok ()
  else .error (formatMismatch (siteText site) registered found)

theorem checkFormat_eq_ok_iff {site : Option String} {registered found : Format} {u : Unit} :
    checkFormat site registered found = .ok u ↔ registered = found := by
  rw [checkFormat]
  split
  · next h => exact iff_of_true rfl h
  · next h => exact iff_of_false (by simp) h

end Error

/-- A computation in two steps succeeds only if both do. -/
theorem bind_eq_ok_iff {ε α β : Type} {r : Except ε α} {g : α → Except ε β} {b : β} :
    (r >>= g) = .ok b ↔ ∃ a, r = .ok a ∧ g a = .ok b := by
  constructor
  · intro h
    cases r with
    | error e => contradiction
    | ok a => exact ⟨a, rfl, h⟩
  · rintro ⟨a, rfl, h⟩
    exact h

end VariablePrecision
