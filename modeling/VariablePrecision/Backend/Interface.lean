/-
  VariablePrecision.Backend.Interface

  The contract between an instrumented program and its backends: a table of hooks, any
  of which may be missing.  A hook gives its answer together with the backend as it is
  afterwards, so the table of a backend type is also one of every type that embeds it.
-/

import VariablePrecision.Argument
import VariablePrecision.CallStack
import VariablePrecision.Files.Basic
import VariablePrecision.Predicate

namespace VariablePrecision

/-- A hook of an operation, from the two operands, the result so far, and the site. -/
abbrev BinaryHook (f : Format) (β : Type) : Type :=
  Binary f → Binary f → Binary f → Option String → Except Error (Binary f × β)

/-- A hook of a comparison, from the predicate, the two operands, the result so far, and the
    site. -/
abbrev CompareHook (f : Format) (β : Type) : Type :=
  Predicate → Binary f → Binary f → Bool → Option String → Except Error (Bool × β)

/-- A hook of an end of a call, from the call stack, the site, and the arguments.  It may write
    into files. -/
abbrev CallHook (β : Type) : Type :=
  CallStack → Option String → List Argument → FileAction (List Argument × β)

/-- A hook of the end of the program. -/
abbrev FinalizeHook (β : Type) : Type := FileAction β

/-- The hooks of a backend. -/
structure Interface (β : Type) where
  binary : (f : Format) → Operation → Option (BinaryHook f β) := fun _ _ => none
  compare : (f : Format) → Option (CompareHook f β) := fun _ => none
  call : Crossing → Option (CallHook β) := fun _ => none
  finalize : Option (FinalizeHook β) := none

namespace Interface

variable {α β : Type}

/-- The table without hooks. -/
def empty : Interface β := {}

/-- The table of a backend that is embedded in a larger type. -/
def map (embed : α → β) (i : Interface α) : Interface β where
  binary f op := (i.binary f op).map fun hook x y res site =>
    (hook x y res site).map (Prod.map id embed)
  compare f := (i.compare f).map fun hook p x y res site =>
    (hook p x y res site).map (Prod.map id embed)
  call c := (i.call c).map fun hook stack site arguments =>
    Prod.map id embed <$> hook stack site arguments
  finalize := i.finalize.map fun hook => embed <$> hook

/-- The names of all hooks, and whether they are there. -/
def presence (i : Interface β) : List (String × Bool) :=
  [("add_f32", (i.binary .binary32 .add).isSome), ("sub_f32", (i.binary .binary32 .sub).isSome),
    ("mul_f32", (i.binary .binary32 .mul).isSome), ("div_f32", (i.binary .binary32 .div).isSome),
    ("cmp_f32", (i.compare .binary32).isSome),
    ("add_f64", (i.binary .binary64 .add).isSome), ("sub_f64", (i.binary .binary64 .sub).isSome),
    ("mul_f64", (i.binary .binary64 .mul).isSome), ("div_f64", (i.binary .binary64 .div).isSome),
    ("cmp_f64", (i.compare .binary64).isSome), ("enter_function", (i.call .enter).isSome),
    ("exit_function", (i.call .exit).isSome), ("finalize", i.finalize.isSome)]

/-- The table in one line. -/
def describe (i : Interface β) : String :=
  "Interface \x7b " ++
    ", ".intercalate (i.presence.map fun (name, present) => name ++ ": " ++ toString present) ++
    " \x7d"

end Interface

/-- A type of backends. -/
class Instrument (β : Type) where
  /-- The hooks of a backend. -/
  interface : β → Interface β
  /-- The files once the backend is gone. -/
  close : β → Files → Files

/-- Backends of one of two types. -/
instance {α β : Type} [Instrument α] [Instrument β] : Instrument (α ⊕ β) where
  interface
    | .inl a => (Instrument.interface a).map .inl
    | .inr b => (Instrument.interface b).map .inr
  close
    | .inl a => Instrument.close a
    | .inr b => Instrument.close b

end VariablePrecision
