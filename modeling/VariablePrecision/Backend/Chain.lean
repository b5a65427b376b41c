/-
  VariablePrecision.Backend.Chain

  Several backends behind one program.  Every event is forwarded to each backend that
  has a hook for it, in the order in which they were loaded, and each sees the answer of
  those before it.  The chain keeps the call stack: a call is open while its entry and
  its exit are handled.

  The first backend that refuses an event ends the program.  What the backends before it
  have put into files by then stays there.
-/

import VariablePrecision.Backend.Interface

namespace VariablePrecision

/-- A backend with the name it was loaded under. -/
structure Loaded (β : Type) where
  name : String
  backend : β

namespace Loaded

variable {β : Type} [Instrument β] {f : Format}

/-- The hooks of the backend. -/
def interface (l : Loaded β) : Interface β := Instrument.interface l.backend

/-- The same name with another backend. -/
def replace (l : Loaded β) (b : β) : Loaded β := { l with backend := b }

/-- Forwards an operation. -/
def binary (l : Loaded β) (op : Operation) (x y : Binary f) (site : Option String)
    (res : Binary f) : Except Error (Binary f × Loaded β) :=
  match l.interface.binary f op with
  | some hook => (hook x y res site).map (Prod.map id l.replace)
  | none => .ok (res, l)

/-- Forwards a comparison. -/
def compare (l : Loaded β) (p : Predicate) (x y : Binary f) (site : Option String)
    (res : Bool) : Except Error (Bool × Loaded β) :=
  match l.interface.compare f with
  | some hook => (hook p x y res site).map (Prod.map id l.replace)
  | none => .ok (res, l)

/-- Forwards an end of a call. -/
def cross (l : Loaded β) (crossing : Crossing) (stack : CallStack) (site : Option String)
    (arguments : List Argument) : FileAction (List Argument × Loaded β) :=
  match l.interface.call crossing with
  | some hook => Prod.map id l.replace <$> hook stack site arguments
  | none => pure (arguments, l)

/-- Forwards the end of the program. -/
def finalize (l : Loaded β) : FileAction (Loaded β) :=
  match l.interface.finalize with
  | some hook => l.replace <$> hook
  | none => pure l

end Loaded

/-- A stack of backends, the first one loaded first, with the call stack that they share. -/
structure Chain (β : Type) where
  backends : List (Loaded β) := []
  stack : CallStack := .empty

namespace Chain

variable {β : Type} [Instrument β] {f : Format}

/-- The chain with one more backend at its end. -/
def push (c : Chain β) (l : Loaded β) : Chain β := { c with backends := c.backends ++ [l] }

/-- The number of backends. -/
def size (c : Chain β) : Nat := c.backends.length

/-- There is no backend. -/
def isEmpty (c : Chain β) : Bool := c.backends.isEmpty

/-- The names of the backends. -/
def names (c : Chain β) : List String := c.backends.map Loaded.name

/-- Passes an answer through all backends, each giving the next answer. -/
def thread {σ : Type} {m : Type → Type} [Monad m] (step : Loaded β → σ → m (σ × Loaded β)) :
    List (Loaded β) → σ → m (σ × List (Loaded β))
  | [], s => return (s, [])
  | l :: rest, s => do
      let (s, l) ← step l s
      let (s, rest) ← thread step rest s
      return (s, l :: rest)

/-- An operation, natively and then in every backend. -/
def binary (c : Chain β) (op : Operation) (x y : Binary f) (site : Option String) :
    Except Error (Binary f × Chain β) := do
  let (res, backends) ← thread (·.binary op x y site) c.backends (op.apply x y)
  return (res, { c with backends })

/-- A comparison, natively and then in every backend. -/
def compare (c : Chain β) (p : Predicate) (x y : Binary f) (site : Option String) :
    Except Error (Bool × Chain β) := do
  let (res, backends) ← thread (·.compare p x y site) c.backends (p.evaluate x y)
  return (res, { c with backends })

/-- The entry of a call: it is opened first. -/
def enter (c : Chain β) (site : Option String) (arguments : List Argument) :
    FileAction (List Argument × Chain β) := do
  let stack := c.stack.push (siteText site)
  let (arguments, backends) ← thread (·.cross .enter stack site) c.backends arguments
  return (arguments, { backends, stack })

/-- The exit of a call: it is closed last. -/
def exit (c : Chain β) (site : Option String) (arguments : List Argument) :
    FileAction (List Argument × Chain β) := do
  let (arguments, backends) ← thread (·.cross .exit c.stack site) c.backends arguments
  return (arguments, { backends, stack := c.stack.pop.2 })

/-- The end of the program. -/
def finalize (c : Chain β) : FileAction (Chain β) := do
  return { c with backends := ← c.backends.mapM Loaded.finalize }

/-- The files once the backends are gone, the first one first. -/
def close (c : Chain β) (files : Files) : Files :=
  c.backends.foldl (fun files l => Instrument.close l.backend files) files

end Chain

end VariablePrecision
