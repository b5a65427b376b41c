/-
  VariablePrecision.CallStack

  The calls of the instrumented program that are open.  Only so many sites are kept;
  deeper calls are counted, so that the depth stays right and the sites below are
  intact when the program comes back to them.
-/

import VariablePrecision.Error

namespace VariablePrecision

/-- The number of sites that a call stack keeps. -/
def callStackCapacity : Nat := 4096

/-- The open calls. -/
structure CallStack where
  /-- The sites that are kept, the outermost call first. -/
  sites : Array String := #[]
  /-- The number of calls above them. -/
  dropped : Nat := 0
  size_le : sites.size ≤ callStackCapacity
  full : 0 < dropped → sites.size = callStackCapacity
  deriving DecidableEq, Repr

namespace CallStack

/-- No call is open. -/
def empty : CallStack where
  size_le := by decide
  full := by decide

/-- The number of open calls. -/
def depth (s : CallStack) : Nat := s.sites.size + s.dropped

/-- The innermost site that is kept. -/
def top? (s : CallStack) : Option String := s.sites.back?

/-- Opens a call. -/
def push (s : CallStack) (site : String) : CallStack :=
  if h : s.sites.size < callStackCapacity then
    { sites := s.sites.push site
      dropped := 0
      size_le := by simp only [Array.size_push]; omega
      full := by simp }
  else
    { sites := s.sites
      dropped := s.dropped + 1
      size_le := s.size_le
      full := fun _ => by have := s.size_le; omega }

/-- Closes a call, and gives its site if it was kept. -/
def pop (s : CallStack) : Option String × CallStack :=
  if h : 0 < s.dropped then
    (none, { s with dropped := s.dropped - 1, full := fun _ => s.full h })
  else
    (s.sites.back?,
      { sites := s.sites.pop
        dropped := 0
        size_le := by have := s.size_le; simp only [Array.size_pop]; omega
        full := by simp })

end CallStack

end VariablePrecision
