/-
  VariablePrecision.Context

  How values are rounded, apart from the target format: which error is bounded, and
  which values below the normal range of the target are flushed to zero.
-/

namespace VariablePrecision

/-- Which error of a rounding is bounded. -/
inductive ErrorMode where
  /-- The relative error, by the precision of the target. -/
  | relative
  /-- The absolute error, by a power of two. -/
  | absolute
  /-- Both errors. -/
  | combined
  deriving DecidableEq, Repr

/-- The name by which settings and messages call the mode. -/
def ErrorMode.name : ErrorMode → String
  | relative => "rel"
  | absolute => "abs"
  | combined => "all"

/-- An error mode with the exponent of the absolute bound. -/
structure ErrorPolicy where
  mode : ErrorMode := .relative
  /-- The absolute error is bounded by two to this power; unused in the relative mode. -/
  absoluteExponent : Int := -1022
  deriving DecidableEq, Repr

/-- The absolute error is bounded. -/
def ErrorPolicy.boundsAbsolute (policy : ErrorPolicy) : Bool :=
  match policy.mode with
  | .relative => false
  | .absolute | .combined => true

/-- On which side of an operation or call a value stands. -/
inductive Side where
  | operand
  | result
  deriving DecidableEq, Repr

/-- The rounding rules that do not depend on the target. -/
structure Context where
  policy : ErrorPolicy := {}
  /-- Operands below the normal range of the target become zero. -/
  daz : Bool := false
  /-- Results below the normal range of the target become zero. -/
  ftz : Bool := false
  deriving DecidableEq, Repr

/-- Values below the normal range are flushed on the given side. -/
def Context.flushes (ctx : Context) : Side → Bool
  | .operand => ctx.daz
  | .result => ctx.ftz

end VariablePrecision
