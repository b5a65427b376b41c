/-
  VariablePrecision.Registry.Record

  What a profile says about one site of a program: where it is, whether it is an
  operation or a call, and the target formats of its values.
-/

import VariablePrecision.Operation
import VariablePrecision.Target

namespace VariablePrecision

/-- The type of a value of the program: one number of a format, or an array of them. -/
inductive DataType where
  | scalar (f : Format)
  | array (f : Format)
  deriving DecidableEq, Repr

namespace DataType

/-- The format of the numbers. -/
def format : DataType → Format
  | scalar f => f
  | array f => f

/-- The name by which profiles call the type. -/
def name : DataType → String
  | scalar .binary32 => "float"
  | scalar .binary64 => "double"
  | array .binary32 => "float_ptr"
  | array .binary64 => "double_ptr"

/-- All types. -/
def all : List DataType :=
  [scalar .binary32, scalar .binary64, array .binary32, array .binary64]

end DataType

/-- What an operation site does. -/
inductive OperationKind where
  | arithmetic (op : Operation)
  | comparison
  deriving DecidableEq, Repr

namespace OperationKind

/-- The name by which profiles call the operation. -/
def name : OperationKind → String
  | arithmetic .add => "add"
  | arithmetic .sub => "sub"
  | arithmetic .mul => "mul"
  | arithmetic .div => "div"
  | comparison => "cmp"

/-- All kinds. -/
def all : List OperationKind := Operation.all.map arithmetic ++ [comparison]

/-- The arithmetic operation of the kind; a comparison has none. -/
def operation (kind : OperationKind) : Except Error Operation :=
  match kind with
  | arithmetic op => .ok op
  | comparison => .error (.unknownOperator kind.name)

end OperationKind

/-- What a profile says about an operation. -/
structure OperationInfo where
  kind : OperationKind
  dataType : DataType
  vectorSize : UInt32 := 1
  target : Target
  deriving DecidableEq, Repr

/-- What a profile says about a call. -/
structure CallInfo where
  callee : String
  library : Option String := none
  deriving DecidableEq, Repr

/-- What a profile says about one argument or result of a call. -/
structure ArgumentInfo where
  name : String
  size : UInt32
  dataType : DataType
  target : Target
  deriving DecidableEq, Repr

/-- The two kinds of site. -/
inductive SiteKind where
  | operation (info : OperationInfo)
  | call (info : CallInfo)
  deriving DecidableEq, Repr

/-- What a profile says about a site. -/
structure Record where
  id : String
  filePath : String := ""
  function : String := ""
  line : UInt32 := 0
  column : UInt32 := 0
  loopId : Option String := none
  depth : UInt32 := 0
  kind : SiteKind
  inputs : List ArgumentInfo := []
  outputs : List ArgumentInfo := []
  deriving DecidableEq, Repr

namespace Record

/-- The description of the operation, if the site is one. -/
def operation? (r : Record) : Option OperationInfo :=
  match r.kind with
  | .operation info => some info
  | .call _ => none

/-- The description of the call, if the site is one. -/
def call? (r : Record) : Option CallInfo :=
  match r.kind with
  | .operation _ => none
  | .call info => some info

/-! ## Targets -/

/-- A part of a record that has a target. -/
inductive Part where
  | operation
  | argument (name : String)
  deriving DecidableEq, Repr

/-- How messages call the part. -/
def Part.describe : Part → String
  | operation => "operation"
  | argument name => "argument " ++ name

/-- A target of a record, with the part that has it and the format it is emulated in. -/
structure Use where
  part : Part
  format : Format
  target : Target
  deriving DecidableEq, Repr

/-- The target of an argument. -/
def Use.ofArgument (a : ArgumentInfo) : Use := ⟨.argument a.name, a.dataType.format, a.target⟩

/-- All targets of a record, in the order in which they are checked. -/
def uses (r : Record) : List Use :=
  (r.operation?.map fun info => ⟨.operation, info.dataType.format, info.target⟩).toList ++
    (r.inputs ++ r.outputs).map Use.ofArgument

/-- A record whose targets can all be emulated in the formats of their values. -/
def Valid (r : Record) : Prop := ∀ u ∈ r.uses, u.target.Valid u.format

/-- The first target that is out of bounds. -/
def fault? (r : Record) : Option (Use × Target.Fault) :=
  r.uses.findSome? fun u => (u.target.fault? u.format).map fun fault => (u, fault)

theorem fault?_eq_none_iff {r : Record} : r.fault? = none ↔ r.Valid := by
  simp [fault?, Valid, List.findSome?_eq_none_iff, Target.fault?_eq_none_iff]

end Record

end VariablePrecision
