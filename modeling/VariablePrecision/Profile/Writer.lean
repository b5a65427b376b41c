/-
  VariablePrecision.Profile.Writer

  Writing a profile.  Fields stand in a fixed order; an absent loop or library and an
  empty list of arguments are left out.
-/

import VariablePrecision.Json.Document
import VariablePrecision.Registry.Basic

namespace VariablePrecision.Profile

open Json (Document)

/-- A member that is left out when its value is absent. -/
def optionalMember (key : String) : Option Document → List (String × Document)
  | some d => [(key, d)]
  | none => []

/-- A word as a number. -/
def wordDocument (n : UInt32) : Document := .natural n.toNat

/-- The two members of a target. -/
def targetMembers (t : Target) : List (String × Document) :=
  [("precision", .natural t.precision), ("range", .natural t.range)]

/-- The description of an operation. -/
def operationDocument (info : OperationInfo) : Document :=
  .object ([("op", .text info.kind.name), ("data_type", .text info.dataType.name),
    ("vector_size", wordDocument info.vectorSize)] ++ targetMembers info.target)

/-- The description of a call. -/
def callDocument (info : CallInfo) : Document :=
  .object ([("callee", .text info.callee)] ++
    optionalMember "library" (info.library.map .text))

/-- The description of what a site is. -/
def kindDocument : SiteKind → Document
  | .operation info => .object [("fops", operationDocument info)]
  | .call info => .object [("call", callDocument info)]

/-- The description of an argument. -/
def argumentDocument (a : ArgumentInfo) : Document :=
  .object ([("name", .text a.name), ("size", wordDocument a.size),
    ("data_type", .text a.dataType.name)] ++ targetMembers a.target)

/-- The list of arguments, absent when there is none. -/
def argumentsDocument? (args : List ArgumentInfo) : Option Document :=
  if args.isEmpty then none else some (.list (args.map argumentDocument))

/-- The record of a site. -/
def recordDocument (r : Record) : Document :=
  .object (
    [("id", .text r.id), ("file_path", .text r.filePath), ("function", .text r.function),
      ("line", wordDocument r.line), ("column", wordDocument r.column)] ++
    optionalMember "loop_id" (r.loopId.map .text) ++
    [("depth", wordDocument r.depth), ("kind", kindDocument r.kind)] ++
    optionalMember "inputs" (argumentsDocument? r.inputs) ++
    optionalMember "outputs" (argumentsDocument? r.outputs))

/-- A whole profile. -/
def document (reg : Registry) : Document :=
  .object [("sites", .list (reg.records.map recordDocument))]

/-- The text of the profile that describes a registry. -/
def write (reg : Registry) : String := (document reg).render

end VariablePrecision.Profile
