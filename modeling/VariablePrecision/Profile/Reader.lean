/-
  VariablePrecision.Profile.Reader

  Reading a profile: a JSON object whose only known member, `sites`, lists the records
  of a registry.  Each record type has a draft with one optional component per field;
  fields that may be left out get their defaults when the draft is finished.
-/

import VariablePrecision.Json.Schema
import VariablePrecision.Registry.Basic

namespace VariablePrecision.Profile

open Json (Fault Field Reader Schema require)

/-! ## Enumerations -/

/-- The operation kinds by name. -/
def operationKind : Reader OperationKind :=
  Reader.enumeration (OperationKind.all.map fun k => (k.name, k))

/-- The data types by name. -/
def dataType : Reader DataType :=
  Reader.enumeration (DataType.all.map fun t => (t.name, t))

/-! ## Operations -/

/-- The fields of an operation that are read so far. -/
structure OperationDraft where
  kind : Option OperationKind := none
  dataType : Option DataType := none
  vectorSize : Option UInt32 := none
  precision : Option UInt32 := none
  range : Option UInt32 := none

/-- The description of an operation. -/
def operationSchema : Schema OperationDraft OperationInfo where
  name := "FopsInfo"
  empty := {}
  fields := [
    .of "op" true (·.kind) (fun d a => { d with kind := some a }) operationKind,
    .of "data_type" true (·.dataType) (fun d a => { d with dataType := some a }) dataType,
    .of "vector_size" true (·.vectorSize) (fun d a => { d with vectorSize := some a }) Reader.word,
    .of "precision" true (·.precision) (fun d a => { d with precision := some a }) Reader.word,
    .of "range" true (·.range) (fun d a => { d with range := some a }) Reader.word]
  finish d := do
    let kind ← require "op" d.kind
    let dataType ← require "data_type" d.dataType
    let vectorSize ← require "vector_size" d.vectorSize
    let precision ← require "precision" d.precision
    let range ← require "range" d.range
    return { kind, dataType, vectorSize, target := ⟨precision.toNat, range.toNat⟩ }

/-! ## Calls -/

/-- The fields of a call that are read so far. -/
structure CallDraft where
  callee : Option String := none
  library : Option (Option String) := none

/-- The description of a call. -/
def callSchema : Schema CallDraft CallInfo where
  name := "CallInfo"
  empty := {}
  fields := [
    .of "callee" true (·.callee) (fun d a => { d with callee := some a }) Reader.string,
    .of "library" false (·.library) (fun d a => { d with library := some a })
      Reader.optionalString]
  finish d := do
    let callee ← require "callee" d.callee
    return { callee, library := d.library.join }

/-! ## Arguments -/

/-- The fields of an argument that are read so far. -/
structure ArgumentDraft where
  name : Option String := none
  size : Option UInt32 := none
  dataType : Option DataType := none
  precision : Option UInt32 := none
  range : Option UInt32 := none

/-- The description of an argument. -/
def argumentSchema : Schema ArgumentDraft ArgumentInfo where
  name := "ArgInfo"
  empty := {}
  fields := [
    .of "name" true (·.name) (fun d a => { d with name := some a }) Reader.string,
    .of "size" true (·.size) (fun d a => { d with size := some a }) Reader.word,
    .of "data_type" true (·.dataType) (fun d a => { d with dataType := some a }) dataType,
    .of "precision" true (·.precision) (fun d a => { d with precision := some a }) Reader.word,
    .of "range" true (·.range) (fun d a => { d with range := some a }) Reader.word]
  finish d := do
    let name ← require "name" d.name
    let size ← require "size" d.size
    let dataType ← require "data_type" d.dataType
    let precision ← require "precision" d.precision
    let range ← require "range" d.range
    return { name, size, dataType, target := ⟨precision.toNat, range.toNat⟩ }

/-! ## Records -/

/-- The two kinds of site, without their content. -/
inductive SiteTag where
  | operation
  | call

/-- The content of a site of the given kind. -/
def siteContent : SiteTag → Reader SiteKind
  | .operation => SiteKind.operation <$> operationSchema.reader
  | .call => SiteKind.call <$> callSchema.reader

/-- What a site is: a variant with content, which no bare name can give. -/
def siteKind : Reader SiteKind :=
  Reader.variant [("fops", .operation), ("call", .call)]
    (fun _ => throw (.invalidType .unitVariant "newtype variant")) siteContent

/-- The fields of a record that are read so far. -/
structure RecordDraft where
  id : Option String := none
  filePath : Option String := none
  function : Option String := none
  line : Option UInt32 := none
  column : Option UInt32 := none
  loopId : Option (Option String) := none
  depth : Option UInt32 := none
  kind : Option SiteKind := none
  inputs : Option (List ArgumentInfo) := none
  outputs : Option (List ArgumentInfo) := none

/-- The record of a site. -/
def recordSchema : Schema RecordDraft Record where
  name := "InstructionRecord"
  empty := {}
  fields := [
    .of "id" true (·.id) (fun d a => { d with id := some a }) Reader.string,
    .of "file_path" false (·.filePath) (fun d a => { d with filePath := some a }) Reader.string,
    .of "function" false (·.function) (fun d a => { d with function := some a }) Reader.string,
    .of "line" false (·.line) (fun d a => { d with line := some a }) Reader.word,
    .of "column" false (·.column) (fun d a => { d with column := some a }) Reader.word,
    .of "loop_id" false (·.loopId) (fun d a => { d with loopId := some a })
      Reader.optionalString,
    .of "depth" false (·.depth) (fun d a => { d with depth := some a }) Reader.word,
    .of "kind" true (·.kind) (fun d a => { d with kind := some a }) siteKind,
    .of "inputs" false (·.inputs) (fun d a => { d with inputs := some a })
      (Reader.list argumentSchema.reader),
    .of "outputs" false (·.outputs) (fun d a => { d with outputs := some a })
      (Reader.list argumentSchema.reader)]
  finish d := do
    let id ← require "id" d.id
    let kind ← require "kind" d.kind
    return {
      id, kind
      filePath := d.filePath.getD ""
      function := d.function.getD ""
      line := d.line.getD 0
      column := d.column.getD 0
      loopId := d.loopId.join
      depth := d.depth.getD 0
      inputs := d.inputs.getD []
      outputs := d.outputs.getD [] }

/-! ## Profiles -/

/-- The fields of a profile that are read so far. -/
structure Draft where
  sites : Option (List Record) := none

/-- A whole profile. -/
def schema : Schema Draft (List Record) where
  name := "Profile"
  empty := {}
  fields := [
    .of "sites" true (·.sites) (fun d a => { d with sites := some a })
      (Reader.list recordSchema.reader)]
  finish d := require "sites" d.sites

/-- The records that a profile lists. -/
def records (bytes : ByteArray) : Except Fault (List Record) := schema.reader.run bytes

/-- The registry that the bytes of a profile describe.  Its records are checked once all bytes are
    read. -/
def readBytes (bytes : ByteArray) : Except Error Registry :=
  match records bytes with
  | .error fault => .error (.malformedProfile fault.message)
  | .ok rs =>
      match Registry.ofRecords rs with
      | .error fault => .error fault.toError
      | .ok reg => .ok reg

/-- The registry that the text of a profile describes. -/
def read (text : String) : Except Error Registry := readBytes text.toUTF8

end VariablePrecision.Profile
