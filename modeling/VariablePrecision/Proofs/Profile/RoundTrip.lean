/-
  VariablePrecision.Proofs.Profile.RoundTrip

  A profile that was written is read back as the same registry.

  Each part of a record has a schema to read it and a document to write it; the two
  agree member by member, where a member that was left out leaves its field at the
  default.  The records that are read are those that were written, so they pass again
  the checks they have passed before.
-/

import VariablePrecision.Profile.Reader
import VariablePrecision.Profile.Writer
import VariablePrecision.Proofs.Json.Layout
import VariablePrecision.Proofs.Registry.Construction

namespace VariablePrecision.Profile

open Json
open Json.Document
open Json.Schema (restores_nil restores_cons recovers_object)

/-! ## Parts of a record -/

theorem decodes_width {n : Nat} (h : n < UInt32.size) :
    Decodes Reader.word (.natural n) (UInt32.ofNat n) := by
  have hword := decodes_word (UInt32.ofNat n)
  rwa [UInt32.toNat_ofNat_of_lt' h] at hword

theorem recovers_width {n : Nat} (h : n < UInt32.size) :
    (Document.natural n).Recovers Reader.word (UInt32.ofNat n) :=
  ⟨_, denotes_natural n, decodes_width h⟩

/-- The names of the operation kinds are told apart. -/
theorem lookup_operationKind (k : OperationKind) :
    (OperationKind.all.map fun k => (k.name, k)).lookup k.name = some k := by
  cases k with
  | arithmetic op => cases op <;> rfl
  | comparison => rfl

theorem recovers_operationKind (k : OperationKind) :
    (Document.text k.name).Recovers operationKind k :=
  recovers_enumeration (lookup_operationKind k)

/-- The names of the data types are told apart. -/
theorem lookup_dataType (t : DataType) :
    (DataType.all.map fun t => (t.name, t)).lookup t.name = some t := by
  cases t with
  | scalar f => cases f <;> rfl
  | array f => cases f <;> rfl

theorem recovers_dataType (t : DataType) : (Document.text t.name).Recovers dataType t :=
  recovers_enumeration (lookup_dataType t)

/-- Both widths of the target fit a word. -/
theorem widths_lt {f : Format} {t : Target} (h : t.Valid f) :
    t.precision < UInt32.size ∧ t.range < UInt32.size := by
  have hp := h.precision_le
  have hr := h.range_le
  cases f <;> exact ⟨Nat.lt_of_le_of_lt hp (by decide), Nat.lt_of_le_of_lt hr (by decide)⟩

/-- A target is its two widths, read as words. -/
theorem target_eq {t : Target} (h : t.precision < UInt32.size ∧ t.range < UInt32.size) :
    (⟨(UInt32.ofNat t.precision).toNat, (UInt32.ofNat t.range).toNat⟩ : Target) = t := by
  rw [UInt32.toNat_ofNat_of_lt' h.1, UInt32.toNat_ofNat_of_lt' h.2]

theorem recovers_operation {info : OperationInfo}
    (h : info.target.Valid info.dataType.format) :
    (operationDocument info).Recovers operationSchema.reader info := by
  have hw := widths_lt h
  refine recovers_object (restores_cons rfl rfl (recovers_operationKind info.kind)
    (restores_cons rfl rfl (recovers_dataType info.dataType)
    (restores_cons rfl rfl (recovers_word info.vectorSize)
    (restores_cons rfl rfl (recovers_width hw.1)
    (restores_cons rfl rfl (recovers_width hw.2) (restores_nil _)))))) ?_
  show Except.ok _ = Except.ok info
  rw [target_eq hw]

theorem recovers_argument {a : ArgumentInfo} (h : a.target.Valid a.dataType.format) :
    (argumentDocument a).Recovers argumentSchema.reader a := by
  have hw := widths_lt h
  refine recovers_object (restores_cons rfl rfl (recovers_text a.name)
    (restores_cons rfl rfl (recovers_word a.size)
    (restores_cons rfl rfl (recovers_dataType a.dataType)
    (restores_cons rfl rfl (recovers_width hw.1)
    (restores_cons rfl rfl (recovers_width hw.2) (restores_nil _)))))) ?_
  show Except.ok _ = Except.ok a
  rw [target_eq hw]

theorem recovers_call (info : CallInfo) :
    (callDocument info).Recovers callSchema.reader info := by
  obtain ⟨callee, library⟩ := info
  cases library with
  | none =>
    exact recovers_object (restores_cons rfl rfl (recovers_text callee) (restores_nil _)) rfl
  | some library =>
    exact recovers_object (restores_cons rfl rfl (recovers_text callee)
      (restores_cons rfl rfl (recovers_optionalText library) (restores_nil _))) rfl

/-! ## Members that may be left out -/

/-- A member that may be left out restores its field, if it is there. -/
theorem restores_optionalMember {α σ γ : Type} {s : Schema σ α} {key : String} {required : Bool}
    {get : σ → Option γ} {set : σ → γ → σ} {value : Reader γ} {d : σ} {doc : Option Document}
    {c : Option γ} (put : Option γ → σ) (hnone : put none = d) (hsome : ∀ c, put (some c) = set d c)
    (hf : s.fields.find? (·.name == key) = some (.of key required get set value))
    (hget : get d = none) (h : Option.Rel (fun doc c => doc.Recovers value c) doc c) :
    s.Restores (optionalMember key doc) d (put c) := by
  cases h with
  | some hdoc =>
    rw [hsome]
    exact restores_cons hf hget hdoc (restores_nil _)
  | none =>
    rw [hnone]
    exact restores_nil d

/-- The arguments as far as they are written: an empty list is left out. -/
def listed (args : List ArgumentInfo) : Option (List ArgumentInfo) :=
  if args.isEmpty then none else some args

theorem listed_getD (args : List ArgumentInfo) : (listed args).getD [] = args := by
  cases args <;> rfl

theorem recovers_arguments {args : List ArgumentInfo}
    (h : ∀ a ∈ args, a.target.Valid a.dataType.format) :
    Option.Rel (fun doc as => doc.Recovers (Reader.list argumentSchema.reader) as)
      (argumentsDocument? args) (listed args) := by
  have hlist := recovers_list fun a ha => recovers_argument (h a ha)
  rw [List.map_id'] at hlist
  cases args with
  | nil => exact .none
  | cons a args => exact .some hlist

theorem recovers_loop (loopId : Option String) :
    Option.Rel (fun doc c => doc.Recovers Reader.optionalString c)
      (loopId.map Document.text) (loopId.map some) := by
  cases loopId with
  | none => exact .none
  | some loop => exact .some (recovers_optionalText loop)

/-! ## Records -/

theorem recovers_kind {r : Record} (h : r.Valid) :
    (kindDocument r.kind).Recovers siteKind r.kind := by
  cases hk : r.kind with
  | operation info =>
    obtain ⟨v, hdenotes, hdecodes⟩ := recovers_operation (h.operation hk)
    exact recovers_variant rfl ⟨v, hdenotes, hdecodes.map _⟩
  | call info =>
    obtain ⟨v, hdenotes, hdecodes⟩ := recovers_call info
    exact recovers_variant rfl ⟨v, hdenotes, hdecodes.map _⟩

/-- A valid record is read back from what is written for it. -/
theorem recovers_record {r : Record} (h : r.Valid) :
    (recordDocument r).Recovers recordSchema.reader r := by
  have hin := recovers_arguments fun a ha => h.argument (List.mem_append_left _ ha)
  have hout := recovers_arguments fun a ha => h.argument (List.mem_append_right _ ha)
  -- the drafts before and behind each member that may be left out
  let place : RecordDraft :=
    { id := some r.id, filePath := some r.filePath, function := some r.function,
      line := some r.line, column := some r.column }
  let loop : RecordDraft := { place with loopId := r.loopId.map some }
  let kind : RecordDraft := { loop with depth := some r.depth, kind := some r.kind }
  let inputs : RecordDraft := { kind with inputs := listed r.inputs }
  let outputs : RecordDraft := { inputs with outputs := listed r.outputs }
  have hplace : recordSchema.Restores
      [("id", .text r.id), ("file_path", .text r.filePath), ("function", .text r.function),
        ("line", wordDocument r.line), ("column", wordDocument r.column)] {} place :=
    restores_cons rfl rfl (recovers_text r.id)
      (restores_cons rfl rfl (recovers_text r.filePath)
      (restores_cons rfl rfl (recovers_text r.function)
      (restores_cons rfl rfl (recovers_word r.line)
      (restores_cons rfl rfl (recovers_word r.column) (restores_nil _)))))
  have hloop : recordSchema.Restores (optionalMember "loop_id" (r.loopId.map .text)) place loop :=
    restores_optionalMember (fun c => { place with loopId := c }) rfl (fun _ => rfl) rfl rfl
      (recovers_loop r.loopId)
  have hkind : recordSchema.Restores
      [("depth", wordDocument r.depth), ("kind", kindDocument r.kind)] loop kind :=
    restores_cons rfl rfl (recovers_word r.depth)
      (restores_cons rfl rfl (recovers_kind h) (restores_nil _))
  have hinputs : recordSchema.Restores (optionalMember "inputs" (argumentsDocument? r.inputs))
      kind inputs :=
    restores_optionalMember (fun c => { kind with inputs := c }) rfl (fun _ => rfl) rfl rfl hin
  have houtputs : recordSchema.Restores (optionalMember "outputs" (argumentsDocument? r.outputs))
      inputs outputs :=
    restores_optionalMember (fun c => { inputs with outputs := c }) rfl (fun _ => rfl) rfl rfl hout
  refine recovers_object ((((hplace.append hloop).append hkind).append hinputs).append houtputs) ?_
  have hjoin : (r.loopId.map some).join = r.loopId := by cases r.loopId <;> rfl
  show Except.ok { r with
    loopId := (r.loopId.map some).join
    inputs := (listed r.inputs).getD []
    outputs := (listed r.outputs).getD [] } = Except.ok r
  rw [hjoin, listed_getD, listed_getD]

/-! ## Profiles -/

theorem recovers_document (reg : Registry) :
    (document reg).Recovers schema.reader reg.records := by
  have hlist := recovers_list fun r hr => recovers_record (reg.valid r hr)
  rw [List.map_id'] at hlist
  exact recovers_object (restores_cons rfl rfl hlist (restores_nil _)) rfl

/-- The profile of a registry that was built from records is read back as that registry, with
    the same records in the same order. -/
theorem read_write {records : List Record} {reg : Registry}
    (h : Registry.ofRecords records = .ok reg) :
    read (write reg) = .ok reg ∧ reg.records = records := by
  refine ⟨?_, Registry.records_of_ofRecords h⟩
  have hrecords : Profile.records (write reg).toUTF8 = .ok reg.records :=
    (recovers_document reg).run_render
  unfold read readBytes
  rw [hrecords]
  simp only [Registry.ofRecords_records]

/-- An operation in a loop and a call with a result, whose names need escapes. -/
def untidyRecords : List Record :=
  [{ id := "kernel/\"dot\"\\3\n", filePath := "é\u0001\t", line := 4294967295, loopId := some "",
     kind := .operation ⟨.comparison, .array .binary64, 4, ⟨52, 11⟩⟩ },
   { id := "", depth := 7, kind := .call ⟨"𝛿\r", some "lib\u0000"⟩,
     outputs := [⟨"\u007f/", 0, .scalar .binary32, ⟨1, 2⟩⟩] }]

theorem read_write_untidy : ∃ reg, Registry.ofRecords untidyRecords = .ok reg ∧
    read (write reg) = .ok reg ∧ reg.records = untidyRecords := by
  obtain ⟨reg, hreg⟩ := Registry.exists_ofRecords
    (show Registry.firstFault? [] untidyRecords = none by decide +kernel)
  exact ⟨reg, hreg, read_write hreg⟩

end VariablePrecision.Profile
