/-
  VariablePrecision.Proofs.Profile.Content

  Reading a profile depends on its content only.

  `Renders reg v` says that the value `v` is a profile of the registry: each object gives
  the fields of its part in any order, without some that have their default and with any
  others beside them.  Each part of a record has its slots and its drafts; together with
  the spellings of values, which leave blanks and escapes open, they reach every text of
  the profile.
-/

import VariablePrecision.Proofs.Json.Members
import VariablePrecision.Proofs.Profile.RoundTrip

namespace VariablePrecision.Profile

open Json
open Json.Reader (blanks_nil)
open Json.Schema (Drafts setsSlot_of setsSlot_defaulted)

/-! ## Slots -/

/-- The fields of an operation. -/
def operationSlots (info : OperationInfo) : List Slot := [
  .required "op" (.text info.kind.name),
  .required "data_type" (.text info.dataType.name),
  .required "vector_size" (.natural info.vectorSize.toNat),
  .required "precision" (.natural info.target.precision),
  .required "range" (.natural info.target.range)]

/-- The fields of a call. -/
def callSlots (info : CallInfo) : List Slot := [
  .required "callee" (.text info.callee),
  .optionalText "library" info.library]

/-- The fields of an argument. -/
def argumentSlots (a : ArgumentInfo) : List Slot := [
  .required "name" (.text a.name),
  .required "size" (.natural a.size.toNat),
  .required "data_type" (.text a.dataType.name),
  .required "precision" (.natural a.target.precision),
  .required "range" (.natural a.target.range)]

/-- What a site is, under the name of its kind. -/
inductive RendersKind : SiteKind → Value → Prop
  | operation {info : OperationInfo} {v : Value} (h : ObjectOf (operationSlots info) v) :
      RendersKind (.operation info) (.object [("fops", v)])
  | call {info : CallInfo} {v : Value} (h : ObjectOf (callSlots info) v) :
      RendersKind (.call info) (.object [("call", v)])

/-- Arguments, in their order. -/
def RendersArguments : List ArgumentInfo → Value → Prop :=
  ListOf fun a => ObjectOf (argumentSlots a)

/-- The fields of a record. -/
def recordSlots (r : Record) : List Slot := [
  .required "id" (.text r.id),
  .defaulted "file_path" (.text r.filePath) (r.filePath = ""),
  .defaulted "function" (.text r.function) (r.function = ""),
  .defaulted "line" (.natural r.line.toNat) (r.line = 0),
  .defaulted "column" (.natural r.column.toNat) (r.column = 0),
  .optionalText "loop_id" r.loopId,
  .defaulted "depth" (.natural r.depth.toNat) (r.depth = 0),
  ⟨"kind", RendersKind r.kind, False⟩,
  ⟨"inputs", RendersArguments r.inputs, r.inputs = []⟩,
  ⟨"outputs", RendersArguments r.outputs, r.outputs = []⟩]

/-- The only field of a profile. -/
def slots (reg : Registry) : List Slot :=
  [⟨"sites", ListOf (fun r => ObjectOf (recordSlots r)) reg.records, False⟩]

/-- The value is a profile of the registry. -/
def Renders (reg : Registry) (v : Value) : Prop := ObjectOf (slots reg) v

/-! ## Parts of a record -/

/-- The draft of an operation behind the given keys. -/
def operationDraft (info : OperationInfo) (keys : List String) : OperationDraft where
  kind := given? keys "op" info.kind
  dataType := given? keys "data_type" info.dataType
  vectorSize := given? keys "vector_size" info.vectorSize
  precision := given? keys "precision" (UInt32.ofNat info.target.precision)
  range := given? keys "range" (UInt32.ofNat info.target.range)

theorem drafts_operation {info : OperationInfo} (h : info.target.Valid info.dataType.format) :
    Drafts operationSchema (operationSlots info) (operationDraft info) info where
  empty := rfl
  names := rfl
  sets := by
    have hw := widths_lt h
    simp only [operationSlots, List.forall_mem_cons]
    refine ⟨?_, ?_, ?_, ?_, ?_, by simp⟩
    · exact setsSlot_defaulted rfl (fun _ => rfl) (fun _ => by simp [operationDraft])
        (decodes_enumeration (lookup_operationKind info.kind))
    · exact setsSlot_defaulted rfl (fun _ => rfl) (fun _ => by simp [operationDraft])
        (decodes_enumeration (lookup_dataType info.dataType))
    · exact setsSlot_defaulted rfl (fun _ => rfl) (fun _ => by simp [operationDraft])
        (decodes_word info.vectorSize)
    · exact setsSlot_defaulted rfl (fun _ => rfl) (fun _ => by simp [operationDraft])
        (decodes_width hw.1)
    · exact setsSlot_defaulted rfl (fun _ => rfl) (fun _ => by simp [operationDraft])
        (decodes_width hw.2)
  keeps := by
    intro keys key hkey
    simp only [operationSlots, Slot.required_eq, Slot.name_defaulted, List.map_cons, List.mem_cons,
      not_or] at hkey
    simp [operationDraft, hkey]
  finishes := by
    intro keys hkeys
    simp only [operationSlots, List.forall_mem_cons, Slot.required_eq, Slot.name_defaulted,
      Slot.omissible_defaulted] at hkeys
    obtain ⟨hkind, htype, hsize, hprecision, hrange, -⟩ := hkeys
    simp only [operationSchema, operationDraft, require_given? hkind, require_given? htype,
      require_given? hsize, require_given? hprecision, require_given? hrange]
    -- the widths were read as words, in which they fit
    show Except.ok _ = Except.ok info
    rw [target_eq (widths_lt h)]

/-- The draft of a call behind the given keys. -/
def callDraft (info : CallInfo) (keys : List String) : CallDraft where
  callee := given? keys "callee" info.callee
  library := given? keys "library" info.library

theorem drafts_call (info : CallInfo) :
    Drafts callSchema (callSlots info) (callDraft info) info where
  empty := rfl
  names := rfl
  sets := by
    simp only [callSlots, List.forall_mem_cons]
    refine ⟨?_, ?_, by simp⟩
    · exact setsSlot_defaulted rfl (fun _ => rfl) (fun _ => by simp [callDraft])
        (decodes_string info.callee)
    · exact setsSlot_defaulted rfl (fun _ => rfl) (fun _ => by simp [callDraft])
        (decodes_optionalText info.library)
  keeps := by
    intro keys key hkey
    simp only [callSlots, Slot.required_eq, Slot.optionalText_eq, Slot.name_defaulted,
      List.map_cons, List.mem_cons, not_or] at hkey
    simp [callDraft, hkey]
  finishes := by
    intro keys hkeys
    simp only [callSlots, List.forall_mem_cons, Slot.required_eq, Slot.optionalText_eq,
      Slot.name_defaulted, Slot.omissible_defaulted] at hkeys
    obtain ⟨hcallee, hlibrary, -⟩ := hkeys
    simp only [callSchema, callDraft, require_given? hcallee, join_given? hlibrary]
    rfl

/-- The draft of an argument behind the given keys. -/
def argumentDraft (a : ArgumentInfo) (keys : List String) : ArgumentDraft where
  name := given? keys "name" a.name
  size := given? keys "size" a.size
  dataType := given? keys "data_type" a.dataType
  precision := given? keys "precision" (UInt32.ofNat a.target.precision)
  range := given? keys "range" (UInt32.ofNat a.target.range)

theorem drafts_argument {a : ArgumentInfo} (h : a.target.Valid a.dataType.format) :
    Drafts argumentSchema (argumentSlots a) (argumentDraft a) a where
  empty := rfl
  names := rfl
  sets := by
    have hw := widths_lt h
    simp only [argumentSlots, List.forall_mem_cons]
    refine ⟨?_, ?_, ?_, ?_, ?_, by simp⟩
    · exact setsSlot_defaulted rfl (fun _ => rfl) (fun _ => by simp [argumentDraft])
        (decodes_string a.name)
    · exact setsSlot_defaulted rfl (fun _ => rfl) (fun _ => by simp [argumentDraft])
        (decodes_word a.size)
    · exact setsSlot_defaulted rfl (fun _ => rfl) (fun _ => by simp [argumentDraft])
        (decodes_enumeration (lookup_dataType a.dataType))
    · exact setsSlot_defaulted rfl (fun _ => rfl) (fun _ => by simp [argumentDraft])
        (decodes_width hw.1)
    · exact setsSlot_defaulted rfl (fun _ => rfl) (fun _ => by simp [argumentDraft])
        (decodes_width hw.2)
  keeps := by
    intro keys key hkey
    simp only [argumentSlots, Slot.required_eq, Slot.name_defaulted, List.map_cons, List.mem_cons,
      not_or] at hkey
    simp [argumentDraft, hkey]
  finishes := by
    intro keys hkeys
    simp only [argumentSlots, List.forall_mem_cons, Slot.required_eq, Slot.name_defaulted,
      Slot.omissible_defaulted] at hkeys
    obtain ⟨hname, hsize, htype, hprecision, hrange, -⟩ := hkeys
    simp only [argumentSchema, argumentDraft, require_given? hname, require_given? hsize,
      require_given? htype, require_given? hprecision, require_given? hrange]
    show Except.ok _ = Except.ok a
    rw [target_eq (widths_lt h)]

theorem decodes_arguments {args : List ArgumentInfo} {v : Value}
    (h : ∀ a ∈ args, a.target.Valid a.dataType.format) (hv : RendersArguments args v) :
    Decodes (Reader.list argumentSchema.reader) v args :=
  hv.decodes fun a ha _ hw => (drafts_argument (h a ha)).decodes hw

theorem decodes_kind {r : Record} {v : Value} (h : r.Valid) (hv : RendersKind r.kind v) :
    Decodes siteKind v r.kind := by
  cases hk : r.kind with
  | operation info =>
    rw [hk] at hv
    cases hv with
    | operation hv =>
      exact decodes_variant rfl (((drafts_operation (h.operation hk)).decodes hv).map _)
  | call info =>
    rw [hk] at hv
    cases hv with
    | call hv => exact decodes_variant rfl (((drafts_call info).decodes hv).map _)

/-! ## Records -/

/-- The draft of a record behind the given keys. -/
def recordDraft (r : Record) (keys : List String) : RecordDraft where
  id := given? keys "id" r.id
  filePath := given? keys "file_path" r.filePath
  function := given? keys "function" r.function
  line := given? keys "line" r.line
  column := given? keys "column" r.column
  loopId := given? keys "loop_id" r.loopId
  depth := given? keys "depth" r.depth
  kind := given? keys "kind" r.kind
  inputs := given? keys "inputs" r.inputs
  outputs := given? keys "outputs" r.outputs

theorem drafts_record {r : Record} (h : r.Valid) :
    Drafts recordSchema (recordSlots r) (recordDraft r) r where
  empty := rfl
  names := rfl
  sets := by
    have hinputs := fun a ha => h.argument (a := a) (List.mem_append_left _ ha)
    have houtputs := fun a ha => h.argument (a := a) (List.mem_append_right _ ha)
    simp only [recordSlots, List.forall_mem_cons]
    refine ⟨?_, ?_, ?_, ?_, ?_, ?_, ?_, ?_, ?_, ?_, by simp⟩
    · exact setsSlot_defaulted rfl (fun _ => rfl) (fun _ => by simp [recordDraft])
        (decodes_string r.id)
    · exact setsSlot_defaulted rfl (fun _ => rfl) (fun _ => by simp [recordDraft])
        (decodes_string r.filePath)
    · exact setsSlot_defaulted rfl (fun _ => rfl) (fun _ => by simp [recordDraft])
        (decodes_string r.function)
    · exact setsSlot_defaulted rfl (fun _ => rfl) (fun _ => by simp [recordDraft])
        (decodes_word r.line)
    · exact setsSlot_defaulted rfl (fun _ => rfl) (fun _ => by simp [recordDraft])
        (decodes_word r.column)
    · exact setsSlot_defaulted rfl (fun _ => rfl) (fun _ => by simp [recordDraft])
        (decodes_optionalText r.loopId)
    · exact setsSlot_defaulted rfl (fun _ => rfl) (fun _ => by simp [recordDraft])
        (decodes_word r.depth)
    · exact setsSlot_of rfl (fun _ => rfl) (fun _ => by simp [recordDraft])
        (fun _ hv => decodes_kind h hv)
    · exact setsSlot_of rfl (fun _ => rfl) (fun _ => by simp [recordDraft])
        (fun _ hv => decodes_arguments hinputs hv)
    · exact setsSlot_of rfl (fun _ => rfl) (fun _ => by simp [recordDraft])
        (fun _ hv => decodes_arguments houtputs hv)
  keeps := by
    intro keys key hkey
    simp only [recordSlots, Slot.required_eq, Slot.optionalText_eq, Slot.name_defaulted,
      List.map_cons, List.mem_cons, not_or] at hkey
    simp [recordDraft, hkey]
  finishes := by
    intro keys hkeys
    simp only [recordSlots, List.forall_mem_cons, Slot.required_eq, Slot.optionalText_eq,
      Slot.name_defaulted, Slot.omissible_defaulted] at hkeys
    obtain ⟨hid, hpath, hfunction, hline, hcolumn, hloop, hdepth, hkind, hinputs, houtputs, -⟩ :=
      hkeys
    simp only [recordSchema, recordDraft, require_given? hid, require_given? hkind,
      getD_given? hpath, getD_given? hfunction, getD_given? hline, getD_given? hcolumn,
      join_given? hloop, getD_given? hdepth, getD_given? hinputs, getD_given? houtputs]
    rfl

/-! ## Profiles -/

/-- The draft of a profile behind the given keys. -/
def draft (reg : Registry) (keys : List String) : Draft where
  sites := given? keys "sites" reg.records

theorem drafts_profile (reg : Registry) : Drafts schema (slots reg) (draft reg) reg.records where
  empty := rfl
  names := rfl
  sets := by
    simp only [slots, List.forall_mem_cons]
    refine ⟨?_, by simp⟩
    exact setsSlot_of rfl (fun _ => rfl) (fun _ => by simp [draft])
      (fun _ hv => hv.decodes fun r hr _ hw => (drafts_record (reg.valid r hr)).decodes hw)
  keeps := by
    intro keys key hkey
    simp only [slots, List.map_cons, List.mem_cons, not_or] at hkey
    simp [draft, hkey]
  finishes := by
    intro keys hkeys
    simp only [slots, List.forall_mem_cons] at hkeys
    exact require_given? hkeys.1

/-- The text is a profile of the registry, with any blanks around it. -/
def Describes (text : String) (reg : Registry) : Prop :=
  ∃ v ws cs ws', Renders reg v ∧ Spelled v cs ∧ Blanks ws ∧ Blanks ws' ∧
    text.toList = ws ++ (cs ++ ws')

/-- One call, in no loop. -/
def oneCall : Registry where
  records := [{ id := "a", kind := .call { callee := "f" } }]
  valid := by simp [Record.Valid, Record.uses, Record.operation?]
  distinct := by simp

/-- Its record, with the members out of order and a default that is `null`. -/
def oneCallValue : Value :=
  .object [
    ("kind", .object [("call", .object [("library", .null), ("callee", .text "f")])]),
    ("id", .text "a")]

theorem renders_oneCall {key : String} {v : Value} (hkey : key ≠ "sites") :
    Renders oneCall (.object [(key, v), ("sites", .list [oneCallValue])]) := by
  have hcall : ObjectOf (callSlots { callee := "f" })
      (.object [("library", .null), ("callee", .text "f")]) :=
    ⟨_, rfl, by decide, by simp [callSlots, Value.optionalText], by simp [callSlots]⟩
  have hrecord : ∀ r ∈ oneCall.records, ObjectOf (recordSlots r) oneCallValue := by
    intro r hr
    obtain rfl := List.eq_of_mem_singleton hr
    exact ⟨_, rfl, by decide, by simp [recordSlots, RendersKind.call hcall], by simp [recordSlots]⟩
  have hlist : ListOf (fun r => ObjectOf (recordSlots r)) oneCall.records (.list [oneCallValue]) :=
    ⟨_, rfl, .cons (hrecord _ List.mem_cons_self) .nil⟩
  exact ⟨_, rfl, by simp [slots, hkey], by simp [slots, hkey.symm, hlist], by simp [slots]⟩

/-- A text of it with members out of order, an escape, defaults that are left out or `null`, and a
    member that is passed over. -/
def oneCallText : String :=
  "\x7b\"v\":[\"\\uD800\",\x7b\"sites\":1\x7d], \"sites\":[\x7b\"kind\":\x7b\"call\":" ++
    "\x7b\"library\":null,\"\\u0063allee\":\"f\"\x7d\x7d,\"id\":\"a\"\x7d]\x7d\n"

theorem wellFormed_passedOver :
    WellFormed "[\"\\uD800\",\x7b\"sites\":1\x7d]".toList := by
  have hsurrogate : WellFormed ('"' :: "\\uD800\"".toList) :=
    .text (.cons (.unit ⟨'D', '8', '0', '0', 13, 8, 0, 0, rfl, rfl, rfl, rfl, rfl, rfl⟩) .nil)
  have hobject : WellFormed ('{' :: "\"sites\":1\x7d".toList) :=
    .object (.cons (.first blanks_nil) (charsSpelled_flatMap "sites".toList).quotedRest blanks_nil
      blanks_nil (.number (numberToken_digitChars 1)) (.nil blanks_nil))
  exact .list (.cons (.first blanks_nil) hsurrogate
    (.cons (.comma blanks_nil blanks_nil) hobject (.nil blanks_nil)))

theorem describes_oneCallText : Describes oneCallText oneCall := by
  have hcomma : Gap false [','] := .comma blanks_nil blanks_nil
  have hfirst : Gap true [] := .first blanks_nil
  have hplain := fun s => textSpelled_writtenText s
  -- the first letter of the key is an escaped code unit
  have hkey : TextSpelled "callee" ('"' :: '\\' :: 'u' :: "0063allee\"".toList) :=
    ⟨_, .cons (.unit ⟨'0', '0', '6', '3', 0, 0, 6, 3, rfl, rfl, rfl, rfl, rfl, rfl⟩)
      (charsSpelled_flatMap "allee".toList), rfl⟩
  have hcall : Spelled (.object [("library", .null), ("callee", .text "f")]) _ :=
    .object (.cons hfirst (hplain "library") blanks_nil blanks_nil .null
      (.cons hcomma hkey blanks_nil blanks_nil (.text (hplain "f")) (.nil blanks_nil)))
  have hkind : Spelled (.object [("call", _)]) _ :=
    .object (.cons hfirst (hplain "call") blanks_nil blanks_nil hcall (.nil blanks_nil))
  have hrecord : Spelled oneCallValue _ :=
    .object (.cons hfirst (hplain "kind") blanks_nil blanks_nil hkind
      (.cons hcomma (hplain "id") blanks_nil blanks_nil (.text (hplain "a")) (.nil blanks_nil)))
  have hprofile : Spelled (.object [("v", _), ("sites", .list [oneCallValue])]) _ :=
    .object (.cons hfirst (hplain "v") blanks_nil blanks_nil (.other wellFormed_passedOver)
      (.cons (.comma blanks_nil Document.blanks_space) (hplain "sites") blanks_nil blanks_nil
        (.list (.cons hfirst hrecord (.nil blanks_nil))) (.nil blanks_nil)))
  -- the characters of both literals are known without decoding them
  have htext : oneCallText.toList = _ :=
    String.toList_append.trans (congrArg₂ _ String.toList_ofList String.toList_ofList)
  exact ⟨_, [], _, ['\n'], renders_oneCall (by decide), hprofile, blanks_nil,
    Document.blanks_newline 0, htext⟩

/-- Every text of a profile is read as the registry that it describes. -/
theorem read_eq_of_describes {text : String} {reg : Registry} (h : Describes text reg) :
    read text = .ok reg := by
  obtain ⟨v, ws, cs, ws', hv, hcs, hws, hws', htext⟩ := h
  -- only blanks are left behind the profile, and they end it
  have hends : Ends ws' := by
    have hblanks := Ends.blanks_append hws' .nil
    rwa [List.append_nil] at hblanks
  have hgives : schema.reader.Gives (seenBytes text.toUTF8) reg.records ws' := by
    rw [seenBytes_of_spelled htext hcs hws hws', htext]
    exact (drafts_profile reg).decodes hv cs hcs ws ws' hws hends
  have hrecords : records text.toUTF8 = .ok reg.records := Reader.run_eq hgives hws'
  -- the records come from a registry, so they pass its checks again
  unfold read readBytes
  rw [hrecords]
  simp only [Registry.ofRecords_records]

theorem read_oneCallText : Describes oneCallText oneCall ∧ read oneCallText = .ok oneCall :=
  ⟨describes_oneCallText, read_eq_of_describes describes_oneCallText⟩

end VariablePrecision.Profile
