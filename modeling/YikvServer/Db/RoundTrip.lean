import YikvServer.Db.Get
import YikvServer.Db.PutBatch
import YikvServer.Db.RowDoc

/-!
# Put, then Get

What a reader sees of a row that was put: every field of the schema, with the value
that the row supplied or the default, but for the sign of a float that is zero. The writing
switch and the reading switch agree because each of them agrees with one reading of the slots.
-/
namespace YikvServer.Db

open YikvServer.Theory YikvServer.Index YikvServer.Stream

/-- The type tag of a field's values; an array of Bool or Bytes has none. -/
def valueType : FieldDef → ValueType
  | ⟨_, _, .bool, false⟩ => .bool
  | ⟨_, _, .int32, false⟩ => .i32
  | ⟨_, _, .int64, false⟩ => .i64
  | ⟨_, _, .float32, false⟩ => .f32
  | ⟨_, _, .float64, false⟩ => .f64
  | ⟨_, _, .string, false⟩ => .string
  | ⟨_, _, .bytes, false⟩ => .bytes
  | ⟨_, _, .int32, true⟩ => .arrI32
  | ⟨_, _, .int64, true⟩ => .arrI64
  | ⟨_, _, .float32, true⟩ => .arrF32
  | ⟨_, _, .float64, true⟩ => .arrF64
  | ⟨_, _, .string, true⟩ => .arrString
  | ⟨_, _, .bool, true⟩ => .none
  | ⟨_, _, .bytes, true⟩ => .none

/-- What a reader finds in the slot of a field's type; null is empty. -/
def FieldValue.read (fv : FieldValue) : (fd : FieldDef) → fd.cell.Val
  | ⟨_, _, .bool, false⟩ => fv.i32
  | ⟨_, _, .int32, false⟩ => fv.i32
  | ⟨_, _, .int64, false⟩ => fv.i64
  | ⟨_, _, .float32, false⟩ => fv.f32
  | ⟨_, _, .float64, false⟩ => fv.f64
  | ⟨_, _, .string, false⟩ => fv.s.getD ""
  | ⟨_, _, .bytes, false⟩ => fv.raw.getD ""
  | ⟨_, _, .int32, true⟩ => fv.ai32.getD []
  | ⟨_, _, .int64, true⟩ => fv.ai64.getD []
  | ⟨_, _, .float32, true⟩ => fv.af32.getD []
  | ⟨_, _, .float64, true⟩ => fv.af64.getD []
  | ⟨_, _, .string, true⟩ => (fv.as.getD []).map (·.getD "")
  | ⟨_, _, .bool, true⟩ => []
  | ⟨_, _, .bytes, true⟩ => []

/-- `v ? 1 : 0`. -/
def normalBool (v : Int32) : Int32 := if v ≠ 0 then 1 else 0

/-- Bool is 0 or 1; any other value is left as it is. -/
def normal : (fd : FieldDef) → fd.cell.Val → fd.cell.Val
  | ⟨_, _, .bool, false⟩, v => normalBool v
  | _, v => v

/-- A value of a field as it arrives: a scalar float that is a zero is positive. -/
def arrived : (fd : FieldDef) → fd.cell.Val → fd.cell.Val
  | ⟨_, _, .float32, false⟩, f => received32 f
  | ⟨_, _, .float64, false⟩, d => received64 d
  | _, v => v

/-- What a row supplies for a field: the value of its field value, or the default. -/
def Row.supplied (row : Row) (fd : FieldDef) : fd.cell.Val :=
  match row.values.find? fun fv => fv.fieldId.toNat == fd.fieldId with
  | none => fd.cell.default
  | some fv => normal fd (fv.read fd)

/-- A field value that answers for a field with this value. -/
structure Answers (fd : FieldDef) (v : fd.cell.Val) (fv : FieldValue) : Prop where
  id : fv.fieldId.toNat = fd.fieldId
  vtype : fv.vtype = valueType fd
  value : fv.read fd = v

/-- The arrays that a row can carry. -/
abbrev ArraysCarried (schema : Schema) : Prop :=
  ∀ fd ∈ schema.fields, fd.isArray = true → fd.type ≠ .bool ∧ fd.type ≠ .bytes

variable {Y : Yikv} {schema : Schema} {fd : FieldDef} {fv : FieldValue} {row : Row}
  {doc : Y.Doc} {idx : Y.Contents}

/-! ## One field -/

theorem createVector_getD {α : Type} (view : List α) : (createVector view).getD [] = view := by
  unfold createVector
  split
  · rfl
  · rename_i h
    exact (List.length_eq_zero_iff.mp (not_not.mp h)).symm

theorem buildFieldValue_fieldId (fd : FieldDef) :
    (buildFieldValue Y doc fd).fieldId = UInt16.ofNat fd.fieldId := by
  obtain ⟨name, fid, type, arr⟩ := fd
  cases arr <;> cases type <;>
    simp only [buildFieldValue, createFieldValue, getField_addElement, Bool.false_eq_true,
      if_false, if_true]

/-- The encoder writes the document's value in the slot of the field's type, where a reader
finds it as it arrives. -/
theorem buildFieldValue_answers (hid : fd.fieldId < 65536)
    (harr : fd.isArray = true → fd.type ≠ .bool ∧ fd.type ≠ .bytes) (doc : Y.Doc) :
    Answers fd (arrived fd (normal fd (Y.get doc fd.fieldId fd.cell)))
      (buildFieldValue Y doc fd) := by
  have hu16 : (UInt16.ofNat fd.fieldId).toNat = fd.fieldId := by
    rw [UInt16.toNat_ofNat']
    exact Nat.mod_eq_of_lt hid
  obtain ⟨name, fid, type, arr⟩ := fd
  cases arr with
  | false =>
    cases type
    all_goals
      simp only [buildFieldValue, createFieldValue, getField_addElement, getField_addFloat32,
        getField_addFloat64, Bool.false_eq_true, if_false]
      exact ⟨hu16, rfl, rfl⟩
  | true =>
    cases type
    case bool => exact absurd rfl (harr rfl).1
    case bytes => exact absurd rfl (harr rfl).2
    case string =>
      simp only [buildFieldValue, createFieldValue, getField_addElement, if_true]
      refine ⟨hu16, rfl, ?_⟩
      show ((createVector ((Y.get doc fid (.array .str)).map some)).getD []).map (·.getD "") = _
      rw [createVector_getD, List.map_map]
      exact List.map_id _
    all_goals
      simp only [buildFieldValue, createFieldValue, getField_addElement, if_true]
      exact ⟨hu16, rfl, createVector_getD _⟩

/-- What a field value puts in the document is what a reader finds in it, made normal. -/
theorem payload_getD (harr : fd.isArray = true → fd.type ≠ .bool ∧ fd.type ≠ .bytes)
    (fv : FieldValue) : (fv.payload fd).getD fd.cell.default = normal fd (fv.read fd) := by
  obtain ⟨name, fid, type, arr⟩ := fd
  cases arr with
  | false => cases type <;> rfl
  | true =>
    cases type
    case bool => exact absurd rfl (harr rfl).1
    case bytes => exact absurd rfl (harr rfl).2
    case string =>
      show (fv.as.map fun xs => xs.map (·.getD "")).getD [] = (fv.as.getD []).map (·.getD "")
      cases fv.as <;> rfl
    all_goals rfl

theorem normal_idem (fd : FieldDef) (v : fd.cell.Val) : normal fd (normal fd v) = normal fd v := by
  obtain ⟨name, fid, type, arr⟩ := fd
  cases arr with
  | true => cases type <;> rfl
  | false =>
    cases type
    case bool =>
      show normalBool (normalBool v) = normalBool v
      generalize v = b
      unfold normalBool
      split <;> rfl
    all_goals rfl

theorem arrived_idem (fd : FieldDef) (v : fd.cell.Val) :
    arrived fd (arrived fd v) = arrived fd v := by
  obtain ⟨name, fid, type, arr⟩ := fd
  cases arr with
  | true => cases type <;> rfl
  | false =>
    cases type
    case float32 => exact received32_idem v
    case float64 => exact received64_idem v
    all_goals rfl

/-- A float is not a Bool. -/
theorem normal_arrived (fd : FieldDef) (v : fd.cell.Val) :
    normal fd (arrived fd v) = arrived fd (normal fd v) := by
  obtain ⟨name, fid, type, arr⟩ := fd
  cases arr <;> cases type <;> rfl

theorem normal_default (fd : FieldDef) : normal fd fd.cell.default = fd.cell.default := by
  obtain ⟨name, fid, type, arr⟩ := fd
  cases arr <;> cases type <;> rfl

theorem normal_supplied (row : Row) (fd : FieldDef) :
    normal fd (row.supplied fd) = row.supplied fd := by
  unfold Row.supplied
  split
  · exact normal_default fd
  · exact normal_idem fd _

/-! ## A row -/

/-- The document of a row holds what the row supplies for each field. -/
theorem get_rowDoc (hdoc : applyRowToDoc Y schema Y.newDoc row = .ok doc)
    (hids : row.ids.Nodup) (harr : ArraysCarried schema) (hfd : fd ∈ schema.fields) :
    Y.get doc fd.fieldId fd.cell = row.supplied fd := by
  unfold Row.supplied
  cases hfind : row.values.find? fun fv => fv.fieldId.toNat == fd.fieldId with
  | none =>
    have hnot : fd.fieldId ∉ row.ids := fun hmem => by
      obtain ⟨fv, hfv, hid⟩ := List.mem_map.mp hmem
      exact absurd (beq_iff_eq.mpr hid) (List.find?_eq_none.mp hfind fv hfv)
    rw [get_applyRow_other hdoc hnot, Y.get_newDoc]
  | some fv =>
    have hid : fv.fieldId.toNat = fd.fieldId := by simpa using List.find?_some hfind
    rw [get_applyRow_self hdoc hids hfd (List.mem_of_find?_eq_some hfind) hid, Y.get_newDoc]
    exact payload_getD (harr fd hfd) fv

/-- The key string of a document that is stored is the key it is stored under. -/
theorem key_of_extractPk (hpk : ∃ fd, schema.findField schema.pk = some fd ∧ fd.isArray = false)
    (hkey : extractPkString Y schema doc ≠ "") :
    Y.key schema doc = extractPkString Y schema doc := by
  obtain ⟨⟨name, fid, type, arr⟩, hfd, rfl⟩ := hpk
  refine Y.key_eq schema doc _ _ hfd ?_
  unfold extractPkString at hkey ⊢
  rw [hfd] at hkey ⊢
  cases type
  case float32 => exact absurd rfl hkey
  case float64 => exact absurd rfl hkey
  case bytes => exact absurd rfl hkey
  all_goals rfl

theorem run_handleGet {acquire : String → Option Schema} {tableName : Option String}
    (hslot : acquireOrError acquire tableName = .ok schema) (pk : String) (h : idx pk = some doc) :
    Prog.run (Y.exec schema) (handleGet Y acquire ⟨some pk, tableName⟩) idx =
      (.ok ⟨true, some "", some (buildRow Y doc schema)⟩, idx) := by
  simp only [handleGet, hslot, Prog.lift_ok, Prog.pure_bind', Prog.perform_bind, Prog.run_step,
    Yikv.exec, h]
  rfl

/-- A row that is put and then read back answers for every field with what was supplied, as
that arrives. -/
theorem get_after_put (Y : Yikv) (schema : Schema) (acquire : String → Option Schema)
    (table : String) (row : Row) (idx idx' : Y.Contents)
    (htable : acquire table = some schema)
    (hids16 : ∀ fd ∈ schema.fields, fd.fieldId < 65536)
    (hpk : ∃ fd, schema.findField schema.pk = some fd ∧ fd.isArray = false)
    (harr : ArraysCarried schema) (hids : row.ids.Nodup)
    (hput : Prog.run (Y.exec schema) (handlePut Y acquire ⟨some row, some table⟩) idx =
      (.ok (), idx')) :
    ∃ doc fvs, applyRowToDoc Y schema Y.newDoc row = .ok doc ∧
      Prog.run (Y.exec schema)
          (handleGet Y acquire ⟨some (extractPkString Y schema doc), some table⟩) idx' =
        (.ok ⟨true, some "", some ⟨some (fvs.map some)⟩⟩, idx') ∧
      List.Forall₂ (fun fd fv => Answers fd (arrived fd (row.supplied fd)) fv)
        schema.fields fvs := by
  obtain ⟨slot, doc, hslot, htakes⟩ := (put_accepted_iff idx).mp (congrArg Prod.fst hput)
  have hslot' : slot = schema := by
    unfold acquireOrError at hslot
    simp only [htable] at hslot
    split at hslot
    · cases hslot
    · exact (Except.ok.inj hslot).symm
  subst hslot'
  obtain rfl : Y.upsert slot idx doc = idx' :=
    congrArg Prod.snd ((run_handlePut hslot htakes idx).symm.trans hput)
  obtain ⟨row', hrow, hdoc, hkey⟩ := htakes
  obtain rfl := Option.some.inj hrow
  refine ⟨doc, slot.fields.map (buildFieldValue Y doc), hdoc, ?_, ?_⟩
  · rw [run_handleGet hslot _ (Yikv.upsert_apply.trans (if_pos (key_of_extractPk hpk hkey).symm))]
    simp only [buildRow, List.map_map]
    rfl
  · rw [List.forall₂_map_right_iff, List.forall₂_same]
    intro fd hfd
    have hbuilt := buildFieldValue_answers (hids16 fd hfd) (harr fd hfd) doc
    rw [get_rowDoc hdoc hids harr hfd, normal_supplied] at hbuilt
    exact hbuilt

/-- A table with a flag and an array. -/
def profileSchema : Schema where
  fields := [⟨"id", 1, .int64, false⟩, ⟨"active", 2, .bool, false⟩, ⟨"tags", 3, .string, true⟩,
    ⟨"score", 4, .float64, false⟩]
  pk := "id"
  names := by decide
  ids := by decide

/-- Row 7 with a score, which is the bits of a float. -/
def scoredRow (score : UInt64) : Row where
  fields := some [some { fieldId := 1, vtype := .i64, i64 := 7 },
    some { fieldId := 4, vtype := .f64, f64 := score }]

/-- A score of negative zero is taken, and the row that is read back has a zero. -/
theorem negativeZero_readBack : ∃ doc idx fvs,
    Prog.run (Yikv.plain.exec profileSchema) (handlePut .plain (fun _ => some profileSchema)
        ⟨some (scoredRow 0x8000000000000000), some "profiles"⟩) (fun _ => none) = (.ok (), idx) ∧
      applyRowToDoc .plain profileSchema Yikv.plain.newDoc (scoredRow 0x8000000000000000) =
        .ok doc ∧
      Prog.run (Yikv.plain.exec profileSchema) (handleGet .plain (fun _ => some profileSchema)
        ⟨some (extractPkString .plain profileSchema doc), some "profiles"⟩) idx =
          (.ok ⟨true, some "", some ⟨some (fvs.map some)⟩⟩, idx) ∧
      ¬ List.Forall₂ (fun fd fv => Answers fd ((scoredRow 0x8000000000000000).supplied fd) fv)
        profileSchema.fields fvs := by
  refine ⟨_, _, profileSchema.fields.map (buildFieldValue .plain _), rfl, rfl, rfl, fun h => ?_⟩
  have hscore := (List.forall₂_iff_get.mp h).2 3 (by decide) (by decide)
  have hsame : (0 : UInt64) = 0x8000000000000000 := hscore.value
  exact absurd hsame (by decide)

/-- A flag of 5, a null tag, and no score. -/
def profileRow : Row where
  fields := some [some { fieldId := 2, vtype := .bool, i32 := 5 },
    some { fieldId := 3, vtype := .arrString, as := some [some "a", none] },
    some { fieldId := 1, vtype := .i64, i64 := 7 }]

theorem profile_roundTrip : ∃ doc fvs,
    applyRowToDoc .plain profileSchema Yikv.plain.newDoc profileRow = .ok doc ∧
      Prog.run (Yikv.plain.exec profileSchema)
          (handleGet .plain (fun _ => some profileSchema)
            ⟨some (extractPkString .plain profileSchema doc), some "profiles"⟩)
          (Yikv.plain.upsert profileSchema (fun _ => none) doc) =
        (.ok ⟨true, some "", some ⟨some (fvs.map some)⟩⟩,
          Yikv.plain.upsert profileSchema (fun _ => none) doc) ∧
      List.Forall₂ (fun fd fv => Answers fd (arrived fd (profileRow.supplied fd)) fv)
        profileSchema.fields fvs := by
  obtain ⟨doc, fvs, hdoc, hget, hfvs⟩ := get_after_put .plain profileSchema
    (fun _ => some profileSchema) "profiles" profileRow (fun _ => none) _ rfl (by decide)
    ⟨_, rfl, rfl⟩ (by decide) (by decide) rfl
  exact ⟨doc, fvs, hdoc, Except.ok.inj hdoc ▸ hget, hfvs⟩

end YikvServer.Db
