import YikvServer.Db.RoundTrip
import YikvServer.Stream.Merge

/-!
# The row codec

`BuildRow` of a document, applied to a fresh document. The encoder, the type check and the
decoder know the same scalars and arrays, except for arrays of Bytes: the stream stores
them, the encoder tags them NONE and the type check refuses that tag. A scalar float that is
a negative zero is left out by the encoder and read back as zero.
-/
namespace YikvServer.Db

open YikvServer.Index YikvServer.Stream

/-- The row of the document is taken, and every field is read back as it was; a Bool cell
counts as 0 or 1. -/
def RowRoundTrips (Y : Yikv) (schema : Schema) (doc : Y.Doc) : Prop :=
  ∃ doc', applyRowToDoc Y schema Y.newDoc (buildRow Y doc schema) = .ok doc' ∧
    ∀ fd ∈ schema.fields,
      Y.get doc' fd.fieldId fd.cell = normal fd (Y.get doc fd.fieldId fd.cell)

/-- A scalar float that is a negative zero. -/
def NegativeZero : (fd : FieldDef) → fd.cell.Val → Prop
  | ⟨_, _, .float32, false⟩, f => f = (0x80000000 : UInt32)
  | ⟨_, _, .float64, false⟩, d => d = (0x8000000000000000 : UInt64)
  | _, _ => False

variable {Y : Yikv} {schema : Schema} {fd : FieldDef} {fv : FieldValue} {doc : Y.Doc}

theorem values_buildRow : (buildRow Y doc schema).values =
    schema.fields.map (buildFieldValue Y doc) := by
  have hvalues : ∀ fds : List FieldDef, (fds.map fun fd =>
      some (buildFieldValue Y doc fd)).reduceOption = fds.map (buildFieldValue Y doc) := by
    intro fds
    induction fds with
    | nil => rfl
    | cons fd rest ih => exact congrArg (buildFieldValue Y doc fd :: ·) ih
  exact hvalues schema.fields

theorem buildFieldValue_id (hid : fd.fieldId < 65536) :
    (buildFieldValue Y doc fd).fieldId.toNat = fd.fieldId := by
  rw [buildFieldValue_fieldId, UInt16.toNat_ofNat']
  exact Nat.mod_eq_of_lt hid

theorem ids_buildRow (hids : ∀ fd ∈ schema.fields, fd.fieldId < 65536) :
    (buildRow Y doc schema).ids = schema.fields.map FieldDef.fieldId := by
  rw [Row.ids, values_buildRow, List.map_map]
  exact List.map_congr_left fun fd hfd => buildFieldValue_id (hids fd hfd)

/-- Every other value arrives as it was. -/
theorem arrived_eq_iff (fd : FieldDef) (v : fd.cell.Val) :
    arrived fd v = v ↔ ¬ NegativeZero fd v := by
  obtain ⟨name, fid, type, arr⟩ := fd
  cases arr with
  | true => cases type <;> exact iff_of_true rfl id
  | false =>
    cases type
    case float32 => exact received32_eq_iff v
    case float64 => exact received64_eq_iff v
    all_goals exact iff_of_true rfl id

/-- A Bool is no float. -/
theorem normal_eq_arrived (fd : FieldDef) (v : fd.cell.Val) :
    arrived fd (normal fd v) = normal fd v ↔ arrived fd v = v := by
  obtain ⟨name, fid, type, arr⟩ := fd
  cases arr with
  | true => cases type <;> exact Iff.rfl
  | false =>
    cases type
    case bool => exact iff_of_true rfl rfl
    all_goals exact Iff.rfl

/-- The encoder's tag is the one the type check asks for. -/
theorem matches_valueType (harr : fd.isArray = true → fd.type ≠ .bool ∧ fd.type ≠ .bytes) :
    fieldValueMatchesSchema fd (valueType fd) = true := by
  obtain ⟨name, fid, type, arr⟩ := fd
  cases arr with
  | false => cases type <;> rfl
  | true =>
    cases type
    case bool => exact absurd rfl (harr rfl).1
    case bytes => exact absurd rfl (harr rfl).2
    all_goals rfl

theorem buildFieldValue_valid (hfd : fd ∈ schema.fields) (hid : fd.fieldId < 65536)
    (harr : fd.isArray = true → fd.type ≠ .bool ∧ fd.type ≠ .bytes) :
    (buildFieldValue Y doc fd).Valid schema := by
  refine ⟨fd, ?_, ?_⟩
  · exact Schema.findFieldById_eq_some.mpr ⟨hfd, (buildFieldValue_id hid).symm⟩
  · rw [(buildFieldValue_answers hid harr doc).vtype]
    exact matches_valueType harr

/-- An array of Bytes is tagged NONE, which no field of a schema takes. -/
theorem bytesArray_invalid (hfd : fd ∈ schema.fields) (hid : fd.fieldId < 65536)
    (harr : fd.isArray = true) (htype : fd.type = .bytes) :
    ¬ (buildFieldValue Y doc fd).Valid schema := by
  rintro ⟨fd', hfound, hmatch⟩
  rw [buildFieldValue_id hid] at hfound
  obtain ⟨hfd', hsame⟩ := Schema.findFieldById_eq_some.mp hfound
  obtain rfl := Schema.id_injective hfd' hfd hsame
  obtain ⟨name, fid, type, arr⟩ := fd'
  obtain rfl : arr = true := harr
  obtain rfl : type = .bytes := htype
  cases hmatch

/-- A field of the document that the row makes, when it is taken. -/
theorem get_builtRow (hids : ∀ fd ∈ schema.fields, fd.fieldId < 65536)
    (harr : ArraysCarried schema) {doc' : Y.Doc}
    (hdoc' : applyRowToDoc Y schema Y.newDoc (buildRow Y doc schema) = .ok doc')
    (hfd : fd ∈ schema.fields) :
    Y.get doc' fd.fieldId fd.cell = arrived fd (normal fd (Y.get doc fd.fieldId fd.cell)) := by
  have hmem : buildFieldValue Y doc fd ∈ (buildRow Y doc schema).values := by
    rw [values_buildRow]
    exact List.mem_map_of_mem hfd
  have hnodup : (buildRow Y doc schema).ids.Nodup := ids_buildRow hids ▸ schema.ids
  rw [get_applyRow_self hdoc' hnodup hfd hmem (buildFieldValue_id (hids fd hfd)), Y.get_newDoc,
    payload_getD (harr fd hfd), (buildFieldValue_answers (hids fd hfd) (harr fd hfd) doc).value,
    normal_arrived, normal_idem]

/-- A document of a table without arrays of Bool goes through the row codec unchanged
exactly when the table has no array of Bytes and no scalar float of the document is a negative
zero. -/
theorem rowRoundTrips_iff (Y : Yikv) (schema : Schema)
    (hids : ∀ fd ∈ schema.fields, fd.fieldId < 65536) (hbool : ArraysSupported schema)
    (doc : Y.Doc) : RowRoundTrips Y schema doc ↔
      (∀ fd ∈ schema.fields, fd.isArray = true → fd.type ≠ .bytes) ∧
        ∀ fd ∈ schema.fields, ¬ NegativeZero fd (Y.get doc fd.fieldId fd.cell) := by
  have hunchanged : ∀ fd : FieldDef, arrived fd (normal fd (Y.get doc fd.fieldId fd.cell)) =
      normal fd (Y.get doc fd.fieldId fd.cell) ↔
        ¬ NegativeZero fd (Y.get doc fd.fieldId fd.cell) := fun fd =>
    (normal_eq_arrived fd _).trans (arrived_eq_iff fd _)
  constructor
  · rintro ⟨doc', hdoc', hsame⟩
    have hbytes : ∀ fd ∈ schema.fields, fd.isArray = true → fd.type ≠ .bytes := by
      intro fd hfd harr htype
      have hmem : buildFieldValue Y doc fd ∈ (buildRow Y doc schema).values := by
        rw [values_buildRow]
        exact List.mem_map_of_mem hfd
      exact bytesArray_invalid hfd (hids fd hfd) harr htype
        ((applyRowToDoc_isOk Y.newDoc).mp ⟨doc', hdoc'⟩ _ hmem)
    have harr : ArraysCarried schema := fun fd hfd h => ⟨hbool fd hfd h, hbytes fd hfd h⟩
    refine ⟨hbytes, fun fd hfd => (hunchanged fd).mp ?_⟩
    rw [← get_builtRow hids harr hdoc' hfd, hsame fd hfd]
  · rintro ⟨hbytes, hzero⟩
    have harr : ArraysCarried schema := fun fd hfd h => ⟨hbool fd hfd h, hbytes fd hfd h⟩
    have hvalid : ∀ fv ∈ (buildRow Y doc schema).values, fv.Valid schema := by
      intro fv hfv
      rw [values_buildRow] at hfv
      obtain ⟨fd, hfd, rfl⟩ := List.mem_map.mp hfv
      exact buildFieldValue_valid hfd (hids fd hfd) (harr fd hfd)
    obtain ⟨doc', hdoc'⟩ := (applyRowToDoc_isOk (Y := Y) Y.newDoc).mpr hvalid
    refine ⟨doc', hdoc', fun fd hfd => ?_⟩
    rw [get_builtRow hids harr hdoc' hfd]
    exact (hunchanged fd).mpr (hzero fd hfd)

theorem profile_rowRoundTrips :
    RowRoundTrips .plain profileSchema Yikv.plain.newDoc ↔
      (∀ fd ∈ profileSchema.fields, fd.isArray = true → fd.type ≠ .bytes) ∧
        ∀ fd ∈ profileSchema.fields,
          ¬ NegativeZero fd (Yikv.plain.get Yikv.plain.newDoc fd.fieldId fd.cell) :=
  rowRoundTrips_iff .plain profileSchema (by decide) (by decide) _

/-- A table with an array of Bytes, as the stream stores it. -/
def blobSchema : Schema where
  fields := [⟨"id", 1, .int64, false⟩, ⟨"blobs", 2, .bytes, true⟩]
  pk := "id"
  names := by decide
  ids := by decide

/-- Row 1 with one blob, merged from a stream object. -/
def blobDoc : Yikv.plain.Doc :=
  Yikv.plain.put (Yikv.plain.arrayAppend Yikv.plain.newDoc 2 .str "x") 1 (.scalar .i64) (1 : Int64)

/-- The stream stores the blob; the row that is built from the document is refused. -/
theorem blobDoc_refused :
    mergeJsonIntoDoc (plainJson []) .plain blobSchema Yikv.plain.newDoc
        (.ofMembers [("id", .integer 1), ("blobs", .array [.string "x"])]) = .ok blobDoc ∧
      ¬ RowRoundTrips .plain blobSchema blobDoc := by
  refine ⟨rfl, ?_⟩
  rintro ⟨doc', hdoc', -⟩
  have hrefused : applyRowToDoc .plain blobSchema Yikv.plain.newDoc
      (buildRow .plain blobDoc blobSchema) =
        .error "field_id 2 type mismatch for schema bytes" := rfl
  rw [hrefused] at hdoc'
  cases hdoc'

end YikvServer.Db
