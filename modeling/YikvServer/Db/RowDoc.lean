import YikvServer.Db.Handlers
import YikvServer.Theory.Fallible

/-!
# The document of a row

`ApplyRowToDoc` against what a row says of each field. A field value is valid when its
id is a field of the schema and its type is that field's; a row of valid values fills
the fields it names and leaves every other field as it was.
-/
namespace YikvServer.Db

open YikvServer.Theory YikvServer.Index YikvServer.Stream

/-- The value supplied for a scalar field: Bool is 0 or 1, a missing text is empty. -/
def FieldValue.scalar (fv : FieldValue) : (type : DataType) → type.elem.Val
  | .bool => if fv.i32 ≠ 0 then (1 : Int32) else (0 : Int32)
  | .int32 => fv.i32
  | .int64 => fv.i64
  | .float32 => fv.f32
  | .float64 => fv.f64
  | .string => fv.s.getD ""
  | .bytes => fv.raw.getD ""

/-- The vector supplied for an array field; there is none for Bool and Bytes. -/
def FieldValue.array (fv : FieldValue) : (type : DataType) → Option (List type.elem.Val)
  | .bool => none
  | .int32 => fv.ai32
  | .int64 => fv.ai64
  | .float32 => fv.af32
  | .float64 => fv.af64
  | .string => fv.as.map fun xs => xs.map (·.getD "")
  | .bytes => none

/-- What a field value supplies for a field; a missing vector supplies nothing. -/
def FieldValue.payload (fv : FieldValue) : (fd : FieldDef) → Option fd.cell.Val
  | ⟨_, _, type, true⟩ => fv.array type
  | ⟨_, _, type, false⟩ => some (fv.scalar type)

def FieldValue.Valid (schema : Schema) (fv : FieldValue) : Prop :=
  ∃ fd, schema.findFieldById fv.fieldId.toNat = some fd ∧
    fieldValueMatchesSchema fd fv.vtype = true

/-- The field values of a row, null entries left out. -/
def Row.values (row : Row) : List FieldValue := (row.fields.getD []).reduceOption

def Row.ids (row : Row) : List Nat := row.values.map fun fv => fv.fieldId.toNat

def putPayload (Y : Yikv) (doc : Y.Doc) (fd : FieldDef) : Option fd.cell.Val → Y.Doc
  | none => doc
  | some v => Y.put doc fd.fieldId fd.cell v

variable {Y : Yikv} {schema : Schema} {fd : FieldDef} {fv : FieldValue} {row : Row}
  {doc doc' : Y.Doc} {fvs : List FieldValue} {fid : Nat}

theorem get_putPayload_self (v : Option fd.cell.Val) :
    Y.get (putPayload Y doc fd v) fd.fieldId fd.cell =
      v.getD (Y.get doc fd.fieldId fd.cell) := by
  cases v with
  | none => rfl
  | some v => exact Y.get_put_self doc fd.fieldId fd.cell v

theorem get_putPayload_other (h : fid ≠ fd.fieldId) (v : Option fd.cell.Val) (c : Cell) :
    Y.get (putPayload Y doc fd v) fid c = Y.get doc fid c := by
  cases v with
  | none => rfl
  | some v => exact Y.get_put_other doc fd.fieldId fd.cell v fid c h

/-! ## One field value -/

theorem putArray_eq (doc : Y.Doc) (name : String) (fid : Nat) (type : DataType)
    (fv : FieldValue) : putArray Y doc fid type.elem (fv.array type) =
      putPayload Y doc ⟨name, fid, type, true⟩ (fv.payload ⟨name, fid, type, true⟩) := by
  show putArray Y doc fid type.elem (fv.array type) =
    putPayload Y doc ⟨name, fid, type, true⟩ (fv.array type)
  cases fv.array type <;> rfl

/-- A valid field value is put in the cell of its field. -/
theorem applyFieldValue_ok (hfd : schema.findFieldById fv.fieldId.toNat = some fd)
    (hmatch : fieldValueMatchesSchema fd fv.vtype = true) (doc : Y.Doc) :
    applyFieldValue Y schema doc fv = .ok (putPayload Y doc fd (fv.payload fd)) := by
  obtain ⟨name, fid, type, arr⟩ := fd
  unfold applyFieldValue
  rw [hfd]
  cases arr with
  | false =>
    cases type
    all_goals
      simp only [fieldValueMatchesSchema, Bool.false_eq_true, if_false, beq_iff_eq] at hmatch
      simp only [hmatch]
      rfl
  | true =>
    have hput := putArray_eq doc name fid type fv
    cases type
    case bool => cases hmatch
    case bytes => cases hmatch
    all_goals
      simp only [fieldValueMatchesSchema, if_true, beq_iff_eq] at hmatch
      simp only [hmatch]
      exact congrArg Except.ok hput

theorem applyFieldValue_eq_ok : applyFieldValue Y schema doc fv = .ok doc' ↔
    ∃ fd, schema.findFieldById fv.fieldId.toNat = some fd ∧
      fieldValueMatchesSchema fd fv.vtype = true ∧ doc' = putPayload Y doc fd (fv.payload fd) := by
  constructor
  · intro h
    cases hfd : schema.findFieldById fv.fieldId.toNat with
    | none => simp [applyFieldValue, hfd] at h
    | some fd =>
      cases hmatch : fieldValueMatchesSchema fd fv.vtype with
      | false => simp [applyFieldValue, hfd, hmatch] at h
      | true =>
        rw [applyFieldValue_ok hfd hmatch] at h
        exact ⟨fd, rfl, hmatch, (Except.ok.inj h).symm⟩
  · rintro ⟨fd, hfd, hmatch, rfl⟩
    exact applyFieldValue_ok hfd hmatch doc

/-! ## A row -/

theorem applyRowToDoc_eq (doc : Y.Doc) (row : Row) :
    applyRowToDoc Y schema doc row = row.values.foldlM (applyFieldValue Y schema) doc := by
  unfold applyRowToDoc Row.values
  cases row.fields <;> rfl

theorem foldlM_cons_ok : (fv :: fvs).foldlM (applyFieldValue Y schema) doc = .ok doc' ↔
    ∃ fd, schema.findFieldById fv.fieldId.toNat = some fd ∧
      fieldValueMatchesSchema fd fv.vtype = true ∧
      fvs.foldlM (applyFieldValue Y schema) (putPayload Y doc fd (fv.payload fd)) = .ok doc' := by
  rw [foldlM_cons_eq_ok]
  constructor
  · rintro ⟨mid, hfv, hrest⟩
    obtain ⟨fd, hfd, hmatch, rfl⟩ := applyFieldValue_eq_ok.mp hfv
    exact ⟨fd, hfd, hmatch, hrest⟩
  · rintro ⟨fd, hfd, hmatch, hrest⟩
    exact ⟨_, applyFieldValue_ok hfd hmatch doc, hrest⟩

/-- A row is applied when each of its field values is valid. -/
theorem applyRowToDoc_isOk (doc : Y.Doc) :
    (∃ doc', applyRowToDoc Y schema doc row = .ok doc') ↔ ∀ fv ∈ row.values, fv.Valid schema := by
  rw [← List.forall_iff_forall_mem]
  simp only [applyRowToDoc_eq]
  generalize row.values = fvs
  induction fvs generalizing doc with
  | nil => exact ⟨fun _ => trivial, fun _ => ⟨doc, rfl⟩⟩
  | cons fv rest ih =>
    rw [List.forall_cons]
    constructor
    · rintro ⟨doc', h⟩
      obtain ⟨fd, hfd, hmatch, hrest⟩ := foldlM_cons_ok.mp h
      exact ⟨⟨fd, hfd, hmatch⟩, (ih _).mp ⟨doc', hrest⟩⟩
    · rintro ⟨⟨fd, hfd, hmatch⟩, hrest⟩
      obtain ⟨doc', h⟩ := (ih (putPayload Y doc fd (fv.payload fd))).mpr hrest
      exact ⟨doc', foldlM_cons_ok.mpr ⟨fd, hfd, hmatch, h⟩⟩

theorem get_foldlM_other (h : fvs.foldlM (applyFieldValue Y schema) doc = .ok doc')
    (hfid : ∀ fv ∈ fvs, fv.fieldId.toNat ≠ fid) (c : Cell) :
    Y.get doc' fid c = Y.get doc fid c := by
  induction fvs generalizing doc with
  | nil =>
    obtain rfl := Except.ok.inj h
    rfl
  | cons fv rest ih =>
    obtain ⟨fd, hfd, -, hrest⟩ := foldlM_cons_ok.mp h
    have hid : fd.fieldId = fv.fieldId.toNat := (Schema.findFieldById_eq_some.mp hfd).2
    rw [ih hrest fun fv' hfv' => hfid fv' (List.mem_cons_of_mem _ hfv')]
    exact get_putPayload_other (fun he => hfid fv List.mem_cons_self (hid ▸ he.symm)) _ c

/-- A field that the row does not name is left as it was. -/
theorem get_applyRow_other (h : applyRowToDoc Y schema doc row = .ok doc') (hfid : fid ∉ row.ids)
    (c : Cell) : Y.get doc' fid c = Y.get doc fid c :=
  get_foldlM_other (applyRowToDoc_eq doc row ▸ h)
    (fun fv hfv he => hfid (List.mem_map.mpr ⟨fv, hfv, he⟩)) c

/-- A field that the row names once shows what the row supplies for it. -/
theorem get_applyRow_self (h : applyRowToDoc Y schema doc row = .ok doc') (hids : row.ids.Nodup)
    (hfd : fd ∈ schema.fields) (hfv : fv ∈ row.values) (hid : fv.fieldId.toNat = fd.fieldId) :
    Y.get doc' fd.fieldId fd.cell = (fv.payload fd).getD (Y.get doc fd.fieldId fd.cell) := by
  rw [applyRowToDoc_eq] at h
  unfold Row.ids at hids
  generalize row.values = fvs at h hids hfv
  induction fvs generalizing doc with
  | nil => cases hfv
  | cons fv' rest ih =>
    obtain ⟨hnot, hrest⟩ := List.nodup_cons.mp hids
    obtain ⟨fd', hfd', -, happly⟩ := foldlM_cons_ok.mp h
    obtain ⟨hmem', hid'⟩ := Schema.findFieldById_eq_some.mp hfd'
    rcases List.mem_cons.mp hfv with rfl | hfv
    · obtain rfl := Schema.id_injective hmem' hfd (hid'.trans hid)
      have hother : ∀ fv' ∈ rest, fv'.fieldId.toNat ≠ fd'.fieldId := fun fv' hfv' he =>
        hnot (List.mem_map.mpr ⟨fv', hfv', he.trans hid.symm⟩)
      rw [get_foldlM_other happly hother]
      exact get_putPayload_self _
    · rw [ih happly hrest hfv, get_putPayload_other]
      rw [← hid, hid']
      exact fun he => hnot (List.mem_map.mpr ⟨fv, hfv, he⟩)

end YikvServer.Db
