import YikvServer.Import.Cells
import YikvServer.Db.PrimaryKey

/-!
# Primary keys of the three write paths

The put handlers, the stream and the bulk import each derive the key string of a row by
a switch over the pk type of its own. What each of them makes of a pk value is computed
here, and they agree on the values for which the three results are the same.
-/
namespace YikvServer.Import

open YikvServer.Theory YikvServer.Index YikvServer.Stream YikvServer.Db

inductive PkValue where
  | bool (b : Bool)
  | int32 (v : Int32)
  | int64 (v : Int64)
  | string (s : String)
  | bytes (s : String)
  deriving DecidableEq

inductive WritePath where
  | rpc
  | stream
  | bulkImport
  deriving DecidableEq

namespace PkValue

def type : PkValue → DataType
  | .bool _ => .bool
  | .int32 _ => .int32
  | .int64 _ => .int64
  | .string _ => .string
  | .bytes _ => .bytes

/-- The value as a document stores it. -/
def stored : (v : PkValue) → v.type.elem.Val
  | .bool b => if b then (1 : Int32) else (0 : Int32)
  | .int32 v => v
  | .int64 v => v
  | .string s => s
  | .bytes s => s

/-- The decimal or literal rendering. -/
def text : PkValue → String
  | .bool b => toStringInt (if b then (1 : Int32) else (0 : Int32)).toInt
  | .int32 v => toStringInt v.toInt
  | .int64 v => toStringInt v.toInt
  | .string s => s
  | .bytes s => s

/-- A put carries the value in this field value. -/
def fieldValue (fieldId : UInt16) : PkValue → FieldValue
  | .bool b => { fieldId, vtype := .bool, i32 := if b then 1 else 0 }
  | .int32 v => { fieldId, vtype := .i32, i32 := v }
  | .int64 v => { fieldId, vtype := .i64, i64 := v }
  | .string s => { fieldId, vtype := .string, s := some s }
  | .bytes s => { fieldId, vtype := .bytes, raw := some s }

/-- A stream object carries the value in this member. -/
def json : PkValue → Json
  | .bool b => .boolean b
  | .int32 v => .integer v.toInt
  | .int64 v => .integer v.toInt
  | .string s => .string s
  | .bytes s => .string s

/-- The cell of an Arrow column holds the value, in any width. -/
def InCell (col : ArrowArray) (row : Nat) : PkValue → Prop
  | .bool b => col.bool? row = some b
  | .int32 v => col.int? row = some v.toInt
  | .int64 v => col.int? row = some v.toInt
  | .string s => col.text? row = some s
  | .bytes s => col.text? row = some s

/-- What each path makes of the value; none where it takes no row with it. -/
def keyVia : WritePath → PkValue → Option String
  | .rpc, .bytes _ => none
  | .stream, .bool _ => none
  | .stream, v => some v.text
  | _, v => if v.text = "" then none else some v.text

end PkValue

/-- A row whose pk is the value is taken by the path, under this key. -/
def Accepts (N : Nlohmann) (Y : Yikv) (schema : Schema) (pkDef : FieldDef) (v : PkValue)
    (k : String) : WritePath → Prop
  | .rpc => ∃ row doc id, id.toNat = pkDef.fieldId ∧ row.ids.Nodup ∧
      v.fieldValue id ∈ row.values ∧ Takes Y schema (some row) doc ∧
      Db.extractPkString Y schema doc = k
  | .stream => ∃ obj : JsonObject, obj.find pkDef.name = some v.json ∧
      Stream.extractPkString N schema obj = .ok k
  | .bulkImport => ∃ batch row col doc, validateBatchColumns batch schema = .ok () ∧
      row < batch.numRows ∧ batch.getColumnByName pkDef.name = some col ∧
      arrowCellIsNull col row = false ∧ v.InCell col row ∧
      importRow Y schema batch pkDef row = .ok (some doc) ∧ importPk Y pkDef doc = .ok k

/-- Whenever one path takes a row with this pk, so does every other, under the same key. -/
def PathsAgree (N : Nlohmann) (Y : Yikv) (schema : Schema) (pkDef : FieldDef) (v : PkValue) :
    Prop :=
  ∀ p k, Accepts N Y schema pkDef v k p →
    ∀ q, (∃ k', Accepts N Y schema pkDef v k' q) ∧ ∀ k', Accepts N Y schema pkDef v k' q → k' = k

/-- The values that every path takes: integers, and texts of type String that are not
empty. -/
def SharedKey : PkValue → Prop
  | .int32 _ => True
  | .int64 _ => True
  | .string s => s ≠ ""
  | .bool _ => False
  | .bytes _ => False

/-- The integers of nlohmann::json that fit are converted to themselves. -/
structure ReadsIntegers (N : Nlohmann) : Prop where
  i32 : ∀ v : Int32, N.get .i32 (.integer v.toInt) = .ok v
  i64 : ∀ v : Int64, N.get .i64 (.integer v.toInt) = .ok v

variable {N : Nlohmann} {Y : Yikv} {schema : Schema} {fd : FieldDef} {v : PkValue} {k : String}

/-- A numeric key is never empty. -/
theorem text_numeric (h : numericKey v.type = true) : v.text ≠ "" := by
  cases v with
  | bool b => exact toStringInt_ne_empty _
  | int32 n => exact toStringInt_ne_empty _
  | int64 n => exact toStringInt_ne_empty _
  | string s => cases h
  | bytes s => cases h

/-- The put handlers and the import take no empty key. -/
theorem keyVia_ne_empty {p : WritePath} (hp : p ≠ .stream) (h : PkValue.keyVia p v = some k) :
    k ≠ "" := by
  have hite : (if v.text = "" then none else some v.text) = some k → k ≠ "" := by
    intro h
    split at h
    · cases h
    · rename_i hne
      obtain rfl := Option.some.inj h
      exact hne
  cases p with
  | stream => exact absurd rfl hp
  | rpc =>
    cases v with
    | bytes s => cases h
    | _ => exact hite h
  | bulkImport => exact hite h

/-! ## The put handlers -/

/-- What `ExtractPkString` makes of a document that stores the value. -/
theorem extractPk_stored (hfd : schema.findField schema.pk = some fd) (htype : fd.type = v.type)
    (doc : Y.Doc) (hdoc : Y.get doc fd.fieldId (.scalar v.type.elem) = v.stored) :
    Db.extractPkString Y schema doc = (PkValue.keyVia .rpc v).getD "" := by
  have hkey : (PkValue.keyVia .rpc v).getD "" =
      match v with
      | .bytes _ => ""
      | v => v.text := by
    cases v with
    | bytes s => rfl
    | _ =>
      simp only [PkValue.keyVia]
      split
      · rename_i h
        exact h.symm
      · rfl
  rw [hkey]
  unfold Db.extractPkString
  rw [hfd]
  obtain ⟨name, fid, type, arr⟩ := fd
  obtain rfl : type = v.type := htype
  cases v with
  | bytes s => rfl
  | string s => exact hdoc
  | bool b => exact congrArg (fun n : Int32 => toStringInt n.toInt) hdoc
  | int32 n => exact congrArg (fun n : Int32 => toStringInt n.toInt) hdoc
  | int64 n => exact congrArg (fun n : Int64 => toStringInt n.toInt) hdoc

theorem scalar_fieldValue (v : PkValue) (id : UInt16) :
    (v.fieldValue id).scalar v.type = v.stored := by
  cases v with
  | bool b => cases b <;> rfl
  | _ => rfl

theorem get_rowPk (hfd : schema.findField schema.pk = some fd) (htype : fd.type = v.type)
    (harr : fd.isArray = false) {row : Row} {doc : Y.Doc} {id : UInt16}
    (hid : id.toNat = fd.fieldId) (hids : row.ids.Nodup) (hfv : v.fieldValue id ∈ row.values)
    (hdoc : applyRowToDoc Y schema Y.newDoc row = .ok doc) :
    Y.get doc fd.fieldId (.scalar v.type.elem) = v.stored := by
  have hmem : fd ∈ schema.fields := (Schema.findField_eq_some.mp hfd).1
  have hid' : (v.fieldValue id).fieldId.toNat = fd.fieldId := by
    rw [← hid]
    cases v <;> rfl
  have hget := get_applyRow_self hdoc hids hmem hfv hid'
  obtain ⟨name, fid, type, arr⟩ := fd
  obtain rfl : type = v.type := htype
  obtain rfl : arr = false := harr
  exact hget.trans (scalar_fieldValue v id)

theorem fieldValue_valid (hfd : schema.findField schema.pk = some fd) (htype : fd.type = v.type)
    (harr : fd.isArray = false) {id : UInt16} (hid : id.toNat = fd.fieldId) :
    (v.fieldValue id).Valid schema := by
  have hmem : fd ∈ schema.fields := (Schema.findField_eq_some.mp hfd).1
  have hid' : (v.fieldValue id).fieldId.toNat = fd.fieldId := by
    rw [← hid]
    cases v <;> rfl
  refine ⟨fd, Schema.findFieldById_eq_some.mpr ⟨hmem, hid'.symm⟩, ?_⟩
  obtain ⟨name, fid, type, arr⟩ := fd
  obtain rfl : type = v.type := htype
  obtain rfl : arr = false := harr
  cases v <;> rfl

theorem accepts_rpc (hfd : schema.findField schema.pk = some fd) (htype : fd.type = v.type)
    (harr : fd.isArray = false) :
    Accepts N Y schema fd v k .rpc ↔ fd.fieldId < 65536 ∧ PkValue.keyVia .rpc v = some k := by
  constructor
  · rintro ⟨row, doc, id, hid, hids, hfv, ⟨row', hrow, hdoc, hne⟩, rfl⟩
    obtain rfl := Option.some.inj hrow
    rw [extractPk_stored hfd htype doc (get_rowPk hfd htype harr hid hids hfv hdoc)] at hne ⊢
    refine ⟨hid ▸ id.toNat_lt, ?_⟩
    cases hkey : PkValue.keyVia .rpc v with
    | none => rw [hkey] at hne; exact absurd rfl hne
    | some k => rfl
  · rintro ⟨hlt, hkey⟩
    have hid : (UInt16.ofNat fd.fieldId).toNat = fd.fieldId := by
      rw [UInt16.toNat_ofNat']
      exact Nat.mod_eq_of_lt hlt
    let row : Row := { fields := some [some (v.fieldValue (.ofNat fd.fieldId))] }
    have hfv : v.fieldValue (.ofNat fd.fieldId) ∈ row.values := List.mem_singleton_self _
    have hids : row.ids.Nodup := List.nodup_singleton _
    have hvalid : ∀ fv ∈ row.values, fv.Valid schema := fun fv hmem => by
      obtain rfl := List.mem_singleton.mp hmem
      exact fieldValue_valid hfd htype harr hid
    obtain ⟨doc, hdoc⟩ := (applyRowToDoc_isOk Y.newDoc).mpr hvalid
    have hpk := extractPk_stored hfd htype doc (get_rowPk hfd htype harr hid hids hfv hdoc)
    rw [hkey] at hpk
    have hne : k ≠ "" := keyVia_ne_empty (by decide) hkey
    exact ⟨row, doc, _, hid, hids, hfv, ⟨row, rfl, hdoc, hpk ▸ hne⟩, hpk⟩

/-! ## The stream -/

theorem accepts_stream (hN : ReadsIntegers N) (hfd : schema.findField schema.pk = some fd)
    (htype : fd.type = v.type) :
    Accepts N Y schema fd v k .stream ↔ PkValue.keyVia .stream v = some k := by
  have hkey : ∀ obj : JsonObject, obj.find fd.name = some v.json →
      (Stream.extractPkString N schema obj = .ok k ↔ PkValue.keyVia .stream v = some k) := by
    intro obj hobj
    simp only [Stream.extractPkString, hfd, hobj, htype]
    cases v with
    | bool b => exact ⟨fun h => (nomatch h), fun h => (nomatch h)⟩
    | int32 n =>
      simp [PkValue.json, PkValue.type, Json.isNull, hN.i32, throwing, Except.map,
        PkValue.keyVia, PkValue.text]
    | int64 n =>
      simp [PkValue.json, PkValue.type, Json.isNull, hN.i64, throwing, Except.map,
        PkValue.keyVia, PkValue.text]
    | string s =>
      simp [PkValue.json, PkValue.type, Json.isNull, throwing, PkValue.keyVia, PkValue.text]
    | bytes s =>
      simp [PkValue.json, PkValue.type, Json.isNull, throwing, PkValue.keyVia, PkValue.text]
  constructor
  · rintro ⟨obj, hobj, h⟩
    exact (hkey obj hobj).mp h
  · intro h
    have hobj : (JsonObject.ofMembers [(fd.name, v.json)]).find fd.name = some v.json := by
      simp [JsonObject.ofMembers, JsonObject.find, insertMember]
    exact ⟨_, hobj, (hkey _ hobj).mpr h⟩

/-! ## The import -/

theorem get_cellPk (htype : fd.type = v.type) (harr : fd.isArray = false) {col : ArrowArray}
    {row : Nat} {doc doc' : Y.Doc} (hnull : arrowCellIsNull col row = false)
    (hcell : v.InCell col row) (h : applyField Y doc fd col row = .ok doc') :
    Y.get doc' fd.fieldId (.scalar v.type.elem) = v.stored := by
  obtain ⟨name, fid, type, arr⟩ := fd
  obtain rfl : type = v.type := htype
  obtain rfl : arr = false := harr
  simp only [applyField, applyScalar, hnull, Bool.false_eq_true, if_false] at h
  cases v with
  | bool b =>
    cases col with
    | bool slots =>
      obtain rfl := Option.some.inj hcell
      obtain rfl := Except.ok.inj h
      exact Y.get_put_self doc fid (.scalar .i32) _
    | _ => cases hcell
  | int32 n =>
    obtain ⟨m, hm, rfl⟩ := applyInt32_exact h
    obtain rfl := Int32.toInt_inj.mp (Option.some.inj (hm.symm.trans hcell))
    exact Y.get_put_self doc fid (.scalar .i32) _
  | int64 n =>
    obtain ⟨m, hm, rfl⟩ := applyInt64_exact h
    obtain rfl := Int64.toInt_inj.mp (Option.some.inj (hm.symm.trans hcell))
    exact Y.get_put_self doc fid (.scalar .i64) _
  | string s =>
    obtain ⟨t, ht, rfl⟩ := applyText_exact h
    obtain rfl := Option.some.inj (ht.symm.trans hcell)
    exact Y.get_put_self doc fid (.scalar .str) _
  | bytes s =>
    obtain ⟨t, ht, rfl⟩ := applyText_exact h
    obtain rfl := Option.some.inj (ht.symm.trans hcell)
    exact Y.get_put_self doc fid (.scalar .str) _

theorem importPk_stored (htype : fd.type = v.type) (doc : Y.Doc)
    (hdoc : Y.get doc fd.fieldId (.scalar v.type.elem) = v.stored) :
    importPk Y fd doc = .ok v.text := by
  obtain ⟨name, fid, type, arr⟩ := fd
  obtain rfl : type = v.type := htype
  cases v with
  | string s => exact congrArg Except.ok hdoc
  | bytes s => exact congrArg Except.ok hdoc
  | bool b => exact congrArg (fun n : Int32 => Except.ok (toStringInt n.toInt)) hdoc
  | int32 n => exact congrArg (fun n : Int32 => Except.ok (toStringInt n.toInt)) hdoc
  | int64 n => exact congrArg (fun n : Int64 => Except.ok (toStringInt n.toInt)) hdoc

/-- A column of one cell that holds the value. -/
def PkValue.column : PkValue → ArrowArray
  | .bool b => .bool [⟨false, b⟩]
  | .int32 v => .int32 [⟨false, v⟩]
  | .int64 v => .int64 [⟨false, v⟩]
  | .string s => .string [⟨false, s⟩]
  | .bytes s => .binary [⟨false, s⟩]

/-- A column of one null cell that any field takes. -/
def nullColumn (fd : FieldDef) : ArrowArray :=
  if fd.isArray then .list [⟨true, (0, 0)⟩] (.other []) (fun _ _ _ => []) else .other [⟨true, ()⟩]

/-- A batch of one row: the value, and null for every other field. -/
def pkBatch (schema : Schema) (pkDef : FieldDef) (v : PkValue) : RecordBatch where
  numRows := 1
  columns := schema.fields.map fun fd => (fd.name, if fd = pkDef then v.column else nullColumn fd)
  lengths := by
    intro c hc
    obtain ⟨fd, -, rfl⟩ := List.mem_map.mp hc
    show (ArrowArray.nulls (if fd = pkDef then _ else _)).length = 1
    split
    · cases v <;> rfl
    · unfold nullColumn
      split <;> rfl

theorem getColumnByName_map {fds : List FieldDef} (f : FieldDef → ArrowArray)
    (hnames : (fds.map FieldDef.name).Nodup) (hmem : fd ∈ fds) :
    (fds.map fun g => (g.name, f g)).filter (fun c => c.1 == fd.name) = [(fd.name, f fd)] := by
  induction fds with
  | nil => cases hmem
  | cons g rest ih =>
    obtain ⟨hnot, hrest⟩ := List.nodup_cons.mp hnames
    rw [List.map_cons, List.filter_cons]
    rcases List.mem_cons.mp hmem with rfl | hmem
    · rw [if_pos (beq_self_eq_true _), List.filter_eq_nil_iff.mpr]
      intro c hc
      obtain ⟨g, hg, rfl⟩ := List.mem_map.mp hc
      simp only [beq_iff_eq]
      exact fun he => hnot (he ▸ List.mem_map_of_mem hg)
    · have hne : ¬ (g.name == fd.name) = true := by
        simp only [beq_iff_eq]
        exact fun he => hnot (he ▸ List.mem_map_of_mem hmem)
      rw [if_neg hne, ih hrest hmem]

theorem pkBatch_column (hmem : fd ∈ schema.fields) (pkDef : FieldDef) (v : PkValue) :
    (pkBatch schema pkDef v).getColumnByName fd.name =
      some (if fd = pkDef then v.column else nullColumn fd) := by
  have hfilter := getColumnByName_map (fun g => if g = pkDef then v.column else nullColumn g)
    schema.names hmem
  simp only [RecordBatch.getColumnByName, pkBatch, hfilter]

theorem pkBatch_validated (schema : Schema) (pkDef : FieldDef) (v : PkValue) :
    validateBatchColumns (pkBatch schema pkDef v) schema = .ok () := by
  have hnone : schema.fields.find?
      (fun fd => ((pkBatch schema pkDef v).getColumnByName fd.name).isNone) = none := by
    rw [List.find?_eq_none]
    intro fd hfd
    rw [pkBatch_column hfd]
    exact Bool.false_ne_true
  simp only [validateBatchColumns, hnone]

theorem applyField_nullColumn (doc : Y.Doc) (fd : FieldDef) :
    applyField Y doc fd (nullColumn fd) 0 = .ok doc := by
  unfold applyField nullColumn
  split
  · rfl
  · rfl

theorem applyField_column (htype : fd.type = v.type) (harr : fd.isArray = false) (doc : Y.Doc) :
    ∃ doc', applyField Y doc fd v.column 0 = .ok doc' := by
  obtain ⟨name, fid, type, arr⟩ := fd
  obtain rfl : type = v.type := htype
  obtain rfl : arr = false := harr
  cases v <;> exact ⟨_, rfl⟩

theorem pkBatch_fold (htype : fd.type = v.type) (harr : fd.isArray = false)
    {fds : List FieldDef} (hfds : ∀ g ∈ fds, g ∈ schema.fields) (doc : Y.Doc) :
    ∃ doc', fds.foldlM (applyColumn Y (pkBatch schema fd v) 0) doc = .ok doc' := by
  induction fds generalizing doc with
  | nil => exact ⟨doc, rfl⟩
  | cons g rest ih =>
    have hturn : ∃ mid, applyColumn Y (pkBatch schema fd v) 0 doc g = .ok mid := by
      unfold applyColumn
      rw [pkBatch_column (hfds g List.mem_cons_self)]
      by_cases hg : g = fd
      · subst hg
        rw [if_pos rfl]
        exact applyField_column htype harr doc
      · rw [if_neg hg]
        exact ⟨doc, applyField_nullColumn doc g⟩
    obtain ⟨mid, hmid⟩ := hturn
    obtain ⟨doc', hrest⟩ := ih (fun g' hg' => hfds g' (List.mem_cons_of_mem _ hg')) mid
    exact ⟨doc', foldlM_cons_eq_ok.mpr ⟨mid, hmid, hrest⟩⟩

/-- The pk field of an imported row holds the value of its cell. -/
theorem get_importedPk (hfd : schema.findField schema.pk = some fd) (htype : fd.type = v.type)
    (harr : fd.isArray = false) {batch : RecordBatch} {row : Nat} {col : ArrowArray}
    {doc : Y.Doc} (hcol : batch.getColumnByName fd.name = some col)
    (hnull : arrowCellIsNull col row = false) (hcell : v.InCell col row)
    (h : schema.fields.foldlM (applyColumn Y batch row) Y.newDoc = .ok doc) :
    Y.get doc fd.fieldId (.scalar v.type.elem) = v.stored := by
  have hmem : fd ∈ schema.fields := (Schema.findField_eq_some.mp hfd).1
  obtain ⟨before, after, hfield, -, hafter⟩ := foldColumns_self h schema.ids hmem hcol
  rw [hafter]
  exact get_cellPk htype harr hnull hcell hfield

theorem accepts_import (hfd : schema.findField schema.pk = some fd) (htype : fd.type = v.type)
    (harr : fd.isArray = false) :
    Accepts N Y schema fd v k .bulkImport ↔ PkValue.keyVia .bulkImport v = some k := by
  constructor
  · rintro ⟨batch, row, col, doc, -, -, hcol, hnull, hcell, hrow, hk⟩
    obtain ⟨pk, hfold, hpk, hne⟩ := importRow_eq_some hrow
    have hget := get_importedPk hfd htype harr hcol hnull hcell hfold
    rw [importPk_stored htype doc hget] at hpk hk
    obtain rfl := Except.ok.inj hpk
    obtain rfl := Except.ok.inj hk
    exact if_neg hne
  · intro hkey
    have hmem : fd ∈ schema.fields := (Schema.findField_eq_some.mp hfd).1
    obtain ⟨doc, hfold⟩ :
        ∃ doc, schema.fields.foldlM (applyColumn Y (pkBatch schema fd v) 0) Y.newDoc = .ok doc :=
      pkBatch_fold htype harr (fun g hg => hg) Y.newDoc
    have hcol := (pkBatch_column hmem fd v).trans (congrArg some (if_pos rfl))
    have hnull : arrowCellIsNull v.column 0 = false := by cases v <;> rfl
    have hcell : v.InCell v.column 0 := by cases v <;> rfl
    have hget := get_importedPk hfd htype harr hcol hnull hcell hfold
    have hk : v.text = k := by
      have hne := keyVia_ne_empty (by decide) hkey
      simp only [PkValue.keyVia] at hkey
      split at hkey
      · cases hkey
      · exact Option.some.inj hkey
    subst hk
    have hpk := importPk_stored htype doc hget
    exact ⟨pkBatch schema fd v, 0, v.column, doc, pkBatch_validated schema fd v, Nat.one_pos,
      hcol, hnull, hcell,
      importRow_of_fold hcol hnull hfold hpk (keyVia_ne_empty (by decide) hkey), hpk⟩

/-! ## Agreement -/

/-- The id of the pk limits only the requests, which carry it in 16 bits. -/
theorem accepts_iff (hN : ReadsIntegers N) (hfd : schema.findField schema.pk = some fd)
    (htype : fd.type = v.type) (harr : fd.isArray = false) (p : WritePath) :
    Accepts N Y schema fd v k p ↔
      (p = .rpc → fd.fieldId < 65536) ∧ PkValue.keyVia p v = some k := by
  cases p with
  | rpc => simp [accepts_rpc hfd htype harr]
  | stream => simp [accepts_stream hN hfd htype]
  | bulkImport => simp [accepts_import hfd htype harr]

theorem keyVia_of_shared (h : SharedKey v) (p : WritePath) : PkValue.keyVia p v = some v.text := by
  cases v with
  | bool b => exact absurd h id
  | bytes s => exact absurd h id
  | int32 n => cases p <;> first | rfl | exact if_neg (text_numeric rfl)
  | int64 n => cases p <;> first | rfl | exact if_neg (text_numeric rfl)
  | string s => cases p <;> first | rfl | exact if_neg h

theorem shared_of_keyVia {k' : String} (hrpc : PkValue.keyVia .rpc v = some k)
    (hstream : PkValue.keyVia .stream v = some k') : SharedKey v := by
  cases v with
  | bool b => cases hstream
  | bytes s => cases hrpc
  | int32 n => trivial
  | int64 n => trivial
  | string s =>
    rintro rfl
    simp [PkValue.keyVia, PkValue.text] at hrpc

/-- Each value is taken by the stream or by the import. -/
theorem taken_somewhere (v : PkValue) : ∃ p k, p ≠ .rpc ∧ PkValue.keyVia p v = some k := by
  cases v with
  | bool b => exact ⟨.bulkImport, _, by decide, if_neg (text_numeric rfl)⟩
  | _ => exact ⟨.stream, _, by decide, rfl⟩

/-- The three paths agree on a pk value when it is an integer or a text of type String
that is not empty, and the id of the pk fits a request. -/
theorem pathsAgree_iff (N : Nlohmann) (hN : ReadsIntegers N) (Y : Yikv) (schema : Schema)
    (pkDef : FieldDef) (v : PkValue) (hfd : schema.findField schema.pk = some pkDef)
    (htype : pkDef.type = v.type) (harr : pkDef.isArray = false) :
    PathsAgree N Y schema pkDef v ↔ pkDef.fieldId < 65536 ∧ SharedKey v := by
  simp only [PathsAgree, accepts_iff hN hfd htype harr]
  constructor
  · intro h
    obtain ⟨p, k, hp, hk⟩ := taken_somewhere v
    have hall := h p k ⟨fun he => absurd he hp, hk⟩
    obtain ⟨⟨krpc, hfits, hrpc⟩, -⟩ := hall .rpc
    obtain ⟨⟨kstream, -, hstream⟩, -⟩ := hall .stream
    exact ⟨hfits rfl, shared_of_keyVia hrpc hstream⟩
  · rintro ⟨hfits, hshared⟩ p k ⟨-, hk⟩ q
    have hq := keyVia_of_shared hshared q
    refine ⟨⟨_, fun _ => hfits, hq⟩, fun k' ⟨_, hk'⟩ => ?_⟩
    rw [keyVia_of_shared hshared] at hk
    rw [hq] at hk'
    exact Option.some.inj (hk'.symm.trans hk)

/-- A table of flags: its pk is a Bool. -/
def flagsSchema : Schema where
  fields := [⟨"flag", 1, .bool, false⟩, ⟨"age", 2, .int32, false⟩]
  pk := "flag"
  names := by decide
  ids := by decide

theorem plainJson_readsIntegers : ReadsIntegers (plainJson []) where
  i32 v := congrArg Except.ok (Int32.ofInt_toInt v)
  i64 v := congrArg Except.ok (Int64.ofInt_toInt v)

theorem users_agree : PathsAgree (plainJson []) .plain usersSchema ⟨"user_id", 1, .int64, false⟩
    (.int64 7) :=
  (pathsAgree_iff (plainJson []) plainJson_readsIntegers .plain usersSchema _ (.int64 7) rfl rfl
    rfl).mpr ⟨by decide, trivial⟩

/-- A put and an import take the row whose flag is set, the stream does not. -/
theorem flags_disagree :
    ¬ PathsAgree (plainJson []) .plain flagsSchema ⟨"flag", 1, .bool, false⟩ (.bool true) := by
  intro h
  have hput : Accepts (plainJson []) .plain flagsSchema ⟨"flag", 1, .bool, false⟩ (.bool true) "1"
      .rpc :=
    (accepts_rpc rfl rfl rfl).mpr ⟨by decide, by decide⟩
  obtain ⟨⟨k, obj, hobj, hk⟩, -⟩ := h .rpc "1" hput .stream
  have hfind : obj.find "flag" = some (.boolean true) := hobj
  simp [Stream.extractPkString, flagsSchema, Schema.findField, hfind, Json.isNull] at hk

end YikvServer.Import
