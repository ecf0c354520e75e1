import YikvServer.Import.Contents
import YikvServer.Import.MysqlWire

/-!
# From the rows of a query to documents

`ProduceLoop` of `mysql_wire_source.cc` around the appends: the checks of the schema, the
column of the result for each field, the builders, and `FlushBatch`, which makes a record
batch of them. `ProcessBatch` takes the batch apart row by row again: what comes out is, for
each row of the result, the document of its own cells.
-/
namespace YikvServer.Import

open YikvServer.Index

/-- A row of the result; null or the bytes of each column. -/
abbrev ResultRow := List (Option (List UInt8))

section Source
variable (schema : Schema)

/-- `NameEqualInsensitive`. -/
def nameEqualInsensitive (a b : String) : Bool :=
  decide (a.toList.map Char.toLower = b.toList.map Char.toLower)

def validateNoArrayFields : Except ImportError Unit :=
  match schema.fields.find? FieldDef.isArray with
  | none => .ok ()
  | some fd =>
    mysqlInvalid ("array fields not supported (" ++ fd.name ++ "); CAST in SQL or use file import")

/-- The column of the result that has the name of the field. -/
def mapColumn (names : List String) (fd : FieldDef) : Except ImportError Nat :=
  match names.findIdxs fun name => nameEqualInsensitive fd.name name with
  | [] => mysqlInvalid ("result set missing column: " ++ fd.name)
  | [j] => .ok j
  | _ => mysqlInvalid ("ambiguous duplicate name for column " ++ fd.name)

/-- `MapColumns`: each field with its column of the result. -/
def mapColumns (names : List String) : List FieldDef → Except ImportError (List (FieldDef × Nat))
  | [] => .ok []
  | fd :: rest =>
    match mapColumn names fd with
    | .error err => .error err
    | .ok j =>
      match mapColumns names rest with
      | .error err => .error err
      | .ok columns => .ok ((fd, j) :: columns)

/-- The checks before the first row, with their result. -/
def setup (names : List String) : Except ImportError (List (FieldDef × Nat)) :=
  match validateNoArrayFields schema with
  | .error err => .error err
  | .ok () => mapColumns names schema.fields

end Source

/-- `row[j]`. -/
def cell (row : ResultRow) (column : FieldDef × Nat) : Option (List UInt8) := (row[column.2]?).join

/-- The builders before the first row of a batch. -/
def newBuilders (columns : List (FieldDef × Nat)) : List Column :=
  columns.map fun column => ⟨column.1.type, []⟩

/-- The slot of a builder's cell. -/
def slot {α β : Type} [Inhabited β] (f : α → β) : Option α → Slot β
  | none => ⟨true, default⟩
  | some v => ⟨false, f v⟩

/-- `Finish` of a builder. -/
def finish : Column → ArrowArray
  | ⟨.bool, b⟩ => .bool (b.map (slot id))
  | ⟨.int32, b⟩ => .int32 (b.map (slot id))
  | ⟨.int64, b⟩ => .int64 (b.map (slot id))
  | ⟨.float32, b⟩ => .float (b.map (slot id))
  | ⟨.float64, b⟩ => .double (b.map (slot id))
  | ⟨.string, b⟩ => .string (b.map (slot fun data => String.ofList (textOf data)))
  | ⟨.bytes, b⟩ => .string (b.map (slot fun data => String.ofList (textOf data)))

/-- `FlushBatch` up to the push; none when there is nothing to push. -/
def flushBatch (fields : List FieldDef) (builders : List Column) :
    Except ImportError (Option RecordBatch) :=
  let arrays := fields.map FieldDef.name |>.zip (builders.map finish)
  let nrows := (arrays.head?.map fun c => c.2.nulls.length).getD 0
  if h : ∀ c ∈ arrays, c.2.nulls.length = nrows then
    if nrows = 0 then .ok none else .ok (some ⟨nrows, arrays, h⟩)
  else mysqlInvalid "ragged builders"

/-- The rows of a batch appended one after another. -/
def appendRows (F : FloatText) (columns : List (FieldDef × Nat)) (builders : List Column)
    (rows : List ResultRow) : Except ImportError (List Column) :=
  rows.foldlM (fun b row => appendRow F b (columns.map (cell row))) builders

/-- The record batch that is made of these rows; an empty one where none is. -/
def mysqlRecord (F : FloatText) (columns : List (FieldDef × Nat)) (rows : List ResultRow) :
    RecordBatch :=
  match appendRows F columns (newBuilders columns) rows with
  | .error _ => noRecord
  | .ok builders =>
    match flushBatch (columns.map Prod.fst) builders with
    | .ok (some batch) => batch
    | _ => noRecord

section Spec
variable (Y : Yikv) (F : FloatText)

/-- The value that a cell appends to the builder of its field; none for a null. -/
def cellValue (row : ResultRow) (column : FieldDef × Nat) : Option (BuilderVal column.1.type) :=
  match appendForField F column.1.type [] (cell row column) with
  | .ok [v] => v
  | _ => none

/-- Every cell of the row is taken. -/
def RowTaken (columns : List (FieldDef × Nat)) (row : ResultRow) : Prop :=
  ∀ column ∈ columns, ∃ b, appendForField F column.1.type [] (cell row column) = .ok b

/-- The value that a document stores for it. -/
def stored : (type : DataType) → BuilderVal type → type.elem.Val
  | .bool, v => if v then (1 : Int32) else (0 : Int32)
  | .int32, v => v
  | .int64, v => v
  | .float32, v => v
  | .float64, v => v
  | .string, v => String.ofList (textOf v)
  | .bytes, v => String.ofList (textOf v)

/-- A null leaves the default. -/
def storeCell (row : ResultRow) (doc : Y.Doc) (column : FieldDef × Nat) : Y.Doc :=
  match cellValue F row column with
  | none => doc
  | some v => Y.put doc column.1.fieldId (.scalar column.1.type.elem) (stored column.1.type v)

/-- The document of the cells of a row. -/
def resultDoc (columns : List (FieldDef × Nat)) (row : ResultRow) : Y.Doc :=
  columns.foldl (storeCell Y F row) Y.newDoc

/-- The document of a row that is imported: its pk is not null, and not empty. -/
def resultRow (columns : List (FieldDef × Nat)) (pk : String) (row : ResultRow) : Option Y.Doc :=
  match columns.find? fun column => column.1.name == pk with
  | none => none
  | some column =>
    match cellValue F row column, importPk Y column.1 (resultDoc Y F columns row) with
    | some _, .ok key => if key = "" then none else some (resultDoc Y F columns row)
    | _, _ => none

end Spec

variable {Y : Yikv} {F : FloatText} {schema : Schema} {columns : List (FieldDef × Nat)}
  {column : FieldDef × Nat} {row : ResultRow} {rows : List ResultRow}

/-! ## The builders -/

/-- What is appended does not depend on what is there. -/
theorem appendForField_ok {type : DataType} {data : Option (List UInt8)}
    {v : List (Option (BuilderVal type))} (h : appendForField F type [] data = .ok v)
    (b : Builder type) : ∃ x, v = [x] ∧ appendForField F type b data = .ok (b ++ [x]) := by
  cases data with
  | none =>
    cases type <;> exact ⟨none, (Except.ok.inj h).symm, rfl⟩
  | some data =>
    cases type <;>
      grind [appendForField, appendBool, appendInt32, appendInt64, appendFloat, appendDouble,
        appendUtf8, mysqlInvalid]

/-- The builders after these rows: each holds the values of its own column. -/
def buildersOf (F : FloatText) (columns : List (FieldDef × Nat)) (rows : List ResultRow) :
    List Column :=
  columns.map fun column => ⟨column.1.type, rows.map fun row => cellValue F row column⟩

theorem appendForField_taken {b : Builder column.1.type}
    (h : ∃ v, appendForField F column.1.type [] (cell row column) = .ok v) :
    appendForField F column.1.type b (cell row column) = .ok (b ++ [cellValue F row column]) := by
  obtain ⟨v, hv⟩ := h
  obtain ⟨x, rfl, happend⟩ := appendForField_ok hv b
  rw [happend, cellValue, hv]

theorem appendRow_buildersOf (h : RowTaken F columns row) :
    appendRow F (buildersOf F columns rows) (columns.map (cell row)) =
      .ok (buildersOf F columns (rows ++ [row])) := by
  induction columns with
  | nil => rfl
  | cons column columns ih =>
    have hrest := ih fun c hc => h c (List.mem_cons_of_mem _ hc)
    have hcell := appendForField_taken (b := rows.map fun row => cellValue F row column)
      (h column List.mem_cons_self)
    simp only [buildersOf, List.map_cons, appendRow] at hrest ⊢
    rw [hcell]
    dsimp only
    rw [hrest]
    simp

theorem appendRows_buildersOf {more : List ResultRow} (h : ∀ row ∈ more, RowTaken F columns row) :
    appendRows F columns (buildersOf F columns rows) more =
      .ok (buildersOf F columns (rows ++ more)) := by
  unfold appendRows
  induction more generalizing rows with
  | nil => simp [List.foldlM, pure, Except.pure]
  | cons row more ih =>
    rw [List.foldlM_cons, appendRow_buildersOf (h row List.mem_cons_self)]
    show List.foldlM _ (buildersOf F columns (rows ++ [row])) more = _
    rw [ih fun r hr => h r (List.mem_cons_of_mem _ hr), List.append_assoc]
    rfl

/-! ## The record batch -/

theorem nulls_finish (c : Column) : (finish c).nulls = c.2.map Option.isNone := by
  obtain ⟨type, b⟩ := c
  have hslot : ∀ {α β : Type} [Inhabited β] (f : α → β) (v : Option α),
      (slot f v).isNull = v.isNone := by
    intro α β _ f v
    cases v <;> rfl
  cases type <;> simp [finish, ArrowArray.nulls, hslot]

/-- The columns of the record batch of these rows. -/
def arraysOf (F : FloatText) (columns : List (FieldDef × Nat)) (rows : List ResultRow) :
    List (String × ArrowArray) :=
  columns.map fun column =>
    (column.1.name, finish ⟨column.1.type, rows.map fun row => cellValue F row column⟩)

theorem length_arraysOf {c : String × ArrowArray} (hc : c ∈ arraysOf F columns rows) :
    c.2.nulls.length = rows.length := by
  obtain ⟨column, -, rfl⟩ := List.mem_map.mp hc
  rw [nulls_finish, List.length_map, List.length_map]

theorem mysqlRecord_eq (htaken : ∀ row ∈ rows, RowTaken F columns row)
    (hcolumns : columns ≠ []) :
    (mysqlRecord F columns rows).numRows = rows.length ∧
      (rows ≠ [] → (mysqlRecord F columns rows).columns = arraysOf F columns rows) := by
  have hbuilders : appendRows F columns (newBuilders columns) rows =
      .ok (buildersOf F columns rows) := by
    show appendRows F columns (buildersOf F columns []) rows =
      .ok (buildersOf F columns ([] ++ rows))
    exact appendRows_buildersOf htaken
  have harrays : ((columns.map Prod.fst).map FieldDef.name).zip
      ((buildersOf F columns rows).map finish) = arraysOf F columns rows := by
    simp only [buildersOf, arraysOf, List.map_map, List.zip_map']
    rfl
  have hhead : ((arraysOf F columns rows).head?.map fun c => c.2.nulls.length).getD 0 =
      rows.length := by
    cases h : arraysOf F columns rows with
    | nil => exact absurd (List.map_eq_nil_iff.mp h) hcolumns
    | cons c rest => exact length_arraysOf (h ▸ List.mem_cons_self)
  have hflush : flushBatch (columns.map Prod.fst) (buildersOf F columns rows) =
      if rows.length = 0 then .ok none
      else .ok (some ⟨rows.length, arraysOf F columns rows, fun c hc => length_arraysOf hc⟩) := by
    unfold flushBatch
    simp only [harrays, hhead]
    rw [dif_pos fun c hc => length_arraysOf hc]
  rw [mysqlRecord, hbuilders]
  dsimp only
  rw [hflush]
  by_cases hnil : rows.length = 0
  · rw [if_pos hnil]
    exact ⟨hnil.symm, fun hne => absurd (List.length_eq_zero_iff.mp hnil) hne⟩
  · rw [if_neg hnil]
    exact ⟨rfl, fun _ => rfl⟩

/-! ## The documents -/

theorem null_finish {type : DataType} {cells : List (Option (BuilderVal type))} {i : Nat}
    {v : Option (BuilderVal type)} (hv : cells[i]? = some v) :
    arrowCellIsNull (finish ⟨type, cells⟩) i = v.isNone := by
  rw [arrowCellIsNull, nulls_finish, List.getElem?_map, hv]
  rfl

theorem value_slot {α β : Type} [Inhabited β] (f : α → β) {cells : List (Option α)} {i : Nat}
    {v : α} (hv : cells[i]? = some (some v)) : value (cells.map (slot f)) i = f v := by
  rw [value, List.getElem?_map, hv]
  rfl

/-- The cell of a builder goes into the document as its value; a null leaves the default. -/
theorem applyField_finish {fd : FieldDef} (hscalar : fd.isArray = false)
    {cells : List (Option (BuilderVal fd.type))} {i : Nat} {v : Option (BuilderVal fd.type)}
    (hv : cells[i]? = some v) (doc : Y.Doc) :
    applyField Y doc fd (finish ⟨fd.type, cells⟩) i =
      .ok (v.elim doc fun x => Y.put doc fd.fieldId (.scalar fd.type.elem) (stored fd.type x)) := by
  obtain ⟨name, id, type, isArray⟩ := fd
  obtain rfl : isArray = false := hscalar
  have hnull : arrowCellIsNull (finish ⟨type, cells⟩) i = v.isNone := null_finish hv
  show applyScalar Y doc _ _ i = _
  unfold applyScalar
  rw [hnull]
  cases v with
  | none => rfl
  | some v =>
    rw [if_neg (by simp)]
    cases type with
    | bool =>
      exact congrArg (fun b : Bool => Except.ok (Y.put doc id (.scalar .i32)
        (if b then (1 : Int32) else (0 : Int32)))) (value_slot (fun b : Bool => b) hv)
    | int32 =>
      exact congrArg (fun x : Int32 => Except.ok (Y.put doc id (.scalar .i32) x))
        (value_slot (fun x : Int32 => x) hv)
    | int64 =>
      exact congrArg (fun x : Int64 => Except.ok (Y.put doc id (.scalar .i64) x))
        (value_slot (fun x : Int64 => x) hv)
    | float32 =>
      exact congrArg (fun x : UInt32 => Except.ok (Y.put doc id (.scalar .f32) x))
        (value_slot (fun x : UInt32 => x) hv)
    | float64 =>
      exact congrArg (fun x : UInt64 => Except.ok (Y.put doc id (.scalar .f64) x))
        (value_slot (fun x : UInt64 => x) hv)
    | string =>
      exact congrArg (fun x : String => Except.ok (Y.put doc id (.scalar .str) x))
        (value_slot (fun data => String.ofList (textOf data)) hv)
    | bytes =>
      exact congrArg (fun x : String => Except.ok (Y.put doc id (.scalar .str) x))
        (value_slot (fun data => String.ofList (textOf data)) hv)

/-- The fields that the columns of the result are mapped to. -/
structure Mapped (schema : Schema) (columns : List (FieldDef × Nat)) : Prop where
  fields : columns.map Prod.fst = schema.fields
  scalar : ∀ fd ∈ schema.fields, fd.isArray = false

theorem mapColumns_fst {names : List String} {fds : List FieldDef}
    (h : mapColumns names fds = .ok columns) : columns.map Prod.fst = fds := by
  induction fds generalizing columns with
  | nil =>
    obtain rfl := Except.ok.inj h
    rfl
  | cons fd fds ih =>
    unfold mapColumns at h
    split at h
    · cases h
    split at h
    · cases h
    · next hrest =>
      obtain rfl := Except.ok.inj h
      rw [List.map_cons, ih hrest]

theorem mapped_of_setup {names : List String} (h : setup schema names = .ok columns) :
    Mapped schema columns := by
  unfold setup validateNoArrayFields at h
  cases hfind : schema.fields.find? FieldDef.isArray with
  | none =>
    rw [hfind] at h
    refine ⟨mapColumns_fst h, fun fd hfd => ?_⟩
    simpa using List.find?_eq_none.mp hfind fd hfd
  | some fd =>
    rw [hfind] at h
    cases h

theorem Mapped.names (h : Mapped schema columns) : (columns.map fun c => c.1.name).Nodup := by
  have hnames := schema.names
  rwa [← h.fields, List.map_map] at hnames

/-- One column has the name of a field. -/
theorem filter_name (hnames : (columns.map fun c => c.1.name).Nodup) (hmem : column ∈ columns) :
    columns.filter (fun c => c.1.name == column.1.name) = [column] := by
  induction columns with
  | nil => cases hmem
  | cons first rest ih =>
    obtain ⟨hnot, hrest⟩ := List.nodup_cons.mp hnames
    rw [List.filter_cons]
    rcases List.mem_cons.mp hmem with rfl | hmem
    · rw [if_pos (beq_self_eq_true _), List.filter_eq_nil_iff.mpr]
      intro c hc
      simp only [beq_iff_eq]
      exact fun he => hnot (List.mem_map.mpr ⟨c, hc, he⟩)
    · have hne : ¬ (first.1.name == column.1.name) = true := by
        simp only [beq_iff_eq]
        exact fun he => hnot (List.mem_map.mpr ⟨column, hmem, he.symm⟩)
      rw [if_neg hne, ih hrest hmem]

theorem getColumnByName_arrays (h : Mapped schema columns) {batch : RecordBatch}
    (hcols : batch.columns = arraysOf F columns rows) (hmem : column ∈ columns) :
    batch.getColumnByName column.1.name =
      some (finish ⟨column.1.type, rows.map fun row => cellValue F row column⟩) := by
  have hfilter : (arraysOf F columns rows).filter (fun c => c.1 == column.1.name) =
      arraysOf F (columns.filter fun c => c.1.name == column.1.name) rows := by
    rw [arraysOf, List.filter_map]
    rfl
  rw [filter_name h.names hmem] at hfilter
  rw [RecordBatch.getColumnByName, hcols, hfilter]
  rfl

/-- The columns of a row applied one after another. -/
theorem foldlM_applyColumn (h : Mapped schema columns) {batch : RecordBatch}
    (hcols : batch.columns = arraysOf F columns rows) {i : Nat} (hrow : rows[i]? = some row)
    {part : List (FieldDef × Nat)} (hsub : ∀ c ∈ part, c ∈ columns) (doc : Y.Doc) :
    (part.map Prod.fst).foldlM (applyColumn Y batch i) doc =
      .ok (part.foldl (storeCell Y F row) doc) := by
  induction part generalizing doc with
  | nil => rfl
  | cons column rest ih =>
    have hcell : (rows.map fun row => cellValue F row column)[i]? =
        some (cellValue F row column) := by
      rw [List.getElem?_map, hrow]
      rfl
    have hmem : column ∈ columns := hsub column List.mem_cons_self
    have hscalar : column.1.isArray = false :=
      h.scalar _ (h.fields ▸ List.mem_map_of_mem hmem)
    have happly : applyColumn Y batch i doc column.1 = .ok (storeCell Y F row doc column) := by
      unfold applyColumn
      rw [getColumnByName_arrays h hcols hmem]
      dsimp only
      rw [applyField_finish hscalar hcell doc, storeCell]
      cases cellValue F row column <;> rfl
    rw [List.map_cons, List.foldlM_cons, happly]
    exact ih (fun c hc => hsub c (List.mem_cons_of_mem _ hc)) _

theorem Mapped.findField (h : Mapped schema columns) : schema.findField schema.pk =
    (columns.find? fun column => column.1.name == schema.pk).map Prod.fst := by
  rw [Schema.findField, ← h.fields, List.find?_map]
  rfl

theorem rowDoc_arrays (h : Mapped schema columns) {batch : RecordBatch}
    (hcols : batch.columns = arraysOf F columns rows) {i : Nat} (hrow : rows[i]? = some row)
    (hpk : columns.find? (fun column => column.1.name == schema.pk) = some column) :
    rowDoc Y schema batch column.1 i = resultRow Y F columns schema.pk row := by
  have hmem : column ∈ columns := List.mem_of_find?_eq_some hpk
  have hcell : (rows.map fun row => cellValue F row column)[i]? =
      some (cellValue F row column) := by
    rw [List.getElem?_map, hrow]
    rfl
  have hdoc : schema.fields.foldlM (applyColumn Y batch i) Y.newDoc =
      .ok (resultDoc Y F columns row) := by
    rw [← h.fields]
    exact foldlM_applyColumn h hcols hrow (fun _ hc => hc) _
  rw [rowDoc, importRow, getColumnByName_arrays h hcols hmem, resultRow, hpk]
  dsimp only
  rw [null_finish hcell, hdoc]
  cases cellValue F row column with
  | none => rfl
  | some v =>
    dsimp only [Option.isNone]
    rw [if_neg Bool.false_ne_true]
    cases importPk Y column.1 (resultDoc Y F columns row) with
    | error err => rfl
    | ok key =>
      dsimp only
      by_cases hkey : key = ""
      · rw [if_pos hkey, if_pos hkey]
      · rw [if_neg hkey, if_neg hkey]

theorem filterMap_range {α β : Type} (f : α → Option β) (l : List α) :
    (List.range l.length).filterMap (fun i => l[i]?.bind f) = l.filterMap f := by
  have hrange : (List.range l.length).map (fun i => l[i]?) = l.map some := by
    refine List.ext_getElem (by simp) fun i hi hi' => ?_
    simp
  have hbind : (List.range l.length).filterMap (fun i => l[i]?.bind f) =
      ((List.range l.length).map fun i => l[i]?).filterMap fun x => x.bind f := by
    rw [List.filterMap_map]
    rfl
  rw [hbind, hrange, List.filterMap_map]
  rfl

/-- Put into columns by `FlushBatch` and taken apart by `ProcessBatch`, rows come out as the
documents of their own cells. -/
theorem importedDocs_mysql (h : Mapped schema columns)
    (htaken : ∀ row ∈ rows, RowTaken F columns row) :
    importedDocs Y schema (mysqlRecord F columns rows) =
      rows.filterMap (resultRow Y F columns schema.pk) := by
  rw [importedDocs, h.findField]
  cases hpk : columns.find? fun column => column.1.name == schema.pk with
  | none =>
    refine (List.filterMap_eq_nil_iff.mpr fun row _ => ?_).symm
    rw [resultRow, hpk]
  | some column =>
    have hne : columns ≠ [] := List.ne_nil_of_mem (List.mem_of_find?_eq_some hpk)
    obtain ⟨hnum, hcols⟩ := mysqlRecord_eq htaken hne
    show docsBefore Y schema _ column.1 _ = _
    rw [docsBefore, hnum, ← filterMap_range (resultRow Y F columns schema.pk) rows]
    refine List.filterMap_congr fun i hi => ?_
    obtain ⟨row, hrow⟩ : ∃ row, rows[i]? = some row :=
      ⟨_, List.getElem?_eq_getElem (List.mem_range.mp hi)⟩
    have hrows : rows ≠ [] := List.ne_nil_of_mem (List.mem_of_getElem? hrow)
    rw [rowDoc_arrays h (hcols hrows) hrow hpk, hrow]
    rfl

end YikvServer.Import
