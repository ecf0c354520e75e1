import YikvServer.Stream.JsonStreamIngest

/-!
# `db/handlers.cc`: the write handlers

`HandlePut` and `HandlePutBatch` as programs over one table's index, with the ends
of their `write_mu` sections. A row carries every field the handlers read; null
vectors, strings and entries are `none`. An error response is a refusal with its
text.
-/
namespace YikvServer.Db

open YikvServer.Theory YikvServer.Index YikvServer.Stream

/-- `ValueType`; a byte outside the enumeration is `unknown`. -/
inductive ValueType where
  | none | bool | i32 | i64 | f32 | f64 | string | bytes
  | arrI32 | arrI64 | arrF32 | arrF64 | arrString | unknown
  deriving DecidableEq, Repr

structure FieldValue where
  fieldId : UInt16
  vtype : ValueType
  i32 : Int32 := 0
  i64 : Int64 := 0
  f32 : UInt32 := 0
  f64 : UInt64 := 0
  s : Option String := Option.none
  raw : Option String := Option.none
  ai32 : Option (List Int32) := Option.none
  ai64 : Option (List Int64) := Option.none
  af32 : Option (List UInt32) := Option.none
  af64 : Option (List UInt64) := Option.none
  as : Option (List (Option String)) := Option.none

structure Row where
  fields : Option (List (Option FieldValue))

structure PutRequest where
  row : Option Row
  tableName : Option String

structure PutBatchRequest where
  rows : Option (List (Option Row))
  tableName : Option String

def fieldTypeMismatch (Y : Yikv) (fd : FieldDef) : String :=
  "field_id " ++ toStringInt fd.fieldId ++ " type mismatch for schema " ++ Y.dataTypeName fd.type

def fieldValueMatchesSchema (fd : FieldDef) (vt : ValueType) : Bool :=
  if fd.isArray then
    match fd.type with
    | .int32 => vt == .arrI32
    | .int64 => vt == .arrI64
    | .float32 => vt == .arrF32
    | .float64 => vt == .arrF64
    | .string => vt == .arrString
    | _ => false
  else
    match fd.type with
    | .bool => vt == .bool
    | .int32 => vt == .i32
    | .int64 => vt == .i64
    | .float32 => vt == .f32
    | .float64 => vt == .f64
    | .string => vt == .string
    | .bytes => vt == .bytes

section Rows
variable (Y : Yikv) (schema : Schema)

/-- `array_put_…` when the vector is there. -/
def putArray (doc : Y.Doc) (fid : Nat) (e : Elem) : Option (List e.Val) → Y.Doc
  | none => doc
  | some xs => Y.put doc fid (.array e) xs

/-- One turn of the loop of `ApplyRowToDoc`. -/
def applyFieldValue (doc : Y.Doc) (fv : FieldValue) : Except String Y.Doc :=
  match schema.findFieldById fv.fieldId.toNat with
  | none => .error ("unknown field_id " ++ toStringInt fv.fieldId.toNat)
  | some fd =>
    if fieldValueMatchesSchema fd fv.vtype = false then .error (fieldTypeMismatch Y fd)
    else
      match fv.vtype with
      | .bool => .ok (Y.put doc fd.fieldId (.scalar .i32) (if fv.i32 ≠ 0 then (1 : Int32) else 0))
      | .i32 => .ok (Y.put doc fd.fieldId (.scalar .i32) fv.i32)
      | .i64 => .ok (Y.put doc fd.fieldId (.scalar .i64) fv.i64)
      | .f32 => .ok (Y.put doc fd.fieldId (.scalar .f32) fv.f32)
      | .f64 => .ok (Y.put doc fd.fieldId (.scalar .f64) fv.f64)
      | .string => .ok (Y.put doc fd.fieldId (.scalar .str) (fv.s.getD ""))
      | .bytes => .ok (Y.put doc fd.fieldId (.scalar .str) (fv.raw.getD ""))
      | .arrI32 => .ok (putArray Y doc fd.fieldId .i32 fv.ai32)
      | .arrI64 => .ok (putArray Y doc fd.fieldId .i64 fv.ai64)
      | .arrF32 => .ok (putArray Y doc fd.fieldId .f32 fv.af32)
      | .arrF64 => .ok (putArray Y doc fd.fieldId .f64 fv.af64)
      | .arrString => .ok (putArray Y doc fd.fieldId .str (fv.as.map fun xs => xs.map (·.getD "")))
      | _ => .error ("unsupported ValueType for field_id " ++ toStringInt fv.fieldId.toNat)

def applyRowToDoc (doc : Y.Doc) (row : Row) : Except String Y.Doc :=
  match row.fields with
  | none => .ok doc
  | some fields => fields.reduceOption.foldlM (applyFieldValue Y schema) doc

/-- `db::ExtractPkString`: empty when the pk cannot be derived. -/
def extractPkString (doc : Y.Doc) : String :=
  match schema.findField schema.pk with
  | none => ""
  | some fd =>
    match fd.type with
    | .bool | .int32 => toStringInt (Y.get doc fd.fieldId (.scalar .i32)).toInt
    | .int64 => toStringInt (Y.get doc fd.fieldId (.scalar .i64)).toInt
    | .string => Y.get doc fd.fieldId (.scalar .str)
    | _ => ""

/-- The document of one row, checked as `HandlePut` checks it. -/
def rowDoc (noPk : String) (row : Row) : Except String Y.Doc :=
  match applyRowToDoc Y schema Y.newDoc row with
  | .error err => .error err
  | .ok doc => if extractPkString Y schema doc = "" then .error noPk else .ok doc

/-- The staging loop of `HandlePutBatch`. -/
def stageRows : List (Option Row) → Except String (List Y.Doc)
  | [] => .ok []
  | none :: _ => .error "null row in batch"
  | some row :: rest =>
    match rowDoc Y schema "cannot derive pk" row with
    | .error err => .error err
    | .ok doc => (stageRows rest).map (doc :: ·)

end Rows

section Handlers
variable (Y : Yikv)

/-- `AcquireOrError`: the schema of the slot found. -/
def acquireOrError (acquire : String → Option Schema) : Option String → Except Stop Schema
  | none => .error (.refused "missing table_name in request")
  | some name =>
    if name = "" then .error (.refused "missing table_name in request")
    else
      match acquire name with
      | none => .error (.refused ("unknown table: " ++ name))
      | some schema => .ok schema

/-- `lock_guard`: one index call, or an error response, inside `write_mu`. -/
def locked (work : Except String (Yikv.KvOp Y)) : Apply Y :=
  .step .lock fun _ =>
    match work with
    | .error err => .step .unlock fun _ => .fail (.refused err)
    | .ok op => .step op fun _ => .step .unlock fun _ => .pure ()

def handlePut (acquire : String → Option Schema) (req : PutRequest) : Apply Y :=
  match req.row with
  | none => .fail (.refused "missing row")
  | some row => do
    let schema ← Prog.lift (acquireOrError acquire req.tableName)
    locked Y ((rowDoc Y schema "cannot derive pk (check pk field type in schema)" row).map .upsert)

def handlePutBatch (acquire : String → Option Schema) (req : PutBatchRequest) : Apply Y :=
  match req.rows with
  | none => .fail (.refused "missing rows")
  | some rows => do
    let schema ← Prog.lift (acquireOrError acquire req.tableName)
    if rows = [] then .fail (.refused "empty batch")
    else locked Y ((stageRows Y schema rows).map .batchUpsert)

end Handlers
end YikvServer.Db
