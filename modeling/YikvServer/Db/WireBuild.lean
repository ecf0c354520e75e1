import YikvServer.Db.WireDecode
import YikvServer.Theory.FlatBufferFinish

/-!
# Building requests and responses

The generated `Create…` functions, `BuildFieldValue` and `BuildRow` of `db/handlers.cc` on a
`FlatBufferBuilder`, and what a reader finds in what they build. A float is equal to its
default when it is a zero of either sign, so that a negative zero that is a scalar is left
out and read back as zero; in an array it is kept.
-/
namespace YikvServer.Db.Wire

open YikvServer.Theory YikvServer.Theory.FlatBuffers YikvServer.Index YikvServer.Stream

/-! ## Texts -/

/-- The bytes of a text, one for each character. -/
def bytesOf (s : String) : List UInt8 := s.toList.map fun c => UInt8.ofNat c.toNat

/-- A text whose characters are bytes. -/
def ByteText (s : String) : Prop := ∀ c ∈ s.toList, c.toNat < 256

instance : DecidablePred ByteText := fun s =>
  @List.decidableBAll Char (fun c => c.toNat < 256) (fun c => Nat.decLt c.toNat 256) s.toList

def createText (s : String) : Build Nat := createString (bytesOf s)

/-- `CreateVector` of the bytes of a text. -/
def createBytes (s : String) : Build Nat :=
  FlatBuffers.createVector 1 ((bytesOf s).map fun c => c.toNat)

/-! ## The generated functions -/

/-- The byte of a `ValueType`; 13 is the first outside the enumeration. -/
def typeByte : ValueType → Nat
  | .none => 0
  | .bool => 1
  | .i32 => 2
  | .i64 => 3
  | .f32 => 4
  | .f64 => 5
  | .string => 6
  | .bytes => 7
  | .arrI32 => 8
  | .arrI64 => 9
  | .arrF32 => 10
  | .arrF64 => 11
  | .arrString => 12
  | .unknown => 13

/-- The calls of `add_…` in `CreateFieldValue`, in its order. -/
def fieldValueAdds (fieldId : UInt16) (vtype : ValueType) (i32 : Int32) (i64 : Int64)
    (f32 : UInt32) (f64 : UInt64) (s raw ai32 ai64 af32 af64 as : Nat) : List Add :=
  [.element 8 14 f64.toNat (isZero64 f64),
    .element 8 10 i64.toUInt64.toNat (i64 = 0),
    .offset 28 as,
    .offset 26 af64,
    .offset 24 af32,
    .offset 22 ai64,
    .offset 20 ai32,
    .offset 18 raw,
    .offset 16 s,
    .element 4 12 f32.toNat (isZero32 f32),
    .element 4 8 i32.toUInt32.toNat (i32 = 0),
    .element 2 4 fieldId.toNat (fieldId = 0),
    .element 1 6 (typeByte vtype) (typeByte vtype = 0)]

def createFieldValue (fieldId : UInt16) (vtype : ValueType) (i32 : Int32) (i64 : Int64)
    (f32 : UInt32) (f64 : UInt64) (s raw ai32 ai64 af32 af64 as : Nat) : Build Nat :=
  createTable (fieldValueAdds fieldId vtype i32 i64 f32 f64 s raw ai32 ai64 af32 af64 as)

def createRow (fields : Nat) : Build Nat := createTable [.offset 4 fields]

/-- The two fields of a request: `table_name` is added first. -/
def requestAdds (first tableName : Nat) : List Add := [.offset 6 tableName, .offset 4 first]

/-- A request whose first field is `Required`. -/
def createRequired (first tableName : Nat) : Build Nat := do
  let o ← createTable (requestAdds first tableName)
  required o 4
  return o

def createGetRequest (pk tableName : Nat) : Build Nat := createRequired pk tableName

def createPutRequest (row tableName : Nat) : Build Nat := createRequired row tableName

def createPutBatchRequest (rows tableName : Nat) : Build Nat := createRequired rows tableName

def createBatchGetRequest (pks tableName : Nat) : Build Nat :=
  createTable (requestAdds pks tableName)

def getResponseAdds (found : Bool) (err row : Nat) (indexGetNs : UInt64) : List Add :=
  [.element 8 10 indexGetNs.toNat (indexGetNs = 0), .offset 8 row, .offset 6 err,
    .element 1 4 found.toNat (found = false)]

def createGetResponse (found : Bool) (err row : Nat) (indexGetNs : UInt64) : Build Nat :=
  createTable (getResponseAdds found err row indexGetNs)

/-- The fields of a `PutResponse`, and of a `PutBatchResponse`. -/
def putResponseAdds (ok : Bool) (err : Nat) : List Add :=
  [.offset 6 err, .element 1 4 ok.toNat (ok = false)]

def createPutResponse (ok : Bool) (err : Nat) : Build Nat := createTable (putResponseAdds ok err)

def createPutBatchResponse (ok : Bool) (err : Nat) : Build Nat :=
  createTable (putResponseAdds ok err)

def batchGetResponseAdds (rows err : Nat) : List Add := [.offset 6 err, .offset 4 rows]

def createBatchGetResponse (rows err : Nat) : Build Nat :=
  createTable (batchGetResponseAdds rows err)

/-! ## `BuildRow` -/

/-- `v.second ? fbb.CreateVector(v.first, v.second) : 0`, of numbers in so many bytes. -/
def createView {α : Type} (n : Nat) (toNat : α → Nat) (view : List α) : Build Nat :=
  if view.length ≠ 0 then FlatBuffers.createVector n (view.map toNat) else pure 0

section BuildRow
variable (Y : Yikv) (doc : Y.Doc)

def buildFieldValue (fd : FieldDef) : Build Nat :=
  let fid := UInt16.ofNat fd.fieldId
  if fd.isArray then
    match fd.type with
    | .int32 => do
      let vec ← createView 4 (·.toUInt32.toNat) (Y.get doc fd.fieldId (.array .i32))
      createFieldValue fid .arrI32 0 0 0 0 0 0 vec 0 0 0 0
    | .int64 => do
      let vec ← createView 8 (·.toUInt64.toNat) (Y.get doc fd.fieldId (.array .i64))
      createFieldValue fid .arrI64 0 0 0 0 0 0 0 vec 0 0 0
    | .float32 => do
      let vec ← createView 4 (·.toNat) (Y.get doc fd.fieldId (.array .f32))
      createFieldValue fid .arrF32 0 0 0 0 0 0 0 0 vec 0 0
    | .float64 => do
      let vec ← createView 8 (·.toNat) (Y.get doc fd.fieldId (.array .f64))
      createFieldValue fid .arrF64 0 0 0 0 0 0 0 0 0 vec 0
    | .string => do
      let strs ← (Y.get doc fd.fieldId (.array .str)).mapM createText
      let vec ← if strs.length ≠ 0 then createVectorOfOffsets strs else pure 0
      createFieldValue fid .arrString 0 0 0 0 0 0 0 0 0 0 vec
    | _ => createFieldValue fid .none 0 0 0 0 0 0 0 0 0 0 0
  else
    match fd.type with
    | .bool => createFieldValue fid .bool
        (if Y.get doc fd.fieldId (.scalar .i32) ≠ (0 : Int32) then 1 else 0) 0 0 0 0 0 0 0 0 0 0
    | .int32 => createFieldValue fid .i32 (Y.get doc fd.fieldId (.scalar .i32)) 0 0 0 0 0 0 0 0 0 0
    | .int64 => createFieldValue fid .i64 0 (Y.get doc fd.fieldId (.scalar .i64)) 0 0 0 0 0 0 0 0 0
    | .float32 => createFieldValue fid .f32 0 0 (Y.get doc fd.fieldId (.scalar .f32))
        0 0 0 0 0 0 0 0
    | .float64 => createFieldValue fid .f64 0 0 0 (Y.get doc fd.fieldId (.scalar .f64))
        0 0 0 0 0 0 0
    | .string => do
      let s ← createText (Y.get doc fd.fieldId (.scalar .str))
      createFieldValue fid .string 0 0 0 0 s 0 0 0 0 0 0
    | .bytes => do
      let b ← createBytes (Y.get doc fd.fieldId (.scalar .str))
      createFieldValue fid .bytes 0 0 0 0 0 b 0 0 0 0 0

def buildRow (schema : Schema) : Build Nat := do
  let offs ← schema.fields.mapM (buildFieldValue Y doc)
  let fields ← createVectorOfOffsets offs
  createRow fields

end BuildRow

/-! ## Any field value, and any row -/

/-- An entry of a vector of offsets; a null one fails the assertion of `ReferTo`. -/
def createEntry {α : Type} (create : α → Build Nat) (x : Option α) : Build Nat :=
  createOptional create x

def createTexts (xs : List (Option String)) : Build Nat := do
  let strs ← xs.mapM (createEntry createText)
  createVectorOfOffsets strs

/-- Strings and vectors first, those that are there, and then the table. -/
def packFieldValue (fv : FieldValue) : Build Nat := do
  let s ← createOptional createText fv.s
  let raw ← createOptional createBytes fv.raw
  let ai32 ← createOptional (fun v => FlatBuffers.createVector 4 (v.map (·.toUInt32.toNat))) fv.ai32
  let ai64 ← createOptional (fun v => FlatBuffers.createVector 8 (v.map (·.toUInt64.toNat))) fv.ai64
  let af32 ← createOptional (fun v => FlatBuffers.createVector 4 (v.map (·.toNat))) fv.af32
  let af64 ← createOptional (fun v => FlatBuffers.createVector 8 (v.map (·.toNat))) fv.af64
  let as ← createOptional createTexts fv.as
  createFieldValue fv.fieldId fv.vtype fv.i32 fv.i64 fv.f32 fv.f64 s raw ai32 ai64 af32 af64 as

def packFields (fields : List (Option FieldValue)) : Build Nat := do
  let offs ← fields.mapM (createEntry packFieldValue)
  createVectorOfOffsets offs

def packRow (row : Row) : Build Nat := do
  let fields ← createOptional packFields row.fields
  createRow fields

section BuildRow
variable (Y : Yikv) (doc : Y.Doc)

theorem createOptional_view {α : Type} (n : Nat) (toNat : α → Nat) (view : List α) :
    createOptional (fun v => FlatBuffers.createVector n (v.map toNat)) (Db.createVector view) =
      createView n toNat view := by
  unfold Db.createVector createView
  split <;> rfl

theorem createOptional_texts (view : List String) :
    createOptional createTexts (Db.createVector (view.map some)) = (do
      let strs ← view.mapM createText
      if strs.length ≠ 0 then createVectorOfOffsets strs else pure 0) := by
  have hentries : ∀ vs : List String,
      (vs.map some).mapM (createEntry createText) = vs.mapM createText := fun vs => List.mapM_map
  cases view with
  | nil => rfl
  | cons v vs =>
    have hthere : Db.createVector ((v :: vs).map some) = some ((v :: vs).map some) :=
      if_pos (Nat.succ_ne_zero _)
    rw [hthere]
    show createTexts _ = _
    rw [createTexts, hentries, List.mapM_cons]
    simp only [bind_assoc, pure_bind, List.length_cons, ne_eq, Nat.add_one_ne_zero,
      not_false_eq_true, if_true]

/-- A float that is left out is not written, whatever its sign. -/
theorem add_received32 (f : UInt32) :
    add (.element 4 12 (received32 f).toNat (isZero32 (received32 f))) =
      add (.element 4 12 f.toNat (isZero32 f)) := by
  rw [isZero32_received]
  unfold received32
  split
  · next h => simp only [add, FlatBuffers.addElement, h, if_true]
  · rfl

theorem add_received64 (d : UInt64) :
    add (.element 8 14 (received64 d).toNat (isZero64 (received64 d))) =
      add (.element 8 14 d.toNat (isZero64 d)) := by
  rw [isZero64_received]
  unfold received64
  split
  · next h => simp only [add, FlatBuffers.addElement, h, if_true]
  · rfl

/-- What is created of the floats as they arrive is what is created of them. -/
theorem createFieldValue_received (fieldId : UInt16) (vtype : ValueType) (i32 : Int32)
    (i64 : Int64) (f32 : UInt32) (f64 : UInt64) (s raw ai32 ai64 af32 af64 as : Nat) :
    createFieldValue fieldId vtype i32 i64 (received32 f32) (received64 f64) s raw ai32 ai64 af32
      af64 as = createFieldValue fieldId vtype i32 i64 f32 f64 s raw ai32 ai64 af32 af64 as := by
  have hcons : ∀ (a : Add) (rest : List Add), (a :: rest).forM add = (do add a; rest.forM add) :=
    fun _ _ => rfl
  simp only [createFieldValue, createTable, fieldValueAdds, hcons, add_received32, add_received64]

/-- `BuildFieldValue` builds the field value that the abstract handler returns. -/
theorem buildFieldValue_eq (fd : FieldDef) :
    buildFieldValue Y doc fd = packFieldValue (Db.buildFieldValue Y doc fd) := by
  have hnone : ∀ {α : Type} (create : α → Build Nat), createOptional create none = pure 0 :=
    fun _ => rfl
  have hsome : ∀ {α : Type} (create : α → Build Nat) (a : α),
      createOptional create (some a) = create a := fun _ _ => rfl
  unfold buildFieldValue Db.buildFieldValue
  cases fd.isArray with
  | true =>
    simp only [if_true]
    cases fd.type with
    | string =>
      simp only [packFieldValue, Db.createFieldValue, getField_addElement, getField_addFloat32,
        getField_addFloat64, createFieldValue_received, hnone, createOptional_texts, pure_bind,
        bind_assoc]
      refine congrArg (_ >>= ·) (funext fun strs => ?_)
      split <;> simp only [pure_bind]
    | _ => simp only [packFieldValue, Db.createFieldValue, getField_addElement,
        getField_addFloat32, getField_addFloat64, createFieldValue_received, hnone,
        createOptional_view, pure_bind]
  | false =>
    simp only [Bool.false_eq_true, if_false]
    cases fd.type <;> simp only [packFieldValue, Db.createFieldValue, getField_addElement,
      getField_addFloat32, getField_addFloat64, createFieldValue_received, hnone, hsome, pure_bind]

/-- `BuildRow` builds the row that the abstract handler returns. -/
theorem buildRow_eq (schema : Schema) :
    buildRow Y doc schema = packRow (Db.buildRow Y doc schema) := by
  have hfields : (schema.fields.map fun fd => some (Db.buildFieldValue Y doc fd)).mapM
      (createEntry packFieldValue) = schema.fields.mapM (buildFieldValue Y doc) := by
    rw [List.mapM_map]
    exact congrArg (List.mapM · schema.fields) (funext fun fd => (buildFieldValue_eq Y doc fd).symm)
  show _ = (do
    let fields ← packFields (schema.fields.map fun fd => some (Db.buildFieldValue Y doc fd))
    createRow fields)
  rw [packFields, hfields, bind_assoc]
  rfl

end BuildRow

/-! ## Requests -/

def packRows (rows : List (Option Row)) : Build Nat := do
  let offs ← rows.mapM (createEntry packRow)
  createVectorOfOffsets offs

/-- A request, on a builder: what it carries, its table, and then the request itself. -/
def packRequest : Request → Build Nat
  | .get req => do
    let pk ← createOptional createText req.pk
    let tableName ← createOptional createText req.tableName
    createGetRequest pk tableName
  | .put req => do
    let row ← createOptional packRow req.row
    let tableName ← createOptional createText req.tableName
    createPutRequest row tableName
  | .putBatch req => do
    let rows ← createOptional packRows req.rows
    let tableName ← createOptional createText req.tableName
    createPutBatchRequest rows tableName
  | .batchGet req => do
    let pks ← createOptional createTexts req.pks
    let tableName ← createOptional createText req.tableName
    createBatchGetRequest pks tableName

end YikvServer.Db.Wire
