import YikvServer.Db.Handlers

/-!
# `db/handlers.cc`: the read handlers

`CreateFieldValue` takes the slots of the table by position. A scalar equal to its
default is left out of the table and read back as the default, so that a float that is a
negative zero comes back as zero; a zero offset is read back as null. Floats are their bits.
`index_get_ns` is a measurement and left out.
-/
namespace YikvServer.Db

open YikvServer.Theory YikvServer.Index YikvServer.Stream

structure GetRequest where
  pk : Option String
  tableName : Option String

structure GetResponse where
  found : Bool
  err : Option String
  row : Option Row

structure BatchGetRequest where
  pks : Option (List (Option String))
  tableName : Option String

structure BatchGetResponse where
  rows : Option (List Row)
  err : Option String

/-- `AddElement`: the slot of a scalar. -/
def addElement {α : Type} [DecidableEq α] (v default : α) : Option α :=
  if v = default then none else some v

/-- `GetField`: what a reader finds in the slot. -/
def getField {α : Type} (slot : Option α) (default : α) : α := slot.getD default

@[simp] theorem getField_addElement {α : Type} [DecidableEq α] (v default : α) :
    getField (addElement v default) default = v := by
  unfold getField addElement
  split
  · rename_i h
    exact h.symm
  · rfl

/-- `f == 0.0f`, by the bits. -/
def isZero32 (f : UInt32) : Bool := f = 0 || f = 0x80000000

/-- `d == 0.0`, by the bits. -/
def isZero64 (d : UInt64) : Bool := d = 0 || d = 0x8000000000000000

/-- `AddElement` of a float, whose default is zero and which `==` compares with it. -/
def addFloat {α : Type} (isZero : α → Bool) (v : α) : Option α :=
  if isZero v then none else some v

/-- A float that is a zero arrives as zero. -/
def received32 (f : UInt32) : UInt32 := if isZero32 f then 0 else f

def received64 (d : UInt64) : UInt64 := if isZero64 d then 0 else d

@[simp] theorem getField_addFloat32 (f : UInt32) :
    getField (addFloat isZero32 f) 0 = received32 f := by
  unfold getField addFloat received32
  split <;> rfl

@[simp] theorem getField_addFloat64 (d : UInt64) :
    getField (addFloat isZero64 d) 0 = received64 d := by
  unfold getField addFloat received64
  split <;> rfl

theorem isZero32_received (f : UInt32) : isZero32 (received32 f) = isZero32 f := by
  cases h : isZero32 f with
  | true => rw [received32, if_pos h]; rfl
  | false => rw [received32, if_neg (by rw [h]; decide), h]

theorem isZero64_received (d : UInt64) : isZero64 (received64 d) = isZero64 d := by
  cases h : isZero64 d with
  | true => rw [received64, if_pos h]; rfl
  | false => rw [received64, if_neg (by rw [h]; decide), h]

theorem received32_idem (f : UInt32) : received32 (received32 f) = received32 f := by
  rw [received32, isZero32_received]
  unfold received32
  split <;> rfl

theorem received64_idem (d : UInt64) : received64 (received64 d) = received64 d := by
  rw [received64, isZero64_received]
  unfold received64
  split <;> rfl

/-- The only float that changes on its way is the negative zero. -/
theorem received32_eq_iff (f : UInt32) : received32 f = f ↔ f ≠ 0x80000000 := by
  cases h : isZero32 f with
  | true =>
    rw [received32, if_pos h]
    rcases (by simpa [isZero32] using h : f = 0 ∨ f = 0x80000000) with rfl | rfl <;> decide
  | false =>
    rw [received32, if_neg (by rw [h]; decide)]
    refine iff_of_true rfl ?_
    rintro rfl
    cases h

theorem received64_eq_iff (d : UInt64) : received64 d = d ↔ d ≠ 0x8000000000000000 := by
  cases h : isZero64 d with
  | true =>
    rw [received64, if_pos h]
    rcases (by simpa [isZero64] using h : d = 0 ∨ d = 0x8000000000000000) with rfl | rfl <;> decide
  | false =>
    rw [received64, if_neg (by rw [h]; decide)]
    refine iff_of_true rfl ?_
    rintro rfl
    cases h

/-- The generated `CreateFieldValue`, read back. -/
def createFieldValue (fieldId : UInt16) (vtype : ValueType) (i32 : Int32) (i64 : Int64)
    (f32 : UInt32) (f64 : UInt64) (s raw : Option String) (ai32 : Option (List Int32))
    (ai64 : Option (List Int64)) (af32 : Option (List UInt32)) (af64 : Option (List UInt64))
    (as : Option (List (Option String))) : FieldValue where
  fieldId := getField (addElement fieldId 0) 0
  vtype := getField (addElement vtype .none) .none
  i32 := getField (addElement i32 0) 0
  i64 := getField (addElement i64 0) 0
  f32 := getField (addFloat isZero32 f32) 0
  f64 := getField (addFloat isZero64 f64) 0
  s := s
  raw := raw
  ai32 := ai32
  ai64 := ai64
  af32 := af32
  af64 := af64
  as := as

section Build
variable (Y : Yikv) (doc : Y.Doc)

/-- `v.second ? fbb.CreateVector(v.first, v.second) : 0`. -/
def createVector {α : Type} (view : List α) : Option (List α) :=
  if view.length ≠ 0 then some view else none

def buildFieldValue (fd : FieldDef) : FieldValue :=
  let fid := UInt16.ofNat fd.fieldId
  if fd.isArray then
    match fd.type with
    | .int32 => createFieldValue fid .arrI32 0 0 0 0 none none
        (createVector (Y.get doc fd.fieldId (.array .i32))) none none none none
    | .int64 => createFieldValue fid .arrI64 0 0 0 0 none none
        none (createVector (Y.get doc fd.fieldId (.array .i64))) none none none
    | .float32 => createFieldValue fid .arrF32 0 0 0 0 none none
        none none (createVector (Y.get doc fd.fieldId (.array .f32))) none none
    | .float64 => createFieldValue fid .arrF64 0 0 0 0 none none
        none none none (createVector (Y.get doc fd.fieldId (.array .f64))) none
    | .string => createFieldValue fid .arrString 0 0 0 0 none none
        none none none none
        (createVector ((Y.get doc fd.fieldId (.array .str)).map fun s => some s))
    | _ => createFieldValue fid .none 0 0 0 0 none none none none none none none
  else
    match fd.type with
    | .bool => createFieldValue fid .bool
        (if Y.get doc fd.fieldId (.scalar .i32) ≠ (0 : Int32) then 1 else 0)
        0 0 0 none none none none none none none
    | .int32 => createFieldValue fid .i32 (Y.get doc fd.fieldId (.scalar .i32))
        0 0 0 none none none none none none none
    | .int64 => createFieldValue fid .i64 0 (Y.get doc fd.fieldId (.scalar .i64))
        0 0 none none none none none none none
    | .float32 => createFieldValue fid .f32 0 0 (Y.get doc fd.fieldId (.scalar .f32))
        0 none none none none none none none
    | .float64 => createFieldValue fid .f64 0 0 0 (Y.get doc fd.fieldId (.scalar .f64))
        none none none none none none none
    | .string => createFieldValue fid .string 0 0 0 0
        (some (Y.get doc fd.fieldId (.scalar .str))) none none none none none none
    | .bytes => createFieldValue fid .bytes 0 0 0 0
        none (some (Y.get doc fd.fieldId (.scalar .str))) none none none none none

def buildRow (schema : Schema) : Row where
  fields := some (schema.fields.map fun fd => some (buildFieldValue Y doc fd))

end Build

def handleGet (Y : Yikv) (acquire : String → Option Schema) (req : GetRequest) :
    Prog Stop (Yikv.KvOp.Res Y) GetResponse :=
  match req.pk with
  | none => .fail (.refused "missing pk")
  | some pk => do
    let schema ← Prog.lift (acquireOrError acquire req.tableName)
    let hit : Option Y.Doc ← Prog.perform (Yikv.KvOp.get pk)
    match hit with
    | none => pure ⟨false, some "", none⟩
    | some doc => pure ⟨true, some "", some (buildRow Y doc schema)⟩

/-- The loop of `HandleBatchGet` over the keys; `CreateRow(fbb, 0)` is a row without fields. -/
def batchGetRows (Y : Yikv) (schema : Schema) :
    List (Option String) → Prog Stop (Yikv.KvOp.Res Y) (List Row)
  | [] => pure []
  | none :: rest => do
    let rows ← batchGetRows Y schema rest
    pure (⟨none⟩ :: rows)
  | some pk :: rest => do
    let hit : Option Y.Doc ← Prog.perform (Yikv.KvOp.get pk)
    let rows ← batchGetRows Y schema rest
    match hit with
    | none => pure (⟨none⟩ :: rows)
    | some doc => pure (buildRow Y doc schema :: rows)

def handleBatchGet (Y : Yikv) (acquire : String → Option Schema) (req : BatchGetRequest) :
    Prog Stop (Yikv.KvOp.Res Y) BatchGetResponse :=
  match req.pks with
  | none => .fail (.refused "missing pks")
  | some pks => do
    let schema ← Prog.lift (acquireOrError acquire req.tableName)
    let rows ← batchGetRows Y schema pks
    pure ⟨some rows, some ""⟩

end YikvServer.Db
