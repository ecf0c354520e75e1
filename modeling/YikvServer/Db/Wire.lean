import YikvServer.Db.Get
import YikvServer.Theory.FlatBuffers

/-!
# The handlers on the bytes of a request

What `db/handlers.cc` reads of a body, and when: `GetRoot`, and each accessor where the
handler calls it. The body is the `req_len` bytes that were received, and a read that is
not within them is an overread. A byte of a text is a character. That memory runs out is
not modelled.
-/
namespace YikvServer.Db.Wire

open YikvServer.Theory YikvServer.Theory.FlatBuffers YikvServer.Index YikvServer.Stream

/-- How a handler ends early: with an error response, or beyond the body. -/
inductive Fault where
  | overread (r : Overread)
  | stop (e : Stop)
  deriving DecidableEq

def reading {α : Type} (r : Read α) : Except Fault α := r.mapError .overread

def refuse {α : Type} (err : String) : Except Fault α := .error (.stop (.refused err))

/-- `std::string`. -/
def textOf (bs : List UInt8) : String := String.ofList (bs.map fun b => Char.ofNat b.toNat)

/-- A byte as a `ValueType`. -/
def valueType : Nat → ValueType
  | 0 => .none
  | 1 => .bool
  | 2 => .i32
  | 3 => .i64
  | 4 => .f32
  | 5 => .f64
  | 6 => .string
  | 7 => .bytes
  | 8 => .arrI32
  | 9 => .arrI64
  | 10 => .arrF32
  | 11 => .arrF64
  | 12 => .arrString
  | _ => .unknown

section Body
variable (body : Buffer)

/-- The bytes of a string or of a vector of bytes. -/
def text (p : Int) : Read String := (str body p).map textOf

/-- A pointer, and what it leads to when it is not null. -/
def optional {α : Type} (read : Int → Read α) (table : Int) (field : Nat) :
    Read (Option α) := do
  let p ← getPointer body table field
  match p with
  | none => pure none
  | some p => (read p).map some

/-! ## `FieldValue` -/

def fieldId (fv : Int) : Read UInt16 := (FlatBuffers.getField body 2 fv 4).map UInt16.ofNat

def vtype (fv : Int) : Read ValueType := (FlatBuffers.getField body 1 fv 6).map valueType

def i32 (fv : Int) : Read Int32 := (FlatBuffers.getField body 4 fv 8).map Int32.ofNat

def i64 (fv : Int) : Read Int64 := (FlatBuffers.getField body 8 fv 10).map Int64.ofNat

def f32 (fv : Int) : Read UInt32 := (FlatBuffers.getField body 4 fv 12).map UInt32.ofNat

def f64 (fv : Int) : Read UInt64 := (FlatBuffers.getField body 8 fv 14).map UInt64.ofNat

def s (fv : Int) : Read (Option String) := optional body (text body) fv 16

def raw (fv : Int) : Read (Option String) := optional body (text body) fv 18

/-- A vector of scalars of so many bytes. -/
def vector {α : Type} (n : Nat) (ofNat : Nat → α) (p : Int) : Read (List α) :=
  (scalars body n p).map fun xs => xs.map ofNat

def ai32 (fv : Int) : Read (Option (List Int32)) := optional body (vector body 4 Int32.ofNat) fv 20

def ai64 (fv : Int) : Read (Option (List Int64)) := optional body (vector body 8 Int64.ofNat) fv 22

def af32 (fv : Int) : Read (Option (List UInt32)) :=
  optional body (vector body 4 UInt32.ofNat) fv 24

def af64 (fv : Int) : Read (Option (List UInt64)) :=
  optional body (vector body 8 UInt64.ofNat) fv 26

/-- An element of a vector of strings is never null. -/
def as (fv : Int) : Read (Option (List (Option String))) :=
  optional body (elements body fun p => (text body p).map some) fv 28

/-- What the `switch` of `ApplyRowToDoc` reads: the slot that the type names. -/
def readValue (fv : Int) (fieldId : UInt16) (vt : ValueType) : Read FieldValue :=
  match vt with
  | .bool | .i32 => (i32 body fv).map fun v => { fieldId, vtype := vt, i32 := v }
  | .i64 => (i64 body fv).map fun v => { fieldId, vtype := vt, i64 := v }
  | .f32 => (f32 body fv).map fun v => { fieldId, vtype := vt, f32 := v }
  | .f64 => (f64 body fv).map fun v => { fieldId, vtype := vt, f64 := v }
  | .string => (s body fv).map fun v => { fieldId, vtype := vt, s := v }
  | .bytes => (raw body fv).map fun v => { fieldId, vtype := vt, raw := v }
  | .arrI32 => (ai32 body fv).map fun v => { fieldId, vtype := vt, ai32 := v }
  | .arrI64 => (ai64 body fv).map fun v => { fieldId, vtype := vt, ai64 := v }
  | .arrF32 => (af32 body fv).map fun v => { fieldId, vtype := vt, af32 := v }
  | .arrF64 => (af64 body fv).map fun v => { fieldId, vtype := vt, af64 := v }
  | .arrString => (as body fv).map fun v => { fieldId, vtype := vt, as := v }
  | .none | .unknown => pure { fieldId, vtype := vt }

/-! ## `ApplyRowToDoc` -/

section Rows
variable (Y : Yikv) (schema : Schema)

/-- One turn of the loop, on the table at a position. -/
def applyFieldValue (doc : Y.Doc) (fv : Int) : Except Fault Y.Doc := do
  let fieldId ← reading (fieldId body fv)
  match schema.findFieldById fieldId.toNat with
  | none => refuse ("unknown field_id " ++ toStringInt fieldId.toNat)
  | some fd => do
    let vt ← reading (vtype body fv)
    if fieldValueMatchesSchema fd vt = false then refuse (fieldTypeMismatch Y fd)
    else do
      let v ← reading (readValue body fv fieldId vt)
      (Db.applyFieldValue Y schema doc v).mapError fun err => .stop (.refused err)

/-- The turn for one entry of `fields`. -/
def applyEntry (fields : Int) (doc : Y.Doc) (i : Nat) : Except Fault Y.Doc := do
  let fv ← reading (element body fields i)
  applyFieldValue body Y schema doc fv

def applyRowToDoc (doc : Y.Doc) (row : Int) : Except Fault Y.Doc := do
  let fields ← reading (getPointer body row 4)
  match fields with
  | none => .ok doc
  | some fields => do
    let n ← reading (size body fields)
    (List.range (turns n)).foldlM (applyEntry body Y schema fields) doc

def rowDoc (noPk : String) (row : Int) : Except Fault Y.Doc := do
  let doc ← applyRowToDoc body Y schema Y.newDoc row
  if extractPkString Y schema doc = "" then refuse noPk else .ok doc

/-- The document of one entry of `rows`. -/
def stageRow (rows : Int) (i : Nat) : Except Fault Y.Doc := do
  let row ← reading (element body rows i)
  rowDoc body Y schema "cannot derive pk" row

end Rows

/-! ## The handlers -/

section Handlers
variable (Y : Yikv) (acquire : String → Option Schema)

def acquireOrError (tname : Option Int) : Except Fault Schema :=
  match tname with
  | none => refuse "missing table_name in request"
  | some tname => do
    let n ← reading (size body tname)
    if n = 0 then refuse "missing table_name in request"
    else do
      let name ← reading (text body tname)
      match acquire name with
      | none => refuse ("unknown table: " ++ name)
      | some schema => .ok schema

/-- The start of each handler: the root, its first field, which must be there, and
`AcquireOrError`. -/
def begin (missing : String) : Except Fault (Schema × Int) := do
  let preq ← reading (getRoot body)
  let first ← reading (getPointer body preq 4)
  match first with
  | none => refuse missing
  | some first => do
    let tname ← reading (getPointer body preq 6)
    let schema ← acquireOrError body acquire tname
    .ok (schema, first)

/-- `lock_guard`: one index call, or an error response, inside `write_mu`. -/
def locked (work : Except Fault (Yikv.KvOp Y)) : Prog Fault (Yikv.KvOp.Res Y) Unit :=
  .step .lock fun _ =>
    match work with
    | .error fault => .step .unlock fun _ => .fail fault
    | .ok op => .step op fun _ => .step .unlock fun _ => .pure ()

def handleGet : Prog Fault (Yikv.KvOp.Res Y) GetResponse := do
  let (schema, pk) ← Prog.lift (begin body acquire "missing pk")
  let pk ← Prog.lift (reading (text body pk))
  let hit : Option Y.Doc ← Prog.perform (Yikv.KvOp.get pk)
  match hit with
  | none => pure ⟨false, some "", none⟩
  | some doc => pure ⟨true, some "", some (buildRow Y doc schema)⟩

def handlePut : Prog Fault (Yikv.KvOp.Res Y) Unit := do
  let (schema, row) ← Prog.lift (begin body acquire "missing row")
  locked Y ((rowDoc body Y schema "cannot derive pk (check pk field type in schema)" row).map
    .upsert)

def handlePutBatch : Prog Fault (Yikv.KvOp.Res Y) Unit := do
  let (schema, rows) ← Prog.lift (begin body acquire "missing rows")
  let n ← Prog.lift (reading (size body rows))
  if n = 0 then .fail (.stop (.refused "empty batch"))
  else locked Y (((List.range n).mapM (stageRow body Y schema rows)).map .batchUpsert)

/-- The loop of `HandleBatchGet`; an element of `pks` is never null. -/
def batchGetRows (schema : Schema) (pks : Int) :
    List Nat → Prog Fault (Yikv.KvOp.Res Y) (List Row)
  | [] => pure []
  | i :: rest => do
    let pk ← Prog.lift (reading (element body pks i >>= text body))
    let hit : Option Y.Doc ← Prog.perform (Yikv.KvOp.get pk)
    let rows ← batchGetRows schema pks rest
    match hit with
    | none => pure (⟨none⟩ :: rows)
    | some doc => pure (buildRow Y doc schema :: rows)

def handleBatchGet : Prog Fault (Yikv.KvOp.Res Y) BatchGetResponse := do
  let (schema, pks) ← Prog.lift (begin body acquire "missing pks")
  let n ← Prog.lift (reading (size body pks))
  let rows ← batchGetRows body Y schema pks (List.range n)
  pure ⟨some rows, some ""⟩

end Handlers
end Body

/-! ## The two services -/

inductive Method where
  | get
  | put
  | putBatch
  | batchGet
  deriving DecidableEq

/-- `rpc_constants.h`. -/
def Method.name : Method → String
  | get => "Get"
  | put => "Put"
  | putBatch => "PutBatch"
  | batchGet => "BatchGet"

inductive Response where
  | get (resp : GetResponse)
  | put
  | putBatch
  | batchGet (resp : BatchGetResponse)

/-- The codes of brpc. -/
inductive ErrorCode where
  | erequest
  | enoservice
  | enomethod
  deriving DecidableEq

/-- What `SetFailed` is called with. -/
structure RpcError where
  code : ErrorCode
  text : String
  deriving DecidableEq

section Services
variable (Y : Yikv) (acquire : String → Option Schema)

/-- `YikvDbGrpcService`: the handler of the method, on the payload. -/
def handle (method : Method) (body : Buffer) : Prog Fault (Yikv.KvOp.Res Y) Response :=
  match method with
  | .get => do
    let resp ← handleGet body Y acquire
    pure (.get resp)
  | .put => do
    handlePut body Y acquire
    pure .put
  | .putBatch => do
    handlePutBatch body Y acquire
    pure .putBatch
  | .batchGet => do
    let resp ← handleBatchGet body Y acquire
    pure (.batchGet resp)

/-- `DbBrpcService::ProcessRpcRequest`, by the service and the method that the request
names. -/
def processRpcRequest (sampled : Option (String × String)) (body : Buffer) :
    Except RpcError (Prog Fault (Yikv.KvOp.Res Y) Response) :=
  match sampled with
  | none => .error ⟨.erequest, "missing sampled_request meta"⟩
  | some (service, method) =>
    if service ≠ "yikv.db.YikvDb" then .error ⟨.enoservice, "unknown service=" ++ service⟩
    else
      match [Method.get, .put, .putBatch, .batchGet].find? fun m => m.name = method with
      | some m => .ok (handle Y acquire m body)
      | none => .error ⟨.enomethod, "unknown method=" ++ method⟩

inductive Stack where
  | brpc
  | grpc

/-- A call of a method on either stack. -/
def call (stack : Stack) (method : Method) (body : Buffer) :
    Except RpcError (Prog Fault (Yikv.KvOp.Res Y) Response) :=
  match stack with
  | .brpc => processRpcRequest Y acquire (some ("yikv.db.YikvDb", method.name)) body
  | .grpc => .ok (handle Y acquire method body)

theorem call_eq (stack : Stack) (method : Method) (body : Buffer) :
    call Y acquire stack method body = .ok (handle Y acquire method body) := by
  cases stack with
  | grpc => rfl
  | brpc => cases method <;> rfl

end Services
end YikvServer.Db.Wire
