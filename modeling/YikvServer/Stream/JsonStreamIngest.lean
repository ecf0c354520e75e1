import YikvServer.Stream.Json

/-!
# `stream/json_stream_ingest.cc`

One stream object against an index. A call that does not return true either
returns false after one log line or throws; the index calls made before that stay
made. The document under construction is local to the caller and dropped on
failure, so a failed merge returns none.
-/
namespace YikvServer.Stream

open YikvServer.Theory YikvServer.Index

/-- How a call ends early: `return false` after `log_err`, or an exception. -/
inductive Stop where
  | refused (log : String)
  | thrown (e : JsonException)
  deriving DecidableEq, Repr

/-- A throwing conversion inside a call. -/
def throwing {α : Type} : Except JsonException α → Except Stop α
  | .ok a => .ok a
  | .error e => .error (.thrown e)

section Documents
variable (N : Nlohmann) (Y : Yikv)

/-- The switch of `CopyDocFromSchema`: arrays are put only when not empty, and an
array of any other element type is left out. -/
def copyField (fd : FieldDef) (src dst : Y.Doc) : Y.Doc :=
  if fd.isArray then
    match fd.type with
    | .bool => dst
    | _ =>
      let view := Y.get src fd.fieldId (.array fd.type.elem)
      if view.length > 0 then Y.put dst fd.fieldId (.array fd.type.elem) view else dst
  else Y.put dst fd.fieldId (.scalar fd.type.elem) (Y.get src fd.fieldId (.scalar fd.type.elem))

def copyDocFromSchema (schema : Schema) (src dst : Y.Doc) : Y.Doc :=
  schema.fields.foldl (fun dst fd => copyField Y fd src dst) dst

/-- `if (idx->Get(pk, &old)) CopyDocFromSchema(schema, old, &doc);` on a new document. -/
def baseDoc (schema : Schema) : Option Y.Doc → Y.Doc
  | some old => copyDocFromSchema Y schema old Y.newDoc
  | none => Y.newDoc

/-- `for (const auto& e : val) doc->array_append_…(fid, e.get<…>())`. -/
def appendElements (fid : Nat) (e : Elem) : Y.Doc → List Json → Except JsonException Y.Doc
  | doc, [] => .ok doc
  | doc, item :: rest =>
    match N.get e item with
    | .ok v => appendElements fid e (Y.arrayAppend doc fid e v) rest
    | .error x => .error x

/-- The converted value of a scalar field; `get<bool>() ? 1 : 0` for Bool. -/
def getScalar : (type : DataType) → Json → Except JsonException type.elem.Val
  | .bool, val => (N.getBool val).map fun b => if b then (1 : Int32) else (0 : Int32)
  | .int32, val => N.get .i32 val
  | .int64, val => N.get .i64 val
  | .float32, val => N.get .f32 val
  | .float64, val => N.get .f64 val
  | .string, val => N.get .str val
  | .bytes, val => N.get .str val

def mergeOneField (fd : FieldDef) (doc : Y.Doc) (val : Json) : Except Stop Y.Doc :=
  if val.isNull then .ok doc
  else if fd.isArray then
    match val with
    | .array items =>
      match fd.type with
      | .bool => .error (.refused "unsupported array element type")
      | _ => throwing (appendElements N Y fd.fieldId fd.type.elem doc items)
    | _ => .error (.refused "field expects JSON array")
  else
    match getScalar N fd.type val with
    | .ok v => .ok (Y.put doc fd.fieldId (.scalar fd.type.elem) v)
    | .error x => .error (.thrown x)

/-- One turn of the loop of `MergeJsonIntoDoc`. -/
def mergeItem (schema : Schema) (doc : Y.Doc) (item : String × Json) : Except Stop Y.Doc :=
  if item.1 = "_op" ∨ item.1 = "_ts" then .ok doc
  else
    match schema.findField item.1 with
    | none => .ok doc
    | some fd => mergeOneField N Y fd doc item.2

def mergeJsonIntoDoc (schema : Schema) (doc : Y.Doc) (obj : JsonObject) : Except Stop Y.Doc :=
  obj.items.foldlM (mergeItem N Y schema) doc

def extractPkString (schema : Schema) (obj : JsonObject) : Except Stop String :=
  match schema.findField schema.pk with
  | none => .error (.refused "schema has no pk field")
  | some fd =>
    match obj.find fd.name with
    | none => .error (.refused "message missing pk field")
    | some pv =>
      if pv.isNull then .error (.refused "pk is null")
      else
        match fd.type with
        | .int32 => throwing ((N.get .i32 pv).map fun v => toStringInt v.toInt)
        | .int64 => throwing ((N.get .i64 pv).map fun v => toStringInt v.toInt)
        | .string | .bytes => throwing (N.get .str pv)
        | _ => .error (.refused "unsupported pk type")

end Documents

section Operations
variable (N : Nlohmann) (Y : Yikv) (schema : Schema) (obj : JsonObject)

/-- A stream call as the index operations it makes. -/
abbrev Apply := Prog Stop (Yikv.KvOp.Res Y) Unit

def applyInsert : Apply Y := do
  let pk ← Prog.lift (extractPkString N schema obj)
  let existing : Option Y.Doc ← Prog.perform (Yikv.KvOp.get pk)
  match existing with
  | some _ => .fail (.refused "INSERT for existing pk (use UPSERT)")
  | none =>
    let doc ← Prog.lift (mergeJsonIntoDoc N Y schema Y.newDoc obj)
    Prog.perform (Yikv.KvOp.put doc)

def applyUpsertMerge : Apply Y := do
  let pk ← Prog.lift (extractPkString N schema obj)
  let found : Option Y.Doc ← Prog.perform (Yikv.KvOp.get pk)
  let doc ← Prog.lift (mergeJsonIntoDoc N Y schema (baseDoc Y schema found) obj)
  Prog.perform (Yikv.KvOp.upsert doc)

def applyDelete : Apply Y :=
  match schema.findField schema.pk with
  | none => .fail (.refused "schema has no pk field")
  | some fd =>
    if (obj.find fd.name).isNone then .fail (.refused "DELETE message missing pk field")
    else do
      let pk ← Prog.lift (extractPkString N schema obj)
      Prog.perform (Yikv.KvOp.delete pk)

/-- `std::tolower` of every byte, in the C locale. -/
def toLower (s : String) : String := String.ofList (s.toList.map Char.toLower)

/-- The lower-cased `_op`, or the empty string when it is missing or not a string. -/
def opOf : Except Stop String :=
  match obj.find "_op" with
  | some (.string s) => throwing ((N.get .str (.string s)).map toLower)
  | _ => .ok ""

/-- The operation that the object asks for: a string member `_op`, in lower case. -/
def JsonObject.operation (obj : JsonObject) : String :=
  match obj.find "_op" with
  | some (.string s) => toLower s
  | _ => ""

theorem opOf_eq : opOf N obj = .ok obj.operation := by
  unfold opOf JsonObject.operation
  split
  · rw [N.get_string]
    rfl
  · rfl

def applyStreamJsonObject : Apply Y := do
  let op ← Prog.lift (opOf N obj)
  if op = "delete" then applyDelete N Y schema obj
  else if op = "insert" then applyInsert N Y schema obj
  else if op = "upsert" ∨ op = "" then applyUpsertMerge N Y schema obj
  else .fail (.refused "unknown _op")

end Operations
end YikvServer.Stream
