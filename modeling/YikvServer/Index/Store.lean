import YikvServer.Index.Schema
import YikvServer.Theory.Prog
import Mathlib.Logic.Function.Basic
import Mathlib.Data.Int.Notation
import Mathlib.Algebra.Group.Nat.Defs
import Mathlib.Algebra.Group.Int.Defs

/-!
# Documents and indexes

yikv itself is outside the repository. `Yikv` collects what the server calls of it,
with the behaviour it relies on: a fresh document reads defaults, a put is read
back and leaves the other fields alone, an append adds one element, and a stored
document is filed under the rendering of its pk field. An index is its visible
contents, a map from pk to document. Floats are their bit patterns.
-/
namespace YikvServer.Index

/-- How a value is stored: the suffix of the accessor that reads it. -/
inductive Elem where
  | i32 | i64 | f32 | f64 | str
  deriving DecidableEq, Repr

abbrev Elem.Val : Elem → Type
  | .i32 => Int32
  | .i64 => Int64
  | .f32 => UInt32
  | .f64 => UInt64
  | .str => String

def Elem.default : (e : Elem) → e.Val
  | .i32 => 0
  | .i64 => 0
  | .f32 => 0
  | .f64 => 0
  | .str => ""

/-- A scalar or array cell of a document. -/
inductive Cell where
  | scalar (e : Elem)
  | array (e : Elem)
  deriving DecidableEq, Repr

abbrev Cell.Val : Cell → Type
  | .scalar e => e.Val
  | .array e => List e.Val

def Cell.default : (c : Cell) → c.Val
  | .scalar e => e.default
  | .array _ => []

/-- Bool is stored as an int32 and Bytes as a string. -/
def DataType.elem : DataType → Elem
  | .bool => .i32
  | .int32 => .i32
  | .int64 => .i64
  | .float32 => .f32
  | .float64 => .f64
  | .string => .str
  | .bytes => .str

def FieldDef.cell (fd : FieldDef) : Cell :=
  match fd.isArray with
  | true => .array fd.type.elem
  | false => .scalar fd.type.elem

/-- The width of an integer type. -/
def DataType.width : DataType → Option Nat
  | .int32 => some 32
  | .int64 => some 64
  | _ => none

/-- A field of this type can hold the integer; no other type holds integers. -/
def DataType.Fits (type : DataType) (n : Int) : Prop :=
  ∀ w ∈ type.width, -2 ^ (w - 1) ≤ n ∧ n < 2 ^ (w - 1)

theorem fits_int32 (x : Int32) : DataType.Fits .int32 x.toInt := by
  intro w hw
  obtain rfl := Option.some.inj hw
  exact ⟨x.le_toInt, x.toInt_lt⟩

theorem fits_int64 (x : Int64) : DataType.Fits .int64 x.toInt := by
  intro w hw
  obtain rfl := Option.some.inj hw
  exact ⟨x.le_toInt, x.toInt_lt⟩

/-- `std::to_string` of an integer. -/
def toStringInt (v : Int) : String := toString v

/-- The decimal or literal rendering of a scalar pk cell; yikv documents none for
floats and arrays. -/
def renderPk (fd : FieldDef) (get : (c : Cell) → c.Val) : Option String :=
  if fd.isArray then none
  else match fd.type with
    | .bool | .int32 => some (toStringInt (get (.scalar .i32)).toInt)
    | .int64 => some (toStringInt (get (.scalar .i64)).toInt)
    | .string | .bytes => some (get (.scalar .str))
    | .float32 | .float64 => none

structure Yikv where
  Doc : Type
  /-- `KVIndex::NewDoc`. -/
  newDoc : Doc
  get : Doc → Nat → (c : Cell) → c.Val
  put : Doc → Nat → (c : Cell) → c.Val → Doc
  arrayAppend : Doc → Nat → (e : Elem) → e.Val → Doc
  /-- The key a document is filed under in an index of this schema. -/
  key : Schema → Doc → String
  /-- What `Put` leaves of a row that is already there. -/
  putPresent : Doc → Doc → Option Doc
  /-- `DataTypeName`. -/
  dataTypeName : DataType → String
  get_newDoc : ∀ fid c, get newDoc fid c = c.default
  get_put_self : ∀ d fid c v, get (put d fid c v) fid c = v
  get_put_other : ∀ d fid c v fid' c', fid' ≠ fid → get (put d fid c v) fid' c' = get d fid' c'
  get_append_self : ∀ d fid e v,
    get (arrayAppend d fid e v) fid (.array e) = get d fid (.array e) ++ [v]
  get_append_other : ∀ d fid e v fid' c', fid' ≠ fid →
    get (arrayAppend d fid e v) fid' c' = get d fid' c'
  key_eq : ∀ (schema : Schema) d fd k, schema.findField schema.pk = some fd →
    renderPk fd (get d fd.fieldId) = some k → key schema d = k

attribute [simp] Yikv.get_newDoc Yikv.get_put_self Yikv.get_append_self

namespace Yikv

variable (Y : Yikv)

/-- The visible contents of a `KVIndex`: pk to document. -/
abbrev Contents := String → Option Y.Doc

/-- One `KVIndex` call, or one end of a `write_mu` section. -/
inductive KvOp where
  | get (pk : String)
  | put (doc : Y.Doc)
  | upsert (doc : Y.Doc)
  | batchUpsert (docs : List Y.Doc)
  | delete (pk : String)
  | lock
  | unlock

abbrev KvOp.Res : Y.KvOp → Type
  | .get _ => Option Y.Doc
  | _ => Unit

/-- `KVIndex::Upsert` replaces the whole document of its pk. -/
def upsert (schema : Schema) (idx : Y.Contents) (doc : Y.Doc) : Y.Contents :=
  Function.update idx (Y.key schema doc) (some doc)

/-- `KVIndex::Put`; only an absent pk is relied on. -/
def put' (schema : Schema) (idx : Y.Contents) (doc : Y.Doc) : Y.Contents :=
  match idx (Y.key schema doc) with
  | none => Y.upsert schema idx doc
  | some old => Function.update idx (Y.key schema doc) (Y.putPresent old doc)

/-- `KVIndex::BatchUpsert` is its documents upserted in order. -/
def batchUpsert (schema : Schema) (idx : Y.Contents) (docs : List Y.Doc) : Y.Contents :=
  docs.foldl (Y.upsert schema) idx

/-- `KVIndex::Delete`. -/
def delete (idx : Y.Contents) (pk : String) : Y.Contents := Function.update idx pk none

/-- Each call acts on the contents in one step; the mutex is not part of them. -/
def exec (schema : Schema) : (o : Y.KvOp) → Y.Contents → KvOp.Res Y o × Y.Contents
  | .get pk, idx => (idx pk, idx)
  | .put doc, idx => ((), Y.put' schema idx doc)
  | .upsert doc, idx => ((), Y.upsert schema idx doc)
  | .batchUpsert docs, idx => ((), Y.batchUpsert schema idx docs)
  | .delete pk, idx => ((), Y.delete idx pk)
  | .lock, idx => ((), idx)
  | .unlock, idx => ((), idx)

/-- What a document shows of a schema: the value of each field. -/
abbrev Row (schema : Schema) := (fd : {fd // fd ∈ schema.fields}) → fd.1.cell.Val

def row (schema : Schema) (doc : Y.Doc) : Row schema := fun fd => Y.get doc fd.1.fieldId fd.1.cell

variable {Y} {schema : Schema} {idx : Y.Contents} {doc : Y.Doc} {docs : List Y.Doc} {pk k : String}

theorem upsert_apply :
    Y.upsert schema idx doc k = if k = Y.key schema doc then some doc else idx k := by
  simp [upsert, Function.update_apply]

theorem delete_apply : Y.delete idx pk k = if k = pk then none else idx k := by
  simp [delete, Function.update_apply]

theorem put'_absent (h : idx (Y.key schema doc) = none) :
    Y.put' schema idx doc = Y.upsert schema idx doc := by
  simp [put', h]

theorem batchUpsert_other (h : ∀ d ∈ docs, Y.key schema d ≠ k) :
    Y.batchUpsert schema idx docs k = idx k := by
  induction docs generalizing idx with
  | nil => rfl
  | cons d ds ih =>
    rw [batchUpsert, List.foldl_cons]
    show Y.batchUpsert schema (Y.upsert schema idx d) ds k = idx k
    rw [ih fun d' hd' => h d' (List.mem_cons_of_mem _ hd'), upsert_apply,
      if_neg (h d List.mem_cons_self).symm]

/-- A small engine: a document is a table of cells, and `Put` of a present pk
overwrites. -/
def plain : Yikv where
  Doc := Nat → (c : Cell) → c.Val
  newDoc _ c := c.default
  get d := d
  put d fid c v := Function.update d fid (Function.update (d fid) c v)
  arrayAppend d fid e v :=
    Function.update d fid (Function.update (d fid) (.array e) (d fid (.array e) ++ [v]))
  key schema d :=
    ((schema.findField schema.pk).bind fun fd => renderPk fd (d fd.fieldId)).getD ""
  putPresent _ d := some d
  dataTypeName
    | .bool => "bool"
    | .int32 => "int32"
    | .int64 => "int64"
    | .float32 => "float32"
    | .float64 => "float64"
    | .string => "string"
    | .bytes => "bytes"
  get_newDoc _ _ := rfl
  get_put_self d fid c v := by simp
  get_put_other d fid c v fid' c' h := by simp [Function.update_of_ne h]
  get_append_self d fid e v := by simp
  get_append_other d fid e v fid' c' h := by simp [Function.update_of_ne h]
  key_eq schema d fd k hf hk := by simp [hf, hk]

end Yikv
end YikvServer.Index
