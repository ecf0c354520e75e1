import YikvServer.Index.Store

/-!
# `import/arrow_doc_helpers.cc`

Arrow columns and the copy of one cell into a document. A slot keeps the raw value
that the array's buffer holds under it, which is there for null slots too. What the child
of a list gives when it is cast to the class of another array type comes with the list.
-/
namespace YikvServer.Import

open YikvServer.Index

/-- One slot of an array: its validity bit and the value in the buffer. -/
structure Slot (α : Type) where
  isNull : Bool
  raw : α

/-- `len` values from `off` on, as the child of a list gives them when it is cast to the array
class of these elements and is an array of another type. It depends on the two classes and
on the bytes of the buffers. -/
abbrev Reread := (type : DataType) → (off len : Nat) → List type.elem.Val

/-- The columns by `type_id()`. A list slot is an offset and a length in its child;
`other` is any other type. -/
inductive ArrowArray where
  | bool (slots : List (Slot Bool))
  | int8 (slots : List (Slot Int8))
  | int16 (slots : List (Slot Int16))
  | int32 (slots : List (Slot Int32))
  | int64 (slots : List (Slot Int64))
  | uint8 (slots : List (Slot UInt8))
  | uint16 (slots : List (Slot UInt16))
  | uint32 (slots : List (Slot UInt32))
  | uint64 (slots : List (Slot UInt64))
  | float (slots : List (Slot UInt32))
  | double (slots : List (Slot UInt64))
  | string (slots : List (Slot String))
  | binary (slots : List (Slot String))
  | list (slots : List (Slot (Nat × Nat))) (values : ArrowArray) (reread : Reread)
  | largeList (slots : List (Slot (Nat × Nat))) (values : ArrowArray) (reread : Reread)
  | other (slots : List (Slot Unit))

/-- The validity of each slot. -/
def ArrowArray.nulls : ArrowArray → List Bool
  | .bool slots => slots.map Slot.isNull
  | .int8 slots => slots.map Slot.isNull
  | .int16 slots => slots.map Slot.isNull
  | .int32 slots => slots.map Slot.isNull
  | .int64 slots => slots.map Slot.isNull
  | .uint8 slots => slots.map Slot.isNull
  | .uint16 slots => slots.map Slot.isNull
  | .uint32 slots => slots.map Slot.isNull
  | .uint64 slots => slots.map Slot.isNull
  | .float slots => slots.map Slot.isNull
  | .double slots => slots.map Slot.isNull
  | .string slots => slots.map Slot.isNull
  | .binary slots => slots.map Slot.isNull
  | .list slots _ _ => slots.map Slot.isNull
  | .largeList slots _ _ => slots.map Slot.isNull
  | .other slots => slots.map Slot.isNull

/-- `arrow::Status::Invalid`. -/
inductive ImportError where
  | invalid (message : String)
  deriving DecidableEq, Repr

/-- `ArrowCellIsNull`. -/
def arrowCellIsNull (col : ArrowArray) (row : Nat) : Bool := (col.nulls[row]?).getD false

/-- `Value(row)`, and `GetView(row)` of a text array. -/
def value {α : Type} [Inhabited α] (slots : List (Slot α)) (row : Nat) : α :=
  (slots[row]?.map Slot.raw).getD default

/-- `len` buffer values from `off` on. -/
def rawValues {α : Type} (slots : List (Slot α)) (off len : Nat) : List α :=
  ((slots.drop off).take len).map Slot.raw

section Apply
variable (Y : Yikv) (doc : Y.Doc) (fd : FieldDef)

def fieldInvalid (what : String) : Except ImportError Y.Doc :=
  .error (.invalid ("field " ++ fd.name ++ ": " ++ what))

def putScalar (e : Elem) (v : e.Val) : Except ImportError Y.Doc :=
  .ok (Y.put doc fd.fieldId (.scalar e) v)

/-- The int32 of an integer cell. -/
def applyInt32 (row : Nat) : ArrowArray → Except ImportError Y.Doc
  | .int8 slots => putScalar Y doc fd .i32 (value slots row).toInt32
  | .int16 slots => putScalar Y doc fd .i32 (value slots row).toInt32
  | .int32 slots => putScalar Y doc fd .i32 (value slots row)
  | .uint8 slots => putScalar Y doc fd .i32 (Int32.ofNat (value slots row).toNat)
  | .uint16 slots => putScalar Y doc fd .i32 (Int32.ofNat (value slots row).toNat)
  | .uint32 slots =>
    let u := value slots row
    if u.toNat > 2147483647 then fieldInvalid Y fd "uint32 too large for int32"
    else putScalar Y doc fd .i32 (Int32.ofNat u.toNat)
  | .int64 slots =>
    let x := value slots row
    if x.toInt > 2147483647 ∨ x.toInt < -2147483648 then
      fieldInvalid Y fd "int64 out of int32 range"
    else putScalar Y doc fd .i32 x.toInt32
  | .uint64 slots =>
    let u := value slots row
    if u.toNat > 2147483647 then fieldInvalid Y fd "uint64 too large for int32"
    else putScalar Y doc fd .i32 (Int32.ofNat u.toNat)
  | _ => fieldInvalid Y fd "unsupported Arrow type for int32"

/-- The int64 of an integer cell; the 8 and 16 bit columns are not taken. -/
def applyInt64 (row : Nat) : ArrowArray → Except ImportError Y.Doc
  | .int64 slots => putScalar Y doc fd .i64 (value slots row)
  | .int32 slots => putScalar Y doc fd .i64 (value slots row).toInt64
  | .uint32 slots => putScalar Y doc fd .i64 (Int64.ofNat (value slots row).toNat)
  | .uint64 slots =>
    let u := value slots row
    if u.toNat > 9223372036854775807 then fieldInvalid Y fd "uint64 too large for int64"
    else putScalar Y doc fd .i64 (Int64.ofNat u.toNat)
  | _ => fieldInvalid Y fd "unsupported type for int64"

def applyText (row : Nat) : ArrowArray → Except ImportError Y.Doc
  | .string slots => putScalar Y doc fd .str (value slots row)
  | .binary slots => putScalar Y doc fd .str (value slots row)
  | _ => fieldInvalid Y fd "expected string/binary"

def applyScalar (col : ArrowArray) (row : Nat) : Except ImportError Y.Doc :=
  if arrowCellIsNull col row then .ok doc
  else
    match fd.type with
    | .bool =>
      match col with
      | .bool slots =>
        putScalar Y doc fd .i32 (if value slots row then (1 : Int32) else (0 : Int32))
      | _ => fieldInvalid Y fd "expected bool column"
    | .int32 => applyInt32 Y doc fd row col
    | .int64 => applyInt64 Y doc fd row col
    | .float32 =>
      match col with
      | .float slots => putScalar Y doc fd .f32 (value slots row)
      | _ => fieldInvalid Y fd "expected float"
    | .float64 =>
      match col with
      | .double slots => putScalar Y doc fd .f64 (value slots row)
      | _ => fieldInvalid Y fd "expected double"
    | .string | .bytes => applyText Y doc fd row col

def putElements (e : Elem) (vs : List e.Val) : Except ImportError Y.Doc :=
  .ok (Y.put doc fd.fieldId (.array e) vs)

/-- The elements of a list that is not empty; only a string child is checked, and the
number of elements is cast to 32 bits. -/
def applyElements (values : ArrowArray) (reread : Reread) (off len : Nat) :
    Except ImportError Y.Doc :=
  match fd.type with
  | .int32 =>
    match values with
    | .int32 slots => putElements Y doc fd .i32 (rawValues slots off (len % 2 ^ 32))
    | _ => putElements Y doc fd .i32 (reread .int32 off (len % 2 ^ 32))
  | .int64 =>
    match values with
    | .int64 slots => putElements Y doc fd .i64 (rawValues slots off (len % 2 ^ 32))
    | _ => putElements Y doc fd .i64 (reread .int64 off (len % 2 ^ 32))
  | .float32 =>
    match values with
    | .float slots => putElements Y doc fd .f32 (rawValues slots off (len % 2 ^ 32))
    | _ => putElements Y doc fd .f32 (reread .float32 off (len % 2 ^ 32))
  | .float64 =>
    match values with
    | .double slots => putElements Y doc fd .f64 (rawValues slots off (len % 2 ^ 32))
    | _ => putElements Y doc fd .f64 (reread .float64 off (len % 2 ^ 32))
  | .string =>
    match values with
    | .string slots => putElements Y doc fd .str (rawValues slots off (len % 2 ^ 32))
    | _ => fieldInvalid Y fd "list<string> expected STRING values"
  | _ => .error (.invalid "unsupported list element type")

def applyListFixed (slots : List (Slot (Nat × Nat))) (values : ArrowArray) (reread : Reread)
    (row : Nat) : Except ImportError Y.Doc :=
  if (slots[row]?.map Slot.isNull).getD false then .ok doc
  else
    let (off, len) := value slots row
    if len = 0 then
      match fd.type with
      | .int32 => putElements Y doc fd .i32 []
      | .int64 => putElements Y doc fd .i64 []
      | .float32 => putElements Y doc fd .f32 []
      | .float64 => putElements Y doc fd .f64 []
      | .string => putElements Y doc fd .str []
      | _ => .ok doc
    else applyElements Y doc fd values reread off len

def applyField (col : ArrowArray) (row : Nat) : Except ImportError Y.Doc :=
  if fd.isArray then
    match col with
    | .list slots values reread => applyListFixed Y doc fd slots values reread row
    | .largeList slots values reread => applyListFixed Y doc fd slots values reread row
    | _ => fieldInvalid Y fd "expected list column for is_array"
  else applyScalar Y doc fd col row

end Apply
end YikvServer.Import
