import YikvServer.Import.Cells

/-!
# `ApplyField` on the caller's document

The same functions statement by statement: a call writes into the document that it is
given, and whatever it returns, the document stays as it then is. `applyField` is what
such a call comes to, with the document left alone by every error.
-/
namespace YikvServer.Import

open YikvServer.Index

/-- A call on the document: its status, and the document it leaves. -/
abbrev InPlace (Y : Yikv) := Y.Doc → Except ImportError Unit × Y.Doc

section Statements
variable (Y : Yikv) (fd : FieldDef)

def returnOk : InPlace Y := fun doc => (.ok (), doc)

def returnError (err : ImportError) : InPlace Y := fun doc => (.error err, doc)

/-- One `put` or `array_put`, and `return arrow::Status::OK()`. -/
def putThenOk (c : Cell) (v : c.Val) : InPlace Y := fun doc =>
  (.ok (), Y.put doc fd.fieldId c v)

/-- A value is computed, or the call returns; then the value is put. -/
def putScalarOf (e : Elem) : Except String e.Val → InPlace Y
  | .ok v => putThenOk Y fd (.scalar e) v
  | .error what => returnError Y (.invalid ("field " ++ fd.name ++ ": " ++ what))

/-- `v` of the Int32 case. -/
def int32Of (row : Nat) : ArrowArray → Except String Int32
  | .int8 slots => .ok (value slots row).toInt32
  | .int16 slots => .ok (value slots row).toInt32
  | .int32 slots => .ok (value slots row)
  | .uint8 slots => .ok (Int32.ofNat (value slots row).toNat)
  | .uint16 slots => .ok (Int32.ofNat (value slots row).toNat)
  | .uint32 slots =>
    let u := value slots row
    if u.toNat > 2147483647 then .error "uint32 too large for int32"
    else .ok (Int32.ofNat u.toNat)
  | .int64 slots =>
    let x := value slots row
    if x.toInt > 2147483647 ∨ x.toInt < -2147483648 then .error "int64 out of int32 range"
    else .ok x.toInt32
  | .uint64 slots =>
    let u := value slots row
    if u.toNat > 2147483647 then .error "uint64 too large for int32"
    else .ok (Int32.ofNat u.toNat)
  | _ => .error "unsupported Arrow type for int32"

/-- `v` of the Int64 case. -/
def int64Of (row : Nat) : ArrowArray → Except String Int64
  | .int64 slots => .ok (value slots row)
  | .int32 slots => .ok (value slots row).toInt64
  | .uint32 slots => .ok (Int64.ofNat (value slots row).toNat)
  | .uint64 slots =>
    let u := value slots row
    if u.toNat > 9223372036854775807 then .error "uint64 too large for int64"
    else .ok (Int64.ofNat u.toNat)
  | _ => .error "unsupported type for int64"

def boolOf (row : Nat) : ArrowArray → Except String Int32
  | .bool slots => .ok (if value slots row then (1 : Int32) else (0 : Int32))
  | _ => .error "expected bool column"

def floatOf (row : Nat) : ArrowArray → Except String UInt32
  | .float slots => .ok (value slots row)
  | _ => .error "expected float"

def doubleOf (row : Nat) : ArrowArray → Except String UInt64
  | .double slots => .ok (value slots row)
  | _ => .error "expected double"

def textOfCell (row : Nat) : ArrowArray → Except String String
  | .string slots => .ok (value slots row)
  | .binary slots => .ok (value slots row)
  | _ => .error "expected string/binary"

def applyScalarInPlace (col : ArrowArray) (row : Nat) : InPlace Y :=
  if arrowCellIsNull col row then returnOk Y
  else
    match fd.type with
    | .bool => putScalarOf Y fd .i32 (boolOf row col)
    | .int32 => putScalarOf Y fd .i32 (int32Of row col)
    | .int64 => putScalarOf Y fd .i64 (int64Of row col)
    | .float32 => putScalarOf Y fd .f32 (floatOf row col)
    | .float64 => putScalarOf Y fd .f64 (doubleOf row col)
    | .string | .bytes => putScalarOf Y fd .str (textOfCell row col)

/-- The slots of a child that has the Arrow type of the elements. -/
def childSlots : (type : DataType) → ArrowArray → Option (List (Slot type.elem.Val))
  | .int32, .int32 slots => some slots
  | .int64, .int64 slots => some slots
  | .float32, .float slots => some slots
  | .float64, .double slots => some slots
  | .string, .string slots => some slots
  | _, _ => none

/-- The element types that a list is imported with. -/
def isElementType : DataType → Bool
  | .int32 | .int64 | .float32 | .float64 | .string => true
  | .bool | .bytes => false

/-- The cast of the child, the `raw_values()` or views, and the `array_put`. Only the string
case looks at the type of the child. -/
def applyElementsInPlace (values : ArrowArray) (reread : Reread) (off len : Nat) : InPlace Y :=
  if isElementType fd.type then
    match childSlots fd.type values with
    | some slots => putThenOk Y fd (.array fd.type.elem) (rawValues slots off (len % 2 ^ 32))
    | none =>
      if fd.type = .string then
        returnError Y
          (.invalid ("field " ++ fd.name ++ ": " ++ "list<string> expected STRING values"))
      else putThenOk Y fd (.array fd.type.elem) (reread fd.type off (len % 2 ^ 32))
  else returnError Y (.invalid "unsupported list element type")

def applyListFixedInPlace (slots : List (Slot (Nat × Nat))) (values : ArrowArray)
    (reread : Reread) (row : Nat) : InPlace Y :=
  if (slots[row]?.map Slot.isNull).getD false then returnOk Y
  else
    let (off, len) := value slots row
    if len = 0 then
      if isElementType fd.type then putThenOk Y fd (.array fd.type.elem) []
      else returnOk Y
    else applyElementsInPlace Y fd values reread off len

def applyFieldInPlace (col : ArrowArray) (row : Nat) : InPlace Y :=
  if fd.isArray then
    match col with
    | .list slots values reread => applyListFixedInPlace Y fd slots values reread row
    | .largeList slots values reread => applyListFixedInPlace Y fd slots values reread row
    | _ => returnError Y
        (.invalid ("field " ++ fd.name ++ ": " ++ "expected list column for is_array"))
  else applyScalarInPlace Y fd col row

end Statements

/-! ## The two models agree -/

/-- Status and document of a call that gives the new document or an error. -/
def settled {Y : Yikv} (doc : Y.Doc) : Except ImportError Y.Doc → Except ImportError Unit × Y.Doc
  | .ok doc' => (.ok (), doc')
  | .error err => (.error err, doc)

variable {Y : Yikv} {fd : FieldDef} {doc : Y.Doc} {col : ArrowArray} {row : Nat}

theorem putInt32_eq (fd : FieldDef) (doc : Y.Doc) (col : ArrowArray) (row : Nat) :
    putScalarOf Y fd .i32 (int32Of row col) doc = settled doc (applyInt32 Y doc fd row col) := by
  cases col
  case uint32 slots => dsimp only [int32Of, applyInt32]; split <;> rfl
  case int64 slots => dsimp only [int32Of, applyInt32]; split <;> rfl
  case uint64 slots => dsimp only [int32Of, applyInt32]; split <;> rfl
  all_goals rfl

theorem putInt64_eq (fd : FieldDef) (doc : Y.Doc) (col : ArrowArray) (row : Nat) :
    putScalarOf Y fd .i64 (int64Of row col) doc = settled doc (applyInt64 Y doc fd row col) := by
  cases col
  case uint64 slots => dsimp only [int64Of, applyInt64]; split <;> rfl
  all_goals rfl

theorem putText_eq (fd : FieldDef) (doc : Y.Doc) (col : ArrowArray) (row : Nat) :
    putScalarOf Y fd .str (textOfCell row col) doc = settled doc (applyText Y doc fd row col) := by
  cases col <;> rfl

theorem applyScalarInPlace_eq (fd : FieldDef) (doc : Y.Doc) (col : ArrowArray) (row : Nat) :
    applyScalarInPlace Y fd col row doc = settled doc (applyScalar Y doc fd col row) := by
  obtain ⟨name, fid, type, isArray⟩ := fd
  unfold applyScalarInPlace applyScalar
  split
  · rfl
  cases type with
  | bool => cases col <;> rfl
  | int32 => exact putInt32_eq _ doc col row
  | int64 => exact putInt64_eq _ doc col row
  | float32 => cases col <;> rfl
  | float64 => cases col <;> rfl
  | string => exact putText_eq _ doc col row
  | bytes => exact putText_eq _ doc col row

theorem applyElementsInPlace_eq (fd : FieldDef) (doc : Y.Doc) (values : ArrowArray)
    (reread : Reread) (off len : Nat) :
    applyElementsInPlace Y fd values reread off len doc =
      settled doc (applyElements Y doc fd values reread off len) := by
  obtain ⟨name, fid, type, isArray⟩ := fd
  cases type with
  | bool => rfl
  | bytes => rfl
  | _ => cases values <;> rfl

theorem applyListFixedInPlace_eq (fd : FieldDef) (doc : Y.Doc) (slots : List (Slot (Nat × Nat)))
    (values : ArrowArray) (reread : Reread) (row : Nat) :
    applyListFixedInPlace Y fd slots values reread row doc =
      settled doc (applyListFixed Y doc fd slots values reread row) := by
  unfold applyListFixedInPlace applyListFixed
  split
  · rfl
  dsimp only
  split
  · obtain ⟨name, fid, type, isArray⟩ := fd
    cases type <;> rfl
  · exact applyElementsInPlace_eq fd doc values reread _ _

/-- A call that returns an error has written nothing; one that returns OK leaves the
document that `applyField` gives. -/
theorem applyFieldInPlace_eq (fd : FieldDef) (doc : Y.Doc) (col : ArrowArray) (row : Nat) :
    applyFieldInPlace Y fd col row doc = settled doc (applyField Y doc fd col row) := by
  unfold applyFieldInPlace applyField
  split
  · cases col with
    | list slots values reread => exact applyListFixedInPlace_eq fd doc slots values reread row
    | largeList slots values reread => exact applyListFixedInPlace_eq fd doc slots values reread row
    | _ => rfl
  · exact applyScalarInPlace_eq fd doc col row

end YikvServer.Import
