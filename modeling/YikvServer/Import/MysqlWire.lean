import YikvServer.Import.ArrowDoc
import YikvServer.Theory.StrTo

/-!
# `source/sql/mysql_wire_source.cc`

Column values of a MySQL result as texts, appended to Arrow builders. A value is null or
the bytes of its text, which the client library ends with a NUL. `long` has 64 bits. Both
integer conversions saturate; `AppendInt32` checks a range that is smaller than that of the
conversion and so never takes a saturated value, and `AppendInt64` checks nothing.
-/
namespace YikvServer.Import

open YikvServer.Index YikvServer.Theory.StrTo

def longMin : Int := -9223372036854775808
def longMax : Int := 9223372036854775807

/-- The bytes of a value as C reads them. -/
def textOf (data : List UInt8) : List Char := data.map Char.ofUInt8

/-- `strtof` and `strtod`, with the text from `endptr` on. -/
structure FloatText where
  strtof : List Char → UInt32 × List Char
  strtod : List Char → UInt64 × List Char

/-- What the builder of a field appends. -/
abbrev BuilderVal : DataType → Type
  | .bool => Bool
  | .int32 => Int32
  | .int64 => Int64
  | .float32 => UInt32
  | .float64 => UInt64
  | .string => List UInt8
  | .bytes => List UInt8

/-- The cells appended so far. -/
abbrev Builder (type : DataType) := List (Option (BuilderVal type))

section Append

def mysqlInvalid {α : Type} (what : String) : Except ImportError α :=
  .error (.invalid ("MysqlWireSource: " ++ what))

def appendBool (b : Builder .bool) : Option (List UInt8) → Except ImportError (Builder .bool)
  | none => .ok (b ++ [none])
  | some data =>
    let text := textOf data
    if text = ['0'] ∨ text = ['1'] then .ok (b ++ [some (decide (text = ['1']))])
    else if text.map Char.toLower = ['t', 'r', 'u', 'e'] then .ok (b ++ [some true])
    else if text.map Char.toLower = ['f', 'a', 'l', 's', 'e'] then .ok (b ++ [some false])
    else
      let (v, rest) := strtol longMin longMax text
      if rest = text ∨ rest ≠ [] then mysqlInvalid "bool parse failed"
      else .ok (b ++ [some (decide (v ≠ 0))])

def appendInt32 (b : Builder .int32) : Option (List UInt8) → Except ImportError (Builder .int32)
  | none => .ok (b ++ [none])
  | some data =>
    if data.length = 0 then mysqlInvalid "empty int32"
    else
      let (v, rest) := strtol longMin longMax (textOf data)
      if rest ≠ [] then mysqlInvalid "int32 parse failed"
      else if v > 2147483647 ∨ v < -2147483648 then mysqlInvalid "int32 out of range"
      else .ok (b ++ [some (Int32.ofInt v)])

def appendInt64 (b : Builder .int64) : Option (List UInt8) → Except ImportError (Builder .int64)
  | none => .ok (b ++ [none])
  | some data =>
    if data.length = 0 then mysqlInvalid "empty int64"
    else
      let (v, rest) := strtol longMin longMax (textOf data)
      if rest ≠ [] then mysqlInvalid "int64 parse failed"
      else .ok (b ++ [some (Int64.ofInt v)])

variable (F : FloatText)

def appendFloat (b : Builder .float32) :
    Option (List UInt8) → Except ImportError (Builder .float32)
  | none => .ok (b ++ [none])
  | some data =>
    if data.length = 0 then mysqlInvalid "empty float"
    else
      let (v, rest) := F.strtof (textOf data)
      if rest ≠ [] then mysqlInvalid "float parse failed"
      else .ok (b ++ [some v])

def appendDouble (b : Builder .float64) :
    Option (List UInt8) → Except ImportError (Builder .float64)
  | none => .ok (b ++ [none])
  | some data =>
    if data.length = 0 then mysqlInvalid "empty double"
    else
      let (v, rest) := F.strtod (textOf data)
      if rest ≠ [] then mysqlInvalid "double parse failed"
      else .ok (b ++ [some v])

def appendUtf8 (b : List (Option (List UInt8))) (data : Option (List UInt8)) :
    Except ImportError (List (Option (List UInt8))) :=
  .ok (b ++ [data])

/-- The builder is the one that was made for the type of the field. -/
def appendForField : (type : DataType) → Builder type → Option (List UInt8) →
    Except ImportError (Builder type)
  | .bool, b, data => appendBool b data
  | .int32, b, data => appendInt32 b data
  | .int64, b, data => appendInt64 b data
  | .float32, b, data => appendFloat F b data
  | .float64, b, data => appendDouble F b data
  | .string, b, data => appendUtf8 b data
  | .bytes, b, data => appendUtf8 b data

/-- The builder of each field. -/
abbrev Column := (type : DataType) × Builder type

/-- One turn of the row loop of `ProduceLoop`, on the values of the fields in order. -/
def appendRow : List Column → List (Option (List UInt8)) → Except ImportError (List Column)
  | ⟨type, b⟩ :: cols, data :: row =>
    match appendForField F type b data with
    | .error err => .error err
    | .ok b' =>
      match appendRow cols row with
      | .error err => .error err
      | .ok cols' => .ok (⟨type, b'⟩ :: cols')
  | _, _ => .ok []

end Append

/-! ## Exactness -/

/-- The value of this text is an error, or the integer that the text denotes is appended. -/
def ExactAppend {α : Type}
    (append : List (Option α) → Option (List UInt8) → Except ImportError (List (Option α)))
    (toInt : α → Int) (data : List UInt8) : Prop :=
  ∀ b b', append b (some data) = .ok b' →
    ∃ v x, Denotes (textOf data) v ∧ toInt x = v ∧ b' = b ++ [some x]

/-- Texts of different integers are not stored as the same value. -/
def KeptApart {α : Type}
    (append : List (Option α) → Option (List UInt8) → Except ImportError (List (Option α)))
    (data data' : List UInt8) : Prop :=
  ∀ v v' x, Denotes (textOf data) v → Denotes (textOf data') v' →
    append [] (some data) = .ok [some x] → append [] (some data') = .ok [some x] → v = v'

/-- The text does not denote an integer that 64 bits do not hold. -/
def FitsLong (data : List UInt8) : Prop :=
  ∀ v, Denotes (textOf data) v → longMin ≤ v ∧ v ≤ longMax

/-- The texts do not denote integers that saturate at the same end. -/
def ApartFromEnds (data data' : List UInt8) : Prop :=
  ∀ v v', Denotes (textOf data) v → Denotes (textOf data') v' →
    v = v' ∨ ¬ (longMax ≤ v ∧ longMax ≤ v') ∧ ¬ (v ≤ longMin ∧ v' ≤ longMin)

variable {b : Builder .int32} {b₁ : Builder .int32} {c c₁ : Builder .int64} {data : List UInt8}
  {v : Int}

theorem textOf_ne_nil (h : ¬ data.length = 0) : textOf data ≠ [] := by
  intro he
  exact h (List.length_eq_zero_iff.mpr (List.map_eq_nil_iff.mp he))

theorem length_ne_zero_of_denotes (h : Denotes (textOf data) v) : ¬ data.length = 0 := by
  intro he
  obtain rfl := List.length_eq_zero_iff.mp he
  obtain ⟨blanks, sign, digits, htext, -, hne, -⟩ := h
  have hnil := List.append_eq_nil_iff.mp htext.symm
  exact hne (List.append_eq_nil_iff.mp hnil.2).2

theorem appendInt32_exact (data : List UInt8) : ExactAppend appendInt32 Int32.toInt data := by
  intro b b' h
  dsimp only [appendInt32] at h
  split at h
  · cases h
  rename_i hlen
  split at h
  · cases h
  rename_i hrest
  split at h
  · cases h
  rename_i hrange
  obtain ⟨v, hdenotes, hv⟩ := denotes_of_strtol (not_not.mp hrest) (textOf_ne_nil hlen)
  rw [hv] at h hrange
  simp only [longMin, longMax] at h hrange
  have hsame : max (-9223372036854775808) (min 9223372036854775807 v) = v := by omega
  rw [hsame] at h hrange
  exact ⟨v, Int32.ofInt v, hdenotes, Int32.toInt_ofInt_of_le (by omega) (by omega),
    (Except.ok.inj h).symm⟩

/-- Every integer text is taken, at the end of the range where it is beyond it. -/
theorem appendInt64_denotes (h : Denotes (textOf data) v) : appendInt64 c (some data) =
    .ok (c ++ [some (Int64.ofInt (max longMin (min longMax v)))]) := by
  dsimp only [appendInt64]
  rw [if_neg (length_ne_zero_of_denotes h), strtol_denotes h]
  rfl

theorem toInt_saturated (v : Int) :
    (Int64.ofInt (max longMin (min longMax v))).toInt = max longMin (min longMax v) := by
  simp only [longMin, longMax]
  exact Int64.toInt_ofInt_of_le (by omega) (by omega)

theorem denotes_of_appendInt64 (h : appendInt64 c (some data) = .ok c₁) :
    ∃ v, Denotes (textOf data) v := by
  dsimp only [appendInt64] at h
  split at h
  · cases h
  rename_i hlen
  split at h
  · cases h
  rename_i hrest
  obtain ⟨v, hdenotes, -⟩ := denotes_of_strtol (not_not.mp hrest) (textOf_ne_nil hlen)
  exact ⟨v, hdenotes⟩

theorem appendInt64_exact_iff : ExactAppend appendInt64 Int64.toInt data ↔ FitsLong data := by
  constructor
  · intro hexact v hv
    obtain ⟨v', x, hv', hx, happend⟩ := hexact [] _ (appendInt64_denotes hv)
    obtain rfl := hv.unique hv'
    obtain rfl : Int64.ofInt (max longMin (min longMax v)) = x := by simpa using happend
    rw [toInt_saturated] at hx
    simp only [longMin, longMax] at hx ⊢
    omega
  · intro hfits b b' h
    obtain ⟨v, hv⟩ := denotes_of_appendInt64 h
    have hsame : max longMin (min longMax v) = v := by
      have hrange := hfits v hv
      omega
    rw [appendInt64_denotes hv, hsame] at h
    refine ⟨v, Int64.ofInt v, hv, ?_, (Except.ok.inj h).symm⟩
    have hint := toInt_saturated v
    rwa [hsame] at hint

/-- What is exact on both texts keeps them apart. -/
theorem KeptApart.of_exact {α : Type}
    {append : List (Option α) → Option (List UInt8) → Except ImportError (List (Option α))}
    {toInt : α → Int} {data' : List UInt8} (h : ExactAppend append toInt data)
    (h' : ExactAppend append toInt data') : KeptApart append data data' := by
  intro v v' x hv hv' happend happend'
  obtain ⟨w, y, hw, hy, hcell⟩ := h _ _ happend
  obtain ⟨w', y', hw', hy', hcell'⟩ := h' _ _ happend'
  obtain rfl : x = y := by simpa using hcell
  obtain rfl : x = y' := by simpa using hcell'
  rw [hv.unique hw, hv'.unique hw', ← hy, ← hy']

theorem appendInt64_keptApart_iff {data' : List UInt8} :
    KeptApart appendInt64 data data' ↔ ApartFromEnds data data' := by
  constructor
  · intro hapart v v' hv hv'
    by_cases hsat : max longMin (min longMax v) = max longMin (min longMax v')
    · left
      refine hapart v v' _ hv hv' (appendInt64_denotes hv) ?_
      rw [appendInt64_denotes hv', hsat]
      rfl
    · right
      have hlo : longMin = -9223372036854775808 := rfl
      have hhi : longMax = 9223372036854775807 := rfl
      omega
  · intro hends v v' x hv hv' happend happend'
    rw [appendInt64_denotes hv] at happend
    rw [appendInt64_denotes hv'] at happend'
    have hx := Except.ok.inj happend
    have hx' := Except.ok.inj happend'
    have hcells : Int64.ofInt (max longMin (min longMax v)) =
        Int64.ofInt (max longMin (min longMax v')) := by
      simpa using hx.trans hx'.symm
    have hsat := congrArg Int64.toInt hcells
    rw [toInt_saturated, toInt_saturated] at hsat
    have hcase := hends v v' hv hv'
    have hlo : longMin = -9223372036854775808 := rfl
    have hhi : longMax = 9223372036854775807 := rfl
    omega

/-- `AppendInt32` is exact on every text. `AppendInt64` is exact exactly when the text does
not denote an integer beyond 64 bits, and it keeps two integers apart exactly when they are
not at or beyond the same end of the range. -/
theorem mysqlIntegers_iff (data data' : List UInt8) :
    (ExactAppend appendInt32 Int32.toInt data ∧ ExactAppend appendInt64 Int64.toInt data ↔
      FitsLong data) ∧
    (KeptApart appendInt32 data data' ∧ KeptApart appendInt64 data data' ↔
      ApartFromEnds data data') :=
  ⟨(and_iff_right (appendInt32_exact data)).trans appendInt64_exact_iff,
    (and_iff_right (.of_exact (appendInt32_exact data) (appendInt32_exact data'))).trans
      appendInt64_keptApart_iff⟩

/-- The largest `BIGINT UNSIGNED` is stored as the largest int64, and so is the value before
it. -/
theorem bigintUnsigned_saturates :
    let data : List UInt8 := "18446744073709551615".toList.map Char.toUInt8
    let data' : List UInt8 := "18446744073709551614".toList.map Char.toUInt8
    appendInt64 [] (some data) = .ok [some 9223372036854775807] ∧
      ¬ ExactAppend appendInt64 Int64.toInt data ∧ ¬ KeptApart appendInt64 data data' := by
  intro data data'
  have hv : Denotes (textOf data) 18446744073709551615 := scan_eq_whole.mp (by decide)
  have hv' : Denotes (textOf data') 18446744073709551614 := scan_eq_whole.mp (by decide)
  have happend := appendInt64_denotes (c := []) hv
  have happend' := appendInt64_denotes (c := []) hv'
  refine ⟨happend, fun hexact => ?_, fun hapart => ?_⟩
  · have hfits := appendInt64_exact_iff.mp hexact _ hv
    exact absurd hfits.2 (by decide)
  · exact absurd (hapart _ _ _ hv hv' happend happend') (by decide)

/-! ## Rows -/

/-- What one cell of a row does to its column. -/
def Appended (F : FloatText) (col : Column) (data : Option (List UInt8)) (col' : Column) : Prop :=
  ∃ b', appendForField F col.1 col.2 data = .ok b' ∧ col' = ⟨col.1, b'⟩

/-- A row is taken when each of its cells is, and each column gets its own cell. -/
theorem appendRow_ok {F : FloatText} {cols cols' : List Column} {row : List (Option (List UInt8))}
    (hlen : cols.length = row.length) (h : appendRow F cols row = .ok cols') :
    cols'.length = cols.length ∧ ∀ (i : Nat) (col : Column) (data : Option (List UInt8)),
      cols[i]? = some col → row[i]? = some data →
        ∃ col', cols'[i]? = some col' ∧ Appended F col data col' := by
  induction cols generalizing row cols' with
  | nil =>
    obtain rfl := Except.ok.inj h
    exact ⟨rfl, fun i col data hcol => by simp at hcol⟩
  | cons col cols ih =>
    cases row with
    | nil => cases hlen
    | cons data row =>
      obtain ⟨type, b⟩ := col
      dsimp only [appendRow] at h
      split at h
      · cases h
      rename_i b' hfield
      split at h
      · cases h
      rename_i rest hrest
      obtain rfl := Except.ok.inj h
      obtain ⟨hsize, hcells⟩ := ih (Nat.succ.inj hlen) hrest
      refine ⟨congrArg Nat.succ hsize, fun i col' data' hcol hdata => ?_⟩
      cases i with
      | zero =>
        obtain rfl := Option.some.inj hcol
        obtain rfl := Option.some.inj hdata
        exact ⟨_, rfl, b', hfield, rfl⟩
      | succ i => exact hcells i col' data' hcol hdata

/-- In a row that is taken, an int64 column gets exactly the integer of its cell when that
fits, whatever the other cells are. -/
theorem appendRow_int64 {F : FloatText} {cols cols' : List Column}
    {row : List (Option (List UInt8))} (hlen : cols.length = row.length)
    (h : appendRow F cols row = .ok cols') {i : Nat} {data : List UInt8}
    (hcol : cols[i]? = some ⟨.int64, c⟩) (hdata : row[i]? = some (some data))
    (hfits : FitsLong data) :
    ∃ v x, Denotes (textOf data) v ∧ x.toInt = v ∧
      cols'[i]? = some ⟨.int64, c ++ [some x]⟩ := by
  obtain ⟨col', hcol', b', happend, rfl⟩ := (appendRow_ok hlen h).2 i _ _ hcol hdata
  obtain ⟨v, x, hv, hx, rfl⟩ := appendInt64_exact_iff.mpr hfits _ _ happend
  exact ⟨v, x, hv, hx, hcol'⟩

end YikvServer.Import
