import YikvServer.Import.InPlace

/-!
# List cells

An array field from a LIST or LARGE_LIST column, down to the offsets: that of a sliced list
array into its offsets buffer, those of the rows into the child, and that of a sliced child
into its own buffers. Only a string child is checked before the cast, the validity of the
elements is not looked at, and their number is cast to 32 bits. A child of another type
than numbers that are asked for is read as if it were of theirs.
-/
namespace YikvServer.Import

open YikvServer.Index

/-- The same operation on the slots of whatever type. -/
def ArrowArray.mapSlots (f : {α : Type} → List (Slot α) → List (Slot α)) : ArrowArray → ArrowArray
  | .bool slots => .bool (f slots)
  | .int8 slots => .int8 (f slots)
  | .int16 slots => .int16 (f slots)
  | .int32 slots => .int32 (f slots)
  | .int64 slots => .int64 (f slots)
  | .uint8 slots => .uint8 (f slots)
  | .uint16 slots => .uint16 (f slots)
  | .uint32 slots => .uint32 (f slots)
  | .uint64 slots => .uint64 (f slots)
  | .float slots => .float (f slots)
  | .double slots => .double (f slots)
  | .string slots => .string (f slots)
  | .binary slots => .binary (f slots)
  | .list slots values reread => .list (f slots) values reread
  | .largeList slots values reread => .largeList (f slots) values reread
  | .other slots => .other (f slots)

/-- An array that starts at an offset into its buffers. -/
def ArrowArray.slice (offset length : Nat) (array : ArrowArray) : ArrowArray :=
  array.mapSlots fun slots => (slots.drop offset).take length

/-- A valid list array. Its row `i` is the child from `offsets[offset + i]` to
`offsets[offset + i + 1]`; the child is the slice of its buffers that `values()` gives. -/
structure ListColumn where
  large : Bool
  offsets : List Nat
  offset : Nat
  isNull : List Bool
  buffer : ArrowArray
  childOffset : Nat
  childLength : Nat
  reread : Reread
  enough : offset + isNull.length < offsets.length
  ascending : offsets.Pairwise (· ≤ ·)
  inside : ∀ o ∈ offsets, o ≤ childLength
  childInside : childOffset + childLength ≤ buffer.nulls.length

/-- The element at a position of the buffers; none when it is null. -/
def logical {α : Type} (slots : List (Slot α)) (i : Nat) : Option α :=
  slots[i]?.bind fun s => if s.isNull then none else some s.raw

namespace ListColumn
variable (c : ListColumn) (row : Nat)

def valueOffset : Nat := c.offsets.getD (c.offset + row) 0

def valueLength : Nat := c.offsets.getD (c.offset + row + 1) 0 - c.valueOffset row

def nullAt : Bool := c.isNull.getD row false

def slots : List (Slot (Nat × Nat)) :=
  (List.range c.isNull.length).map fun row =>
    ⟨c.nullAt row, (c.valueOffset row, c.valueLength row)⟩

def values : ArrowArray := c.buffer.slice c.childOffset c.childLength

/-- The column as `ApplyField` gets it. -/
def array : ArrowArray :=
  if c.large then .largeList c.slots c.values c.reread else .list c.slots c.values c.reread

/-- The logical elements of a row, from the buffers of the child. -/
def elements {α : Type} (slots : List (Slot α)) : List (Option α) :=
  (List.range (c.valueLength row)).map fun i =>
    logical slots (c.childOffset + c.valueOffset row + i)

end ListColumn

section Spec
variable (Y : Yikv) (fd : FieldDef) (c : ListColumn) (row : Nat) (doc : Y.Doc)

/-- The call returns an error, with the document as it was. -/
def ListRejected : Prop :=
  ∃ message, applyFieldInPlace Y fd c.array row doc = (.error (.invalid message), doc)

/-- The call returns OK, and the field holds the elements of the list: none of a null list,
which leaves it alone, an empty array for an empty list, and otherwise those of a child of
their type. -/
def ListStored : Prop :=
  ∃ doc', applyFieldInPlace Y fd c.array row doc = (.ok (), doc') ∧
    if c.nullAt row then doc' = doc
    else if c.valueLength row = 0 then Y.get doc' fd.fieldId (.array fd.type.elem) = []
    else ∃ slots, childSlots fd.type c.buffer = some slots ∧
      (Y.get doc' fd.fieldId (.array fd.type.elem)).map some = c.elements row slots

/-- The list is imported exactly or rejected, and rejected when its child is of another type
than the elements. -/
def ExactOrRejected : Prop :=
  (ListRejected Y fd c row doc ∨ ListStored Y fd c row doc) ∧
    (childSlots fd.type c.buffer = none → ListRejected Y fd c row doc)

/-- The child has the type of the elements, and the list is null or empty, or none of its
elements is null and 32 bits hold their number; or the child is of another type, the
elements are texts, and the list has some. -/
def Importable : Prop :=
  match childSlots fd.type c.buffer with
  | some slots => c.nullAt row = true ∨ c.valueLength row = 0 ∨
    (c.valueLength row < 2 ^ 32 ∧ none ∉ c.elements row slots)
  | none => fd.type = .string ∧ c.nullAt row = false ∧ c.valueLength row ≠ 0

end Spec

variable {Y : Yikv} {fd : FieldDef} {c : ListColumn} {row : Nat} {doc : Y.Doc}

/-! ## The child -/

theorem childSlots_slice (type : DataType) (array : ArrowArray) (offset length : Nat) :
    childSlots type (array.slice offset length) =
      (childSlots type array).map fun slots => (slots.drop offset).take length := by
  cases type <;> cases array <;> rfl

theorem length_childSlots {type : DataType} {array : ArrowArray}
    {slots : List (Slot type.elem.Val)} (h : childSlots type array = some slots) :
    slots.length = array.nulls.length := by
  cases type <;> cases array <;> cases h <;> exact (List.length_map _).symm

/-- Values read out of a slice are the logical elements when there are as many and none is
null. -/
theorem rawValues_slice {α : Type} {slots : List (Slot α)} {start length off n : Nat}
    (hslice : start + length ≤ slots.length) {len : Nat} (hn : n ≤ len) (hlen : off + len ≤ length) :
    (rawValues ((slots.drop start).take length) off n).map some =
        ((List.range len).map fun i => logical slots (start + off + i)) ↔
      n = len ∧ none ∉ (List.range len).map fun i => logical slots (start + off + i) := by
  have hsize : (rawValues ((slots.drop start).take length) off n).length = n := by
    simp only [rawValues, List.length_map, List.length_take, List.length_drop]
    omega
  constructor
  · intro h
    refine ⟨?_, ?_⟩
    · have hcount := congrArg List.length h
      rwa [List.length_map, hsize, List.length_map, List.length_range] at hcount
    · rw [← h]
      simp
  · rintro ⟨rfl, hnone⟩
    refine List.ext_getElem (by simp [hsize]) fun i hi hi' => ?_
    have hin : i < n := by simpa [hsize] using hi
    have hslot : start + (off + i) < slots.length := by omega
    have hvalid : logical slots (start + off + i) ≠ none := fun he =>
      hnone (List.mem_map.mpr ⟨i, List.mem_range.mpr hin, he⟩)
    have hget : slots[start + off + i]? = some slots[start + (off + i)] := by
      rw [Nat.add_assoc]
      exact List.getElem?_eq_getElem hslot
    simp only [List.getElem_map, List.getElem_range, rawValues, List.getElem_take,
      List.getElem_drop]
    simp only [logical, hget, Option.bind_some, ne_eq, ite_eq_left_iff, not_forall] at hvalid ⊢
    obtain ⟨hnull, -⟩ := hvalid
    rw [if_neg hnull]

/-! ## One row -/

namespace ListColumn

theorem slots_getElem (h : row < c.isNull.length) :
    c.slots[row]? = some ⟨c.nullAt row, (c.valueOffset row, c.valueLength row)⟩ := by
  simp [slots, h]

/-- A row lies inside the child. -/
theorem row_inside (h : row < c.isNull.length) :
    c.valueOffset row + c.valueLength row ≤ c.childLength := by
  have hsize := c.enough
  have hlo : c.offset + row < c.offsets.length := by omega
  have hhi : c.offset + row + 1 < c.offsets.length := by omega
  have hle : c.offsets[c.offset + row] ≤ c.offsets[c.offset + row + 1] :=
    List.pairwise_iff_getElem.mp c.ascending _ _ hlo hhi (Nat.lt_succ_self _)
  have hin : c.offsets[c.offset + row + 1] ≤ c.childLength :=
    c.inside _ (List.getElem_mem hhi)
  have hoff : c.valueOffset row = c.offsets[c.offset + row] :=
    (List.getElem_eq_getD 0).symm
  have hlen : c.valueLength row = c.offsets[c.offset + row + 1] - c.valueOffset row := by
    rw [valueLength, ← List.getElem_eq_getD (h := hhi) 0]
  omega

end ListColumn

variable (doc) in
/-- What a call comes to on a list array. -/
theorem applyField_list (harray : fd.isArray = true) (hrow : row < c.isNull.length) :
    applyFieldInPlace Y fd c.array row doc =
      if c.nullAt row then (.ok (), doc)
      else if c.valueLength row = 0 then
        (if isElementType fd.type then putThenOk Y fd (.array fd.type.elem) []
          else returnOk Y) doc
      else applyElementsInPlace Y fd c.values c.reread (c.valueOffset row) (c.valueLength row)
        doc := by
  have hlist : applyFieldInPlace Y fd c.array row doc =
      applyListFixedInPlace Y fd c.slots c.values c.reread row doc := by
    unfold applyFieldInPlace ListColumn.array
    rw [if_pos harray]
    cases c.large <;> rfl
  have hslot := ListColumn.slots_getElem hrow
  rw [hlist]
  unfold applyListFixedInPlace value
  rw [hslot]
  dsimp only [Option.map_some, Option.getD_some]
  split
  · rfl
  split <;> rfl

variable (doc) in
/-- Storing the elements of a child of their type: what is put is the list exactly when no
element is null and 32 bits hold their number. -/
theorem applyElements_matching {slots : List (Slot fd.type.elem.Val)}
    (hchild : childSlots fd.type c.buffer = some slots) (helem : isElementType fd.type = true)
    (hrow : row < c.isNull.length) :
    ∃ vs : List fd.type.elem.Val,
      applyElementsInPlace Y fd c.values c.reread (c.valueOffset row) (c.valueLength row) doc =
        (.ok (), Y.put doc fd.fieldId (.array fd.type.elem) vs) ∧
      (vs.map some = c.elements row slots ↔
        c.valueLength row < 2 ^ 32 ∧ none ∉ c.elements row slots) := by
  have hslice : childSlots fd.type c.values =
      some ((slots.drop c.childOffset).take c.childLength) := by
    rw [ListColumn.values, childSlots_slice, hchild]
    rfl
  have hbuffer : c.childOffset + c.childLength ≤ slots.length := by
    rw [length_childSlots hchild]
    exact c.childInside
  refine ⟨rawValues ((slots.drop c.childOffset).take c.childLength) (c.valueOffset row)
    (c.valueLength row % 2 ^ 32), ?_, ?_⟩
  · unfold applyElementsInPlace
    rw [if_pos helem, hslice]
    rfl
  · have hraw := rawValues_slice hbuffer (Nat.mod_le (c.valueLength row) (2 ^ 32))
      (ListColumn.row_inside hrow)
    have hmod : c.valueLength row % 2 ^ 32 = c.valueLength row ↔ c.valueLength row < 2 ^ 32 :=
      ⟨fun h => h ▸ Nat.mod_lt _ (by decide), Nat.mod_eq_of_lt⟩
    rw [hmod] at hraw
    exact hraw

/-- Storing the elements of a child of another type: refused for texts, and otherwise put as
what the cast gives. -/
theorem applyElements_other (hchild : childSlots fd.type c.buffer = none)
    (helem : isElementType fd.type = true) :
    applyElementsInPlace Y fd c.values c.reread (c.valueOffset row) (c.valueLength row) doc =
      if fd.type = .string then
        (.error (.invalid ("field " ++ fd.name ++ ": " ++ "list<string> expected STRING values")),
          doc)
      else (.ok (), Y.put doc fd.fieldId (.array fd.type.elem)
        (c.reread fd.type (c.valueOffset row) (c.valueLength row % 2 ^ 32))) := by
  have hslice : childSlots fd.type c.values = none := by
    rw [ListColumn.values, childSlots_slice, hchild]
    rfl
  unfold applyElementsInPlace
  rw [if_pos helem, hslice]
  dsimp only
  split <;> rfl

/-- A call that returns OK rejects nothing. -/
theorem not_listRejected {doc' : Y.Doc}
    (happly : applyFieldInPlace Y fd c.array row doc = (.ok (), doc')) :
    ¬ ListRejected Y fd c row doc := by
  rintro ⟨message, hrejected⟩
  rw [happly] at hrejected
  cases hrejected

variable (doc) in
/-- A list with elements over a child of their type is never rejected. -/
theorem listCell_matching {slots : List (Slot fd.type.elem.Val)} (harray : fd.isArray = true)
    (helem : isElementType fd.type = true) (hrow : row < c.isNull.length)
    (hnull : ¬ c.nullAt row = true) (hempty : ¬ c.valueLength row = 0)
    (hchild : childSlots fd.type c.buffer = some slots) :
    ¬ ListRejected Y fd c row doc ∧
      (ListStored Y fd c row doc ↔ c.valueLength row < 2 ^ 32 ∧ none ∉ c.elements row slots) := by
  obtain ⟨vs, hput, hexact⟩ := applyElements_matching doc hchild helem hrow
  have happly := applyField_list doc harray hrow
  rw [if_neg hnull, if_neg hempty, hput] at happly
  refine ⟨not_listRejected happly, ?_⟩
  rw [← hexact]
  constructor
  · rintro ⟨doc', hstored, hfield⟩
    rw [happly] at hstored
    obtain rfl := (Prod.mk.inj hstored).2
    rw [if_neg hnull, if_neg hempty, hchild] at hfield
    obtain ⟨slots', hslots, hget⟩ := hfield
    obtain rfl := Option.some.inj hslots
    rwa [Y.get_put_self] at hget
  · intro hvs
    refine ⟨_, happly, ?_⟩
    rw [if_neg hnull, if_neg hempty]
    refine ⟨slots, hchild, ?_⟩
    rwa [Y.get_put_self]

variable (doc) in
/-- A list with elements over a child of another type is rejected exactly when they are to be
texts. -/
theorem listCell_other (harray : fd.isArray = true) (helem : isElementType fd.type = true)
    (hrow : row < c.isNull.length) (hnull : ¬ c.nullAt row = true)
    (hempty : ¬ c.valueLength row = 0) (hchild : childSlots fd.type c.buffer = none) :
    ListRejected Y fd c row doc ↔ fd.type = .string := by
  have happly := applyField_list doc harray hrow
  rw [if_neg hnull, if_neg hempty, applyElements_other hchild helem] at happly
  constructor
  · intro hrejected
    by_contra htext
    rw [if_neg htext] at happly
    exact not_listRejected happly hrejected
  · intro htext
    rw [if_pos htext] at happly
    exact ⟨_, happly⟩

variable (doc) in
/-- A null or an empty list is stored, whatever its child. -/
theorem listCell_noElements (harray : fd.isArray = true) (helem : isElementType fd.type = true)
    (hrow : row < c.isNull.length) (hnone : c.nullAt row = true ∨ c.valueLength row = 0) :
    ListStored Y fd c row doc ∧ ¬ ListRejected Y fd c row doc := by
  have happly := applyField_list doc harray hrow
  by_cases hnull : c.nullAt row = true
  · rw [if_pos hnull] at happly
    exact ⟨⟨doc, happly, by rw [if_pos hnull]⟩, not_listRejected happly⟩
  · have hempty := hnone.resolve_left hnull
    rw [if_neg hnull, if_pos hempty, if_pos helem] at happly
    refine ⟨⟨_, happly, ?_⟩, not_listRejected happly⟩
    rw [if_neg hnull, if_pos hempty, Y.get_put_self]

/-- A list is imported exactly or rejected, and rejected over a child of another type, if and
only if it is importable. -/
theorem listCell_iff (Y : Yikv) (fd : FieldDef) (harray : fd.isArray = true)
    (helem : isElementType fd.type = true) (c : ListColumn) (row : Nat)
    (hrow : row < c.isNull.length) (doc : Y.Doc) :
    ExactOrRejected Y fd c row doc ↔ Importable fd c row := by
  unfold ExactOrRejected Importable
  by_cases hnone : c.nullAt row = true ∨ c.valueLength row = 0
  · obtain ⟨hstored, hnot⟩ := listCell_noElements doc harray helem hrow hnone
    cases hchild : childSlots fd.type c.buffer with
    | some slots =>
      refine iff_of_true ⟨Or.inr hstored, fun h => nomatch h⟩ ?_
      exact hnone.imp_right Or.inl
    | none =>
      refine iff_of_false (fun h => hnot (h.2 rfl)) ?_
      rintro ⟨-, hvalid, hsome⟩
      rcases hnone with hnull | hempty
      · rw [hvalid] at hnull
        cases hnull
      · exact hsome hempty
  · obtain ⟨hnull, hempty⟩ := not_or.mp hnone
    cases hchild : childSlots fd.type c.buffer with
    | some slots =>
      obtain ⟨hnot, hstored⟩ := listCell_matching doc harray helem hrow hnull hempty hchild
      dsimp only
      rw [or_iff_right hnull, or_iff_right hempty, ← hstored, or_iff_right hnot]
      exact and_iff_left fun h => nomatch h
    | none =>
      have hrejected := listCell_other doc harray helem hrow hnull hempty hchild
      have hvalid : c.nullAt row = false := by simpa using hnull
      constructor
      · exact fun h => ⟨hrejected.mp (h.2 rfl), hvalid, hempty⟩
      · rintro ⟨htext, -, -⟩
        exact ⟨Or.inl (hrejected.mpr htext), fun _ => hrejected.mpr htext⟩

/-- The buffer of int64 values as int32 values, on a little-endian machine. -/
def int32Halves (slots : List (Slot Int64)) : List Int32 :=
  slots.flatMap fun s => [s.raw.toInt32, (s.raw >>> (32 : Int64)).toInt32]

/-- Two rows over a child of int64: the scores of a user, and no scores. -/
def scoresColumn : ListColumn where
  large := false
  offsets := [0, 2, 2]
  offset := 0
  isNull := [false, false]
  buffer := .int64 [⟨false, 7⟩, ⟨false, 8⟩, ⟨false, 9⟩]
  childOffset := 0
  childLength := 2
  reread
    | .int32, off, len => ((int32Halves [⟨false, 7⟩, ⟨false, 8⟩, ⟨false, 9⟩]).drop off).take len
    | _, _, _ => []
  enough := by decide
  ascending := by decide
  inside := by decide
  childInside := by decide

/-- The scores fit an array of int64. -/
theorem scoresColumn_importable :
    let fd : FieldDef := ⟨"scores", 3, .int64, true⟩
    ExactOrRejected .plain fd scoresColumn 0 Yikv.plain.newDoc ↔ Importable fd scoresColumn 0 :=
  listCell_iff .plain ⟨"scores", 3, .int64, true⟩ rfl rfl scoresColumn 0 (by decide) _

/-- For an array of int32 the same column is not rejected: the call returns OK and stores the
halves of the first score in the place of the two scores. -/
theorem scoresColumn_reinterpreted :
    let fd : FieldDef := ⟨"scores", 3, .int32, true⟩
    childSlots fd.type scoresColumn.buffer = none ∧
      applyFieldInPlace .plain fd scoresColumn.array 0 Yikv.plain.newDoc =
        (.ok (), Yikv.plain.put Yikv.plain.newDoc 3 (.array .i32) ([7, 0] : List Int32)) ∧
      ¬ ExactOrRejected .plain fd scoresColumn 0 Yikv.plain.newDoc := by
  intro fd
  have hcall : applyFieldInPlace .plain fd scoresColumn.array 0 Yikv.plain.newDoc =
      (.ok (), Yikv.plain.put Yikv.plain.newDoc 3 (.array .i32) ([7, 0] : List Int32)) := rfl
  exact ⟨rfl, hcall, fun h => not_listRejected hcall (h.2 rfl)⟩

end YikvServer.Import
