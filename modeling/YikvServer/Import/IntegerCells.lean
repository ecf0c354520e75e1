import YikvServer.Import.InPlace

/-!
# Integer cells

A scalar Int32 or Int64 field from an Arrow column of any type. Each pair of widths has its
own boundary test; together they store the integer of the cell or refuse it, and a refused
cell leaves the document as it was.
-/
namespace YikvServer.Import

open YikvServer.Index

/-- The document afterwards is the one before with this integer put in the field. -/
def StoresInteger (Y : Yikv) (fd : FieldDef) (doc doc' : Y.Doc) (v : Int) : Prop :=
  match fd.type with
  | .int32 => ∃ x : Int32, x.toInt = v ∧ doc' = Y.put doc fd.fieldId (.scalar .i32) x
  | .int64 => ∃ x : Int64, x.toInt = v ∧ doc' = Y.put doc fd.fieldId (.scalar .i64) x
  | _ => False

/-- The call is refused with a message that names the field, and nothing is written. -/
def Refused (Y : Yikv) (fd : FieldDef) (doc : Y.Doc)
    (outcome : Except ImportError Unit × Y.Doc) : Prop :=
  ∃ what, outcome = (.error (.invalid ("field " ++ fd.name ++ ": " ++ what)), doc)

variable {Y : Yikv} {fd : FieldDef} {doc doc' : Y.Doc} {col : ArrowArray} {row : Nat} {v : Int}

theorem fieldInvalid_error {what : String} {err : ImportError}
    (h : fieldInvalid Y fd what = .error err) :
    ∃ what, err = .invalid ("field " ++ fd.name ++ ": " ++ what) :=
  ⟨what, (Except.error.inj h).symm⟩

/-- An int32 that is not taken is an error that names the field. -/
theorem applyInt32_error {err : ImportError} (h : applyInt32 Y doc fd row col = .error err) :
    ∃ what, err = .invalid ("field " ++ fd.name ++ ": " ++ what) := by
  cases col with
  | int8 slots => cases h
  | int16 slots => cases h
  | int32 slots => cases h
  | uint8 slots => cases h
  | uint16 slots => cases h
  | uint32 slots =>
    simp only [applyInt32] at h
    split at h
    · exact fieldInvalid_error h
    · cases h
  | int64 slots =>
    simp only [applyInt32] at h
    split at h
    · exact fieldInvalid_error h
    · cases h
  | uint64 slots =>
    simp only [applyInt32] at h
    split at h
    · exact fieldInvalid_error h
    · cases h
  | _ =>
    simp only [applyInt32] at h
    exact fieldInvalid_error h

theorem applyInt64_error {err : ImportError} (h : applyInt64 Y doc fd row col = .error err) :
    ∃ what, err = .invalid ("field " ++ fd.name ++ ": " ++ what) := by
  cases col with
  | int64 slots => cases h
  | int32 slots => cases h
  | uint32 slots => cases h
  | uint64 slots =>
    simp only [applyInt64] at h
    split at h
    · exact fieldInvalid_error h
    · cases h
  | _ =>
    simp only [applyInt64] at h
    exact fieldInvalid_error h

/-- What is stored fits, since it was stored. -/
theorem StoresInteger.fits (h : StoresInteger Y fd doc doc' v) : fd.type.Fits v := by
  unfold StoresInteger at h
  split at h
  · rename_i htype
    obtain ⟨x, rfl, -⟩ := h
    rw [htype]
    exact fits_int32 x
  · rename_i htype
    obtain ⟨x, rfl, -⟩ := h
    rw [htype]
    exact fits_int64 x
  · exact h.elim

theorem applyField_scalar (h : fd.isArray = false) :
    applyField Y doc fd col row = applyScalar Y doc fd col row := by
  unfold applyField
  rw [if_neg (by rw [h]; exact Bool.false_ne_true)]

theorem applyScalar_null (h : arrowCellIsNull col row = true) :
    applyScalar Y doc fd col row = .ok doc := by
  unfold applyScalar
  rw [if_pos h]

variable (doc) in
/-- The integer cases put the integer of the cell or say why not. -/
theorem applyInteger_cases (htype : fd.type = .int32 ∨ fd.type = .int64)
    (hnull : arrowCellIsNull col row = false) :
    match applyScalar Y doc fd col row with
    | .ok doc' => ∃ v, col.int? row = some v ∧ StoresInteger Y fd doc doc' v
    | .error err => ∃ what, err = .invalid ("field " ++ fd.name ++ ": " ++ what) := by
  obtain ⟨name, fid, type, isArray⟩ := fd
  have hgo : ¬ arrowCellIsNull col row = true := by
    rw [hnull]
    exact Bool.false_ne_true
  unfold applyScalar
  rw [if_neg hgo]
  rcases htype with rfl | rfl
  · dsimp only
    cases hput : applyInt32 Y doc ⟨name, fid, .int32, isArray⟩ row col with
    | ok doc' =>
      obtain ⟨x, hx, hdoc⟩ := applyInt32_exact hput
      exact ⟨x.toInt, hx, x, rfl, hdoc⟩
    | error err =>
      have hnames := applyInt32_error hput
      exact hnames
  · dsimp only
    cases hput : applyInt64 Y doc ⟨name, fid, .int64, isArray⟩ row col with
    | ok doc' =>
      obtain ⟨x, hx, hdoc⟩ := applyInt64_exact hput
      exact ⟨x.toInt, hx, x, rfl, hdoc⟩
    | error err =>
      have hnames := applyInt64_error hput
      exact hnames

/-- A null cell leaves the document alone. Any other cell is stored as the integer that it
is, or refused with the document as it was; and it is refused whenever it does not fit. -/
theorem integerCell_exact (Y : Yikv) (fd : FieldDef) (hscalar : fd.isArray = false)
    (htype : fd.type = .int32 ∨ fd.type = .int64) (col : ArrowArray) (row : Nat) (doc : Y.Doc) :
    (arrowCellIsNull col row = true → applyFieldInPlace Y fd col row doc = (.ok (), doc)) ∧
    (arrowCellIsNull col row = false →
      (∃ v doc', col.int? row = some v ∧ StoresInteger Y fd doc doc' v ∧
        applyFieldInPlace Y fd col row doc = (.ok (), doc')) ∨
      Refused Y fd doc (applyFieldInPlace Y fd col row doc)) ∧
    (∀ v, arrowCellIsNull col row = false → col.int? row = some v → ¬ fd.type.Fits v →
      Refused Y fd doc (applyFieldInPlace Y fd col row doc)) := by
  have hfield : applyFieldInPlace Y fd col row doc = settled doc (applyScalar Y doc fd col row) := by
    rw [applyFieldInPlace_eq, applyField_scalar hscalar]
  have hcell : arrowCellIsNull col row = false →
      (∃ v doc', col.int? row = some v ∧ StoresInteger Y fd doc doc' v ∧
        applyFieldInPlace Y fd col row doc = (.ok (), doc')) ∨
      Refused Y fd doc (applyFieldInPlace Y fd col row doc) := by
    intro hnull
    have hcases := applyInteger_cases doc htype hnull
    rw [hfield]
    cases hput : applyScalar Y doc fd col row with
    | ok doc' =>
      rw [hput] at hcases
      obtain ⟨v, hv, hstores⟩ := hcases
      exact Or.inl ⟨v, doc', hv, hstores, rfl⟩
    | error err =>
      rw [hput] at hcases
      obtain ⟨what, rfl⟩ := hcases
      exact Or.inr ⟨what, rfl⟩
  refine ⟨fun hnull => ?_, hcell, fun v hnull hv hfits => ?_⟩
  · rw [hfield, applyScalar_null hnull]
    rfl
  · refine (hcell hnull).resolve_left ?_
    rintro ⟨v', doc', hv', hstores, -⟩
    obtain rfl : v = v' := Option.some.inj (hv.symm.trans hv')
    exact hfits hstores.fits

/-- A uint64 above the range of the field, a null and an int64 that fits. -/
theorem integerCell_exact_uint64 :
    let fd : FieldDef := ⟨"age", 2, .int32, false⟩
    let col : ArrowArray := .uint64 [⟨false, 4294967296⟩, ⟨true, 0⟩, ⟨false, 7⟩]
    let outcome := applyFieldInPlace .plain fd col 0 Yikv.plain.newDoc
    (arrowCellIsNull col 0 = true → outcome = (.ok (), Yikv.plain.newDoc)) ∧
    (arrowCellIsNull col 0 = false →
      (∃ v doc', col.int? 0 = some v ∧ StoresInteger .plain fd Yikv.plain.newDoc doc' v ∧
        outcome = (.ok (), doc')) ∨ Refused .plain fd Yikv.plain.newDoc outcome) ∧
    (∀ v, arrowCellIsNull col 0 = false → col.int? 0 = some v → ¬ fd.type.Fits v →
      Refused .plain fd Yikv.plain.newDoc outcome) :=
  integerCell_exact .plain ⟨"age", 2, .int32, false⟩ rfl (Or.inl rfl) _ 0 _

end YikvServer.Import
