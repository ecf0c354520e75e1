import YikvServer.Import.ProcessBatch
import YikvServer.Theory.Fallible

/-!
# What a cell leaves in the document

`ApplyField` writes one cell of its own field or nothing. An integer that it stores is
the integer of the Arrow cell, whatever the widths.
-/
namespace YikvServer.Import

open YikvServer.Theory YikvServer.Index

/-- The integer in a cell of an integer column. -/
def ArrowArray.int? (row : Nat) : ArrowArray → Option Int
  | .int8 slots => some (value slots row).toInt
  | .int16 slots => some (value slots row).toInt
  | .int32 slots => some (value slots row).toInt
  | .int64 slots => some (value slots row).toInt
  | .uint8 slots => some (value slots row).toNat
  | .uint16 slots => some (value slots row).toNat
  | .uint32 slots => some (value slots row).toNat
  | .uint64 slots => some (value slots row).toNat
  | _ => none

/-- The text in a cell of a string or binary column. -/
def ArrowArray.text? (row : Nat) : ArrowArray → Option String
  | .string slots => some (value slots row)
  | .binary slots => some (value slots row)
  | _ => none

def ArrowArray.bool? (row : Nat) : ArrowArray → Option Bool
  | .bool slots => some (value slots row)
  | _ => none

variable {Y : Yikv} {doc doc' : Y.Doc} {fd : FieldDef} {col : ArrowArray} {row : Nat}
  {schema : Schema} {batch : RecordBatch} {fid : Nat}

/-! ## Exact integers -/

theorem applyInt32_exact (h : applyInt32 Y doc fd row col = .ok doc') :
    ∃ v : Int32, col.int? row = some v.toInt ∧
      doc' = Y.put doc fd.fieldId (.scalar .i32) v := by
  have hofNat : ∀ n : Nat, ¬ n > 2147483647 → (Int32.ofNat n).toInt = n := fun n hn =>
    Int32.toInt_ofNat_of_lt (by omega)
  have put_inj : ∀ v, putScalar Y doc fd .i32 v = .ok doc' →
      doc' = Y.put doc fd.fieldId (.scalar .i32) v := fun v h => (Except.ok.inj h).symm
  cases col with
  | int8 slots => exact ⟨_, congrArg some (Int8.toInt_toInt32 _).symm, put_inj _ h⟩
  | int16 slots => exact ⟨_, congrArg some (Int16.toInt_toInt32 _).symm, put_inj _ h⟩
  | int32 slots => exact ⟨_, rfl, put_inj _ h⟩
  | uint8 slots =>
    have hlt := (value slots row).toNat_lt
    exact ⟨_, congrArg some (hofNat _ (by omega)).symm, put_inj _ h⟩
  | uint16 slots =>
    have hlt := (value slots row).toNat_lt
    exact ⟨_, congrArg some (hofNat _ (by omega)).symm, put_inj _ h⟩
  | uint32 slots =>
    simp only [applyInt32] at h
    split at h
    · cases h
    · rename_i hfits
      exact ⟨_, congrArg some (hofNat _ hfits).symm, put_inj _ h⟩
  | int64 slots =>
    simp only [applyInt32] at h
    split at h
    · cases h
    · rename_i hfits
      refine ⟨_, congrArg some ?_, put_inj _ h⟩
      rw [Int64.toInt_toInt32, Int.bmod_eq_of_le (by omega) (by omega)]
  | uint64 slots =>
    simp only [applyInt32] at h
    split at h
    · cases h
    · rename_i hfits
      exact ⟨_, congrArg some (hofNat _ hfits).symm, put_inj _ h⟩
  | _ => cases h

theorem applyInt64_exact (h : applyInt64 Y doc fd row col = .ok doc') :
    ∃ v : Int64, col.int? row = some v.toInt ∧
      doc' = Y.put doc fd.fieldId (.scalar .i64) v := by
  have put_inj : ∀ v, putScalar Y doc fd .i64 v = .ok doc' →
      doc' = Y.put doc fd.fieldId (.scalar .i64) v := fun v h => (Except.ok.inj h).symm
  cases col with
  | int64 slots => exact ⟨_, rfl, put_inj _ h⟩
  | int32 slots => exact ⟨_, congrArg some (Int32.toInt_toInt64 _).symm, put_inj _ h⟩
  | uint32 slots =>
    have hlt := (value slots row).toNat_lt
    exact ⟨_, congrArg some (Int64.toInt_ofNat_of_lt (by omega)).symm, put_inj _ h⟩
  | uint64 slots =>
    simp only [applyInt64] at h
    split at h
    · cases h
    · rename_i hfits
      exact ⟨_, congrArg some (Int64.toInt_ofNat_of_lt (by omega)).symm, put_inj _ h⟩
  | _ => cases h

theorem applyText_exact (h : applyText Y doc fd row col = .ok doc') :
    ∃ v : String, col.text? row = some v ∧ doc' = Y.put doc fd.fieldId (.scalar .str) v := by
  cases col with
  | string slots => exact ⟨_, rfl, (Except.ok.inj h).symm⟩
  | binary slots => exact ⟨_, rfl, (Except.ok.inj h).symm⟩
  | _ => cases h

/-! ## One field -/

/-- A copy that succeeds leaves the document alone or puts one cell of the field. -/
def Puts (Y : Yikv) (doc : Y.Doc) (fd : FieldDef) (out : Except ImportError Y.Doc) : Prop :=
  ∀ doc', out = .ok doc' → doc' = doc ∨ ∃ c v, doc' = Y.put doc fd.fieldId c v

theorem Puts.same : Puts Y doc fd (.ok doc) :=
  fun _ h => Or.inl (Except.ok.inj h).symm

theorem Puts.one (c : Cell) (v : c.Val) : Puts Y doc fd (.ok (Y.put doc fd.fieldId c v)) :=
  fun _ h => Or.inr ⟨c, v, (Except.ok.inj h).symm⟩

theorem Puts.failed (err : ImportError) : Puts Y doc fd (.error err) :=
  fun _ h => nomatch h

theorem applyScalar_puts (doc : Y.Doc) (fd : FieldDef) (col : ArrowArray) (row : Nat) :
    Puts Y doc fd (applyScalar Y doc fd col row) := by
  unfold applyScalar
  split
  · exact .same
  split
  · split
    · exact .one _ _
    · exact .failed _
  · intro doc' h
    obtain ⟨v, -, hput⟩ := applyInt32_exact h
    exact Or.inr ⟨.scalar .i32, v, hput⟩
  · intro doc' h
    obtain ⟨v, -, hput⟩ := applyInt64_exact h
    exact Or.inr ⟨.scalar .i64, v, hput⟩
  · split
    · exact .one _ _
    · exact .failed _
  · split
    · exact .one _ _
    · exact .failed _
  all_goals
    intro doc' h
    obtain ⟨v, -, hput⟩ := applyText_exact h
    exact Or.inr ⟨.scalar .str, v, hput⟩

theorem applyElements_puts (doc : Y.Doc) (fd : FieldDef) (values : ArrowArray) (reread : Reread)
    (off len : Nat) : Puts Y doc fd (applyElements Y doc fd values reread off len) := by
  unfold applyElements
  split
  case h_5 =>
    split
    · exact .one _ _
    · exact .failed _
  case h_6 => exact .failed _
  all_goals split <;> exact .one _ _

theorem applyListFixed_puts (doc : Y.Doc) (fd : FieldDef) (slots : List (Slot (Nat × Nat)))
    (values : ArrowArray) (reread : Reread) (row : Nat) :
    Puts Y doc fd (applyListFixed Y doc fd slots values reread row) := by
  unfold applyListFixed
  split
  · exact .same
  dsimp only
  split
  · split
    case h_6 => exact .same
    all_goals exact .one _ _
  · exact applyElements_puts doc fd values reread _ _

theorem applyField_puts (doc : Y.Doc) (fd : FieldDef) (col : ArrowArray) (row : Nat) :
    Puts Y doc fd (applyField Y doc fd col row) := by
  unfold applyField
  split
  · split
    · exact applyListFixed_puts doc fd _ _ _ row
    · exact applyListFixed_puts doc fd _ _ _ row
    · exact .failed _
  · exact applyScalar_puts doc fd col row

theorem get_applyField_other (h : applyField Y doc fd col row = .ok doc') (hfid : fid ≠ fd.fieldId)
    (c : Cell) : Y.get doc' fid c = Y.get doc fid c := by
  rcases applyField_puts doc fd col row doc' h with rfl | ⟨c', v, rfl⟩
  · rfl
  · exact Y.get_put_other doc fd.fieldId c' v fid c hfid

/-! ## One row -/

theorem applyColumn_ok (hcol : batch.getColumnByName fd.name = some col)
    (h : applyColumn Y batch row doc fd = .ok doc') : applyField Y doc fd col row = .ok doc' := by
  unfold applyColumn at h
  rw [hcol] at h
  exact h

theorem applyColumn_other (h : applyColumn Y batch row doc fd = .ok doc') (hfid : fid ≠ fd.fieldId)
    (c : Cell) : Y.get doc' fid c = Y.get doc fid c := by
  unfold applyColumn at h
  cases hcol : batch.getColumnByName fd.name with
  | none => rw [hcol] at h; cases h
  | some col => rw [hcol] at h; exact get_applyField_other h hfid c

theorem get_foldColumns_other {fds : List FieldDef}
    (h : fds.foldlM (applyColumn Y batch row) doc = .ok doc')
    (hfid : fid ∉ fds.map FieldDef.fieldId) (c : Cell) : Y.get doc' fid c = Y.get doc fid c := by
  induction fds generalizing doc with
  | nil =>
    obtain rfl := Except.ok.inj h
    rfl
  | cons fd rest ih =>
    obtain ⟨mid, hmid, hrest⟩ := foldlM_cons_eq_ok.mp h
    simp only [List.map_cons, List.mem_cons, not_or] at hfid
    rw [ih hrest hfid.2, applyColumn_other hmid hfid.1]

/-- Each field of the row is what its own column left, on a field not yet touched. -/
theorem foldColumns_self {fds : List FieldDef}
    (h : fds.foldlM (applyColumn Y batch row) doc = .ok doc')
    (hids : (fds.map FieldDef.fieldId).Nodup) (hfd : fd ∈ fds)
    (hcol : batch.getColumnByName fd.name = some col) :
    ∃ before after, applyField Y before fd col row = .ok after ∧
      (∀ c, Y.get before fd.fieldId c = Y.get doc fd.fieldId c) ∧
      ∀ c, Y.get doc' fd.fieldId c = Y.get after fd.fieldId c := by
  induction fds generalizing doc with
  | nil => cases hfd
  | cons g rest ih =>
    obtain ⟨hnot, hrest⟩ := List.nodup_cons.mp hids
    obtain ⟨mid, hmid, happly⟩ := foldlM_cons_eq_ok.mp h
    rcases List.mem_cons.mp hfd with rfl | hfd
    · exact ⟨doc, mid, applyColumn_ok hcol hmid, fun _ => rfl,
        fun c => get_foldColumns_other happly hnot c⟩
    · obtain ⟨before, after, hfield, hbefore, hafter⟩ := ih happly hrest hfd
      have hne : fd.fieldId ≠ g.fieldId := fun he =>
        hnot (he ▸ List.mem_map_of_mem hfd)
      exact ⟨before, after, hfield, fun c => (hbefore c).trans (applyColumn_other hmid hne c),
        hafter⟩

theorem importRow_eq_some (h : importRow Y schema batch fd row = .ok (some doc)) :
    ∃ pk, schema.fields.foldlM (applyColumn Y batch row) Y.newDoc = .ok doc ∧
      importPk Y fd doc = .ok pk ∧ pk ≠ "" := by
  unfold importRow at h
  split at h
  · cases h
  split at h
  · cases h
  split at h
  · cases h
  rename_i doc' hdoc
  split at h
  · cases h
  rename_i pk hpk
  split at h
  · cases h
  rename_i hne
  obtain rfl := Option.some.inj (Except.ok.inj h)
  exact ⟨pk, hdoc, hpk, hne⟩

theorem importRow_of_fold (hcol : batch.getColumnByName fd.name = some col)
    (hnull : arrowCellIsNull col row = false)
    (hdoc : schema.fields.foldlM (applyColumn Y batch row) Y.newDoc = .ok doc) {pk : String}
    (hpk : importPk Y fd doc = .ok pk) (hne : pk ≠ "") :
    importRow Y schema batch fd row = .ok (some doc) := by
  simp only [importRow, hcol, hnull, Bool.false_eq_true, if_false, hdoc, hpk, hne]

end YikvServer.Import
