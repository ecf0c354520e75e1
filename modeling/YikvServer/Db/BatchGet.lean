import YikvServer.Db.RoundTrip

/-!
# BatchGet and Get

`HandleBatchGet` looks the keys up one after another. On contents that do not change, each
of its rows is what `HandleGet` answers for that key.
-/
namespace YikvServer.Db

open YikvServer.Theory YikvServer.Index YikvServer.Stream

/-- A value for each field of the schema, in order, under the field's id. -/
def RowOf (schema : Schema) (row : Row) : Prop :=
  ∃ entries, row.fields = some entries ∧ List.Forall₂ (fun fd entry =>
    ∃ fv : FieldValue, entry = some fv ∧ fv.fieldId = UInt16.ofNat fd.fieldId) schema.fields entries

/-- The row stands for the answer of `HandleGet` to this key: the row that it found, or a
row without fields. -/
def RowAnswers (Y : Yikv) (schema : Schema) (acquire : String → Option Schema) (table : String)
    (idx : Y.Contents) : Option String → Row → Prop
  | none, row => row.fields = none
  | some pk, row => ∃ resp,
    Prog.run (Y.exec schema) (handleGet Y acquire ⟨some pk, some table⟩) idx = (.ok resp, idx) ∧
      (resp.found = true → resp.row = some row ∧ RowOf schema row) ∧
      (resp.found = false → row.fields = none) ∧
      (resp.found = true ↔ row.fields.getD [] ≠ [])

variable {Y : Yikv} {schema : Schema} {acquire : String → Option Schema} {table : String}
  {idx : Y.Contents} {doc : Y.Doc}

theorem buildRow_rowOf (doc : Y.Doc) : RowOf schema (buildRow Y doc schema) := by
  refine ⟨_, rfl, ?_⟩
  rw [List.forall₂_map_right_iff, List.forall₂_same]
  exact fun fd _ => ⟨_, rfl, buildFieldValue_fieldId fd⟩

theorem run_handleGet_miss {tableName : Option String}
    (hslot : acquireOrError acquire tableName = .ok schema) (pk : String) (h : idx pk = none) :
    Prog.run (Y.exec schema) (handleGet Y acquire ⟨some pk, tableName⟩) idx =
      (.ok ⟨false, some "", none⟩, idx) := by
  simp only [handleGet, hslot, Prog.lift_ok, Prog.pure_bind', Prog.perform_bind, Prog.run_step,
    Yikv.exec, h]
  rfl

/-- The row that the loop makes for one key. -/
def batchRow (Y : Yikv) (schema : Schema) (idx : Y.Contents) (key : Option String) : Row :=
  match key.bind idx with
  | some doc => buildRow Y doc schema
  | none => ⟨none⟩

theorem batchRow_answers (hslot : acquireOrError acquire (some table) = .ok schema)
    (hne : schema.fields ≠ []) (key : Option String) :
    RowAnswers Y schema acquire table idx key (batchRow Y schema idx key) := by
  cases key with
  | none => rfl
  | some pk =>
    cases hrow : idx pk with
    | none =>
      have hmiss : batchRow Y schema idx (some pk) = ⟨none⟩ := by
        simp only [batchRow, Option.bind_some, hrow]
      refine ⟨_, run_handleGet_miss hslot pk hrow, ?_⟩
      rw [hmiss]
      exact ⟨fun h => (nomatch h), fun _ => rfl, by simp⟩
    | some doc =>
      have hhit : batchRow Y schema idx (some pk) = buildRow Y doc schema := by
        simp only [batchRow, Option.bind_some, hrow]
      refine ⟨_, run_handleGet hslot pk hrow, ?_⟩
      rw [hhit]
      refine ⟨fun _ => ⟨rfl, buildRow_rowOf doc⟩, fun h => (nomatch h), ?_⟩
      simpa [buildRow] using hne

/-- The loop reads, and makes one row for each key in order. -/
theorem run_batchGetRows (keys : List (Option String)) (idx : Y.Contents) :
    Prog.run (Y.exec schema) (batchGetRows Y schema keys) idx =
      (.ok (keys.map (batchRow Y schema idx)), idx) := by
  induction keys with
  | nil => rfl
  | cons key rest ih =>
    cases key with
    | none =>
      simp only [batchGetRows, Prog.run_bind, ih]
      rfl
    | some pk =>
      simp only [batchGetRows, Prog.perform_bind, Prog.run_step, Yikv.exec, Prog.run_bind, ih]
      cases hrow : idx pk with
      | none => simp [batchRow, hrow]; rfl
      | some doc => simp [batchRow, hrow]; rfl

/-- On a registered table, BatchGet answers every list of keys with one row for each key,
in order, and each row is what Get answers for its key. -/
theorem batchGet_pointwise (Y : Yikv) (schema : Schema) (acquire : String → Option Schema)
    (table : String) (htable : acquire table = some schema) (hname : table ≠ "")
    (hne : schema.fields ≠ []) (keys : List (Option String)) (idx : Y.Contents) :
    ∃ rows, Prog.run (Y.exec schema) (handleBatchGet Y acquire ⟨some keys, some table⟩) idx =
        (.ok ⟨some rows, some ""⟩, idx) ∧
      List.Forall₂ (RowAnswers Y schema acquire table idx) keys rows := by
  have hslot : acquireOrError acquire (some table) = .ok schema := by
    simp only [acquireOrError, if_neg hname, htable]
  refine ⟨keys.map (batchRow Y schema idx), ?_, ?_⟩
  · simp only [handleBatchGet, hslot, Prog.lift_ok, Prog.pure_bind', Prog.run_bind,
      run_batchGetRows]
    rfl
  · rw [List.forall₂_map_right_iff, List.forall₂_same]
    exact fun key _ => batchRow_answers hslot hne key

/-- A hit, a miss, a null entry and the hit again. -/
theorem profiles_batchGet : ∃ rows,
    Prog.run (Yikv.plain.exec profileSchema)
        (handleBatchGet .plain (fun _ => some profileSchema)
          ⟨some [some "0", some "missing", none, some "0"], some "profiles"⟩)
        (Yikv.plain.upsert profileSchema (fun _ => none) Yikv.plain.newDoc) =
      (.ok ⟨some rows, some ""⟩,
        Yikv.plain.upsert profileSchema (fun _ => none) Yikv.plain.newDoc) ∧
    List.Forall₂ (RowAnswers .plain profileSchema (fun _ => some profileSchema) "profiles"
        (Yikv.plain.upsert profileSchema (fun _ => none) Yikv.plain.newDoc))
      [some "0", some "missing", none, some "0"] rows :=
  batchGet_pointwise .plain profileSchema (fun _ => some profileSchema) "profiles" rfl (by decide)
    (by decide) _ _

end YikvServer.Db
