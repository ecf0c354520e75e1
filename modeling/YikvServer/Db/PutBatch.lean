import YikvServer.Db.Handlers
import YikvServer.Theory.Interleave
import YikvServer.Theory.Fallible

/-!
# Put and PutBatch

What the put handlers answer, and what they leave in the index. A batch stages the
document of every row before it touches the index, so it stores all of its rows in
order or none.
-/
namespace YikvServer.Db

open YikvServer.Theory YikvServer.Theory.Interleave YikvServer.Index YikvServer.Stream

variable {Y : Yikv} {schema slot : Schema} {acquire : String → Option Schema}
  {tableName : Option String} {row : Row} {rows : List (Option Row)} {doc : Y.Doc}
  {docs : List Y.Doc} {noPk : String}

/-- The handlers take the row, and this is the document that they store for it. -/
def Takes (Y : Yikv) (schema : Schema) (row : Option Row) (doc : Y.Doc) : Prop :=
  ∃ r, row = some r ∧ applyRowToDoc Y schema Y.newDoc r = .ok doc ∧
    extractPkString Y schema doc ≠ ""

theorem rowDoc_eq_ok : rowDoc Y schema noPk row = .ok doc ↔ Takes Y schema (some row) doc := by
  unfold rowDoc Takes
  cases hdoc : applyRowToDoc Y schema Y.newDoc row with
  | error err => simp [hdoc]
  | ok doc' =>
    by_cases hkey : extractPkString Y schema doc' = ""
    · simp only [hkey, if_true, reduceCtorEq, false_iff]
      rintro ⟨r, hr, hok, hne⟩
      obtain rfl := Option.some.inj hr
      obtain rfl := Except.ok.inj (hdoc.symm.trans hok)
      exact hne hkey
    · simp only [hkey, if_false, Except.ok.injEq]
      constructor
      · rintro rfl
        exact ⟨row, rfl, hdoc, hkey⟩
      · rintro ⟨r, hr, hok, -⟩
        obtain rfl := Option.some.inj hr
        exact Except.ok.inj (hdoc.symm.trans hok)

/-! ## What the handlers do -/

theorem run_locked (work : Except String (Yikv.KvOp Y)) (idx : Y.Contents) :
    Prog.run (Y.exec schema) (locked Y work) idx =
      match work with
      | .error err => (.error (.refused err), idx)
      | .ok op => (.ok (), (Y.exec schema op idx).2) := by
  cases work <;> rfl

/-- A put that is taken upserts its document. -/
theorem run_handlePut {entry : Option Row} (hslot : acquireOrError acquire tableName = .ok slot)
    (htakes : Takes Y slot entry doc) (idx : Y.Contents) :
    Prog.run (Y.exec schema) (handlePut Y acquire ⟨entry, tableName⟩) idx =
      (.ok (), Y.upsert schema idx doc) := by
  obtain ⟨row, rfl, hdoc⟩ := htakes
  have hrow : rowDoc Y slot "cannot derive pk (check pk field type in schema)" row = .ok doc :=
    rowDoc_eq_ok.mpr ⟨row, rfl, hdoc⟩
  simp only [handlePut, hslot, Prog.lift_ok, Prog.pure_bind', hrow]
  rfl

/-- Any other put is answered with an error and changes nothing. -/
theorem run_handlePut_refused {entry : Option Row}
    (h : ∀ slot, acquireOrError acquire tableName = .ok slot → ∀ doc, ¬ Takes Y slot entry doc)
    (idx : Y.Contents) : ∃ stop,
    Prog.run (Y.exec schema) (handlePut Y acquire ⟨entry, tableName⟩) idx = (.error stop, idx) := by
  cases entry with
  | none => exact ⟨_, rfl⟩
  | some row =>
    cases hslot : acquireOrError acquire tableName with
    | error stop => exact ⟨stop, by simp only [handlePut, hslot]; rfl⟩
    | ok slot =>
      simp only [handlePut, hslot, Prog.lift_ok, Prog.pure_bind', run_locked]
      cases hrow : rowDoc Y slot "cannot derive pk (check pk field type in schema)" row with
      | error err => exact ⟨_, rfl⟩
      | ok doc => exact absurd (rowDoc_eq_ok.mp hrow) (h slot hslot doc)

theorem stageRows_eq_ok :
    stageRows Y schema rows = .ok docs ↔ List.Forall₂ (Takes Y schema) rows docs := by
  induction rows generalizing docs with
  | nil =>
    rw [List.forall₂_nil_left_iff]
    exact ⟨fun h => (Except.ok.inj h).symm, fun h => h ▸ rfl⟩
  | cons entry rest ih =>
    cases entry with
    | none =>
      refine ⟨fun h => (nomatch h), fun h => ?_⟩
      obtain ⟨_, _, ⟨row, hrow, -⟩, -⟩ := List.forall₂_cons_left_iff.mp h
      cases hrow
    | some row =>
      have hbind : stageRows Y schema (some row :: rest) =
          rowDoc Y schema "cannot derive pk" row >>= fun doc =>
            (stageRows Y schema rest).map (doc :: ·) := by
        rw [stageRows]
        cases rowDoc Y schema "cannot derive pk" row <;> rfl
      rw [hbind, bind_eq_ok, List.forall₂_cons_left_iff]
      simp only [map_eq_ok, ih]
      constructor
      · rintro ⟨doc, hrow, rest', hrest, rfl⟩
        exact ⟨doc, rest', rowDoc_eq_ok.mp hrow, hrest, rfl⟩
      · rintro ⟨doc, rest', htakes, hrest, rfl⟩
        exact ⟨doc, rowDoc_eq_ok.mpr htakes, rest', hrest, rfl⟩

theorem takes_of_mem (h : List.Forall₂ (Takes Y schema) rows docs) {entry : Option Row}
    (hentry : entry ∈ rows) : ∃ doc, Takes Y schema entry doc := by
  induction h with
  | nil => cases hentry
  | cons hrow _ ih =>
    rcases List.mem_cons.mp hentry with rfl | hentry
    · exact ⟨_, hrow⟩
    · exact ih hentry

/-- A batch whose rows are all taken upserts their documents in order. -/
theorem run_handlePutBatch (hslot : acquireOrError acquire tableName = .ok slot)
    (hrows : rows ≠ []) (htakes : List.Forall₂ (Takes Y slot) rows docs) (idx : Y.Contents) :
    Prog.run (Y.exec schema) (handlePutBatch Y acquire ⟨some rows, tableName⟩) idx =
      (.ok (), Y.batchUpsert schema idx docs) := by
  simp only [handlePutBatch, hslot, Prog.lift_ok, Prog.pure_bind', if_neg hrows,
    stageRows_eq_ok.mpr htakes]
  rfl

/-- Any other batch is answered with an error and changes nothing. -/
theorem run_handlePutBatch_refused {entries : Option (List (Option Row))}
    (h : ∀ slot, acquireOrError acquire tableName = .ok slot → ∀ rows, entries = some rows →
      rows ≠ [] → ∃ row ∈ rows, ∀ doc, ¬ Takes Y slot row doc)
    (idx : Y.Contents) : ∃ stop,
    Prog.run (Y.exec schema) (handlePutBatch Y acquire ⟨entries, tableName⟩) idx =
      (.error stop, idx) := by
  cases entries with
  | none => exact ⟨_, rfl⟩
  | some rows =>
    cases hslot : acquireOrError acquire tableName with
    | error stop => exact ⟨stop, by simp only [handlePutBatch, hslot]; rfl⟩
    | ok slot =>
      simp only [handlePutBatch, hslot, Prog.lift_ok, Prog.pure_bind']
      by_cases hrows : rows = []
      · exact ⟨_, by rw [if_pos hrows]; rfl⟩
      rw [if_neg hrows, run_locked]
      cases hstaged : stageRows Y slot rows with
      | error err => exact ⟨_, rfl⟩
      | ok docs =>
        obtain ⟨row, hrow, hnot⟩ := h slot hslot rows rfl hrows
        obtain ⟨doc, htakes⟩ := takes_of_mem (stageRows_eq_ok.mp hstaged) hrow
        exact absurd htakes (hnot doc)

/-! ## All or nothing -/

/-- The rows of a batch, each as a put of its own. -/
def putEach (Y : Yikv) (acquire : String → Option Schema) (tableName : Option String)
    (rows : List (Option Row)) : List (Apply Y) :=
  rows.map fun row => handlePut Y acquire ⟨row, tableName⟩

theorem serial_putEach (hslot : acquireOrError acquire tableName = .ok slot)
    (htakes : List.Forall₂ (Takes Y slot) rows docs) (idx : Y.Contents) :
    serial (Y.exec schema) (putEach Y acquire tableName rows) idx =
      Y.batchUpsert schema idx docs := by
  induction htakes generalizing idx with
  | nil => rfl
  | cons hrow _ ih =>
    show serial _ (putEach Y acquire tableName _) (Prog.run (Y.exec schema) _ idx).2 = _
    rw [run_handlePut hslot hrow, ih]
    rfl

theorem forall₂_takes (h : ∀ row ∈ rows, ∃ doc, Takes Y schema row doc) :
    ∃ docs, List.Forall₂ (Takes Y schema) rows docs := by
  induction rows with
  | nil => exact ⟨[], .nil⟩
  | cons row rest ih =>
    obtain ⟨doc, hdoc⟩ := h row List.mem_cons_self
    obtain ⟨docs, hdocs⟩ := ih fun r hr => h r (List.mem_cons_of_mem _ hr)
    exact ⟨doc :: docs, .cons hdoc hdocs⟩

/-- A put is accepted when the table is there and its row is taken. -/
theorem put_accepted_iff {entry : Option Row} (idx : Y.Contents) :
    (Prog.run (Y.exec schema) (handlePut Y acquire ⟨entry, tableName⟩) idx).1 = .ok () ↔
      ∃ slot doc, acquireOrError acquire tableName = .ok slot ∧ Takes Y slot entry doc := by
  constructor
  · intro hok
    by_contra hno
    obtain ⟨stop, hrun⟩ := run_handlePut_refused
      (fun slot hslot doc htakes => hno ⟨slot, doc, hslot, htakes⟩) idx
    rw [hrun] at hok
    cases hok
  · rintro ⟨slot, doc, hslot, htakes⟩
    rw [run_handlePut hslot htakes]

/-- A batch stores what its rows put one by one in order store, when each of them would be
accepted, and otherwise is refused and changes no row. -/
theorem handlePutBatch_atomic (Y : Yikv) (schema : Schema) (acquire : String → Option Schema)
    (tableName : Option String) (rows : List (Option Row)) (hrows : rows ≠ [])
    (idx : Y.Contents) :
    ((∀ p ∈ putEach Y acquire tableName rows, (Prog.run (Y.exec schema) p idx).1 = .ok ()) →
      Prog.run (Y.exec schema) (handlePutBatch Y acquire ⟨some rows, tableName⟩) idx =
        (.ok (), serial (Y.exec schema) (putEach Y acquire tableName rows) idx)) ∧
    ((∃ p ∈ putEach Y acquire tableName rows, (Prog.run (Y.exec schema) p idx).1 ≠ .ok ()) →
      ∃ stop, Prog.run (Y.exec schema) (handlePutBatch Y acquire ⟨some rows, tableName⟩) idx =
        (.error stop, idx)) := by
  have hmem : ∀ row ∈ rows, handlePut Y acquire ⟨row, tableName⟩ ∈
      putEach Y acquire tableName rows := fun row hrow => List.mem_map.mpr ⟨row, hrow, rfl⟩
  constructor
  · intro hall
    obtain ⟨first, hfirst⟩ := List.exists_mem_of_ne_nil rows hrows
    obtain ⟨slot, -, hslot, -⟩ := (put_accepted_iff idx).mp (hall _ (hmem first hfirst))
    have heach : ∀ row ∈ rows, ∃ doc, Takes Y slot row doc := fun row hrow => by
      obtain ⟨slot', doc, hslot', htakes⟩ := (put_accepted_iff idx).mp (hall _ (hmem row hrow))
      obtain rfl := Except.ok.inj (hslot.symm.trans hslot')
      exact ⟨doc, htakes⟩
    obtain ⟨docs, htakes⟩ := forall₂_takes heach
    rw [run_handlePutBatch hslot hrows htakes, serial_putEach hslot htakes]
  · rintro ⟨p, hp, hno⟩
    obtain ⟨row, hrow, rfl⟩ := List.mem_map.mp hp
    refine run_handlePutBatch_refused (fun slot hslot rows' hsame _ => ?_) idx
    obtain rfl := Option.some.inj hsame
    refine ⟨row, hrow, fun doc htakes => ?_⟩
    exact hno ((put_accepted_iff idx).mpr ⟨slot, doc, hslot, htakes⟩)

/-- The table of the handlers' own tests, less its text fields. -/
def usersSchema : Schema where
  fields := [⟨"user_id", 1, .int64, false⟩, ⟨"age", 2, .int32, false⟩]
  pk := "user_id"
  names := by decide
  ids := by decide

def userRow (id : Int64) (age : Int32) : Row where
  fields := some [some { fieldId := 1, vtype := .i64, i64 := id },
    some { fieldId := 2, vtype := .i32, i32 := age }]

/-- One user twice: the second row wins. -/
theorem sameUser_atomic :
    let rows := [some (userRow 7 30), some (userRow 7 31)]
    let served := fun _ => some usersSchema
    Prog.run (Yikv.plain.exec usersSchema)
        (handlePutBatch .plain served ⟨some rows, some "users"⟩) (fun _ => none) =
      (.ok (), serial (Yikv.plain.exec usersSchema)
        (putEach .plain served (some "users") rows) fun _ => none) := by
  intro rows served
  refine (handlePutBatch_atomic .plain usersSchema served (some "users") rows
    (List.cons_ne_nil _ _) fun _ => none).1 fun p hp => ?_
  rcases List.mem_cons.mp hp with rfl | hp
  · rfl
  · obtain rfl := List.mem_singleton.mp hp
    rfl

end YikvServer.Db
