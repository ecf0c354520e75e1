import YikvServer.Db.PutBatch
import YikvServer.Db.RowDoc
import YikvServer.Db.TwoWriters

/-!
# Rows without a primary key

The put handlers look at the key string of the finished document, not at the row. A row
that omits its pk is refused when the default of the pk renders as the empty string,
and filed under "0" when it renders as a number.
-/
namespace YikvServer.Db

open YikvServer.Theory YikvServer.Index YikvServer.Stream

/-- The row carries a value for the field of the pk. -/
def NamesPk (schema : Schema) (row : Row) : Prop :=
  ∃ fd, schema.findField schema.pk = some fd ∧ fd.fieldId ∈ row.ids

/-- The pk types whose default renders as "0". -/
def numericKey : DataType → Bool
  | .bool | .int32 | .int64 => true
  | _ => false

def Request.rows : Request → List (Option Row)
  | .put req => [req.row]
  | .putBatch req => req.rows.getD []

def Request.tableName : Request → Option String
  | .put req => req.tableName
  | .putBatch req => req.tableName

/-- What the request does to the table. -/
def Request.run (Y : Yikv) (schema : Schema) (table : String) (req : Request)
    (idx : Y.Contents) : Except Stop Unit × Y.Contents :=
  Prog.run (Y.exec schema) (req.prog Y schema table) idx

/-- Every row of an accepted request carries its pk; a request with a row that omits it
is refused and changes nothing. -/
def PkExplicit (Y : Yikv) (schema : Schema) (table : String) (req : Request)
    (idx : Y.Contents) : Prop :=
  ((req.run Y schema table idx).1 = .ok () →
    ∀ entry ∈ req.rows, ∃ row, entry = some row ∧ NamesPk schema row) ∧
  ((∃ row, some row ∈ req.rows ∧ ¬ NamesPk schema row) →
    ∃ stop, req.run Y schema table idx = (.error stop, idx))

/-- A row omits its pk, the default of the pk is a number, and nothing else is wrong
with the request. -/
def PkDefaulted (schema : Schema) (table : String) (req : Request) : Prop :=
  (req.tableName = some table ∧ table ≠ "") ∧
  (∃ fd, schema.findField schema.pk = some fd ∧ numericKey fd.type = true) ∧
  (∀ entry ∈ req.rows, ∃ row, entry = some row ∧ ∀ fv ∈ row.values, fv.Valid schema) ∧
  ∃ row, some row ∈ req.rows ∧ ¬ NamesPk schema row

variable {Y : Yikv} {schema slot : Schema} {table : String} {req : Request} {row : Row}
  {fd : FieldDef} {doc : Y.Doc} {idx : Y.Contents}

/-! ## The key of one row -/

theorem toStringInt_ne_empty (v : Int) : toStringInt v ≠ "" := by
  intro h
  have hlen : (toStringInt v).length = 0 := by rw [h]; rfl
  have hpos : 0 < (toStringInt v).length := by
    show 0 < v.repr.length
    rw [Int.repr_eq_if]
    split
    · exact Nat.length_repr_pos
    · rw [String.length_append]
      exact Nat.add_pos_right _ Nat.length_repr_pos
  omega

theorem extractPk_numeric (hfd : schema.findField schema.pk = some fd)
    (hnum : numericKey fd.type = true) (doc : Y.Doc) : extractPkString Y schema doc ≠ "" := by
  unfold extractPkString
  rw [hfd]
  obtain ⟨name, fid, type, arr⟩ := fd
  cases type
  case bool => exact toStringInt_ne_empty _
  case int32 => exact toStringInt_ne_empty _
  case int64 => exact toStringInt_ne_empty _
  all_goals cases hnum

theorem takes_of_numeric (hfd : schema.findField schema.pk = some fd)
    (hnum : numericKey fd.type = true) (hvalid : ∀ fv ∈ row.values, fv.Valid schema) :
    ∃ doc, Takes Y schema (some row) doc := by
  obtain ⟨doc, hdoc⟩ := (applyRowToDoc_isOk Y.newDoc).mpr hvalid
  exact ⟨doc, row, rfl, hdoc, extractPk_numeric hfd hnum doc⟩

/-- A row without its pk is taken only on the strength of a numeric default. -/
theorem numeric_of_takes (htakes : Takes Y schema (some row) doc) (hno : ¬ NamesPk schema row) :
    ∃ fd, schema.findField schema.pk = some fd ∧ numericKey fd.type = true := by
  obtain ⟨row', hrow, hdoc, hkey⟩ := htakes
  obtain rfl := Option.some.inj hrow
  unfold extractPkString at hkey
  cases hfd : schema.findField schema.pk with
  | none => rw [hfd] at hkey; exact absurd rfl hkey
  | some fd =>
    refine ⟨fd, rfl, ?_⟩
    have hid : fd.fieldId ∉ row.ids := fun hmem => hno ⟨fd, hfd, hmem⟩
    have hget : ∀ c, Y.get doc fd.fieldId c = c.default := fun c => by
      rw [get_applyRow_other hdoc hid, Y.get_newDoc]
    obtain ⟨name, fid, type, arr⟩ := fd
    simp only [hfd, hget] at hkey
    cases type
    case bool => rfl
    case int32 => rfl
    case int64 => rfl
    all_goals exact absurd rfl hkey

/-! ## A request -/

theorem acquire_oneTable {tableName : Option String} :
    acquireOrError (oneTable schema table) tableName = .ok slot ↔
      (tableName = some table ∧ table ≠ "") ∧ slot = schema := by
  cases tableName with
  | none => simp [acquireOrError]
  | some name =>
    by_cases hempty : name = ""
    · subst hempty
      simp only [acquireOrError, if_true, reduceCtorEq, Option.some.injEq, false_iff]
      rintro ⟨⟨rfl, hne⟩, -⟩
      exact hne rfl
    · by_cases hname : name = table
      · subst hname
        simp [acquireOrError, oneTable, hempty, eq_comm]
      · simp [acquireOrError, oneTable, hempty, hname]

/-- A request that is not refused unchanged is accepted, and the table takes its rows. -/
theorem Request.run_cases (Y : Yikv) (schema : Schema) (table : String) (req : Request)
    (idx : Y.Contents) :
    ((req.run Y schema table idx).1 = .ok () ∧ (req.tableName = some table ∧ table ≠ "") ∧
      ∀ entry ∈ req.rows, ∃ doc, Takes Y schema entry doc) ∨
    ∃ stop, req.run Y schema table idx = (.error stop, idx) := by
  cases req with
  | put req =>
    by_cases h : ∃ slot doc, acquireOrError (oneTable schema table) req.tableName = .ok slot ∧
        Takes Y slot req.row doc
    · obtain ⟨slot, doc, hslot, htakes⟩ := h
      obtain ⟨htable, rfl⟩ := acquire_oneTable.mp hslot
      refine Or.inl ⟨?_, htable, fun entry hentry => ?_⟩
      · exact congrArg Prod.fst (run_handlePut hslot htakes idx)
      · obtain rfl := List.mem_singleton.mp hentry
        exact ⟨doc, htakes⟩
    · exact Or.inr (run_handlePut_refused
        (fun slot hslot doc htakes => h ⟨slot, doc, hslot, htakes⟩) idx)
  | putBatch req =>
    obtain ⟨entries, tableName⟩ := req
    by_cases h : ∃ slot rows docs, acquireOrError (oneTable schema table) tableName = .ok slot ∧
        entries = some rows ∧ rows ≠ [] ∧ List.Forall₂ (Takes Y slot) rows docs
    · obtain ⟨slot, rows, docs, hslot, rfl, hrows, htakes⟩ := h
      obtain ⟨htable, rfl⟩ := acquire_oneTable.mp hslot
      refine Or.inl ⟨?_, htable, fun entry hentry => takes_of_mem htakes hentry⟩
      exact congrArg Prod.fst (run_handlePutBatch hslot hrows htakes idx)
    · refine Or.inr (run_handlePutBatch_refused (fun slot hslot rows hentries hrows => ?_) idx)
      by_contra hall
      simp only [not_exists, not_and, not_forall, not_not] at hall
      obtain ⟨docs, htakes⟩ := forall₂_takes hall
      exact h ⟨slot, rows, docs, hslot, hentries, hrows, htakes⟩

theorem Request.run_ok (htable : req.tableName = some table ∧ table ≠ "") (hrows : req.rows ≠ [])
    (htakes : ∀ entry ∈ req.rows, ∃ doc, Takes Y schema entry doc) (idx : Y.Contents) :
    (req.run Y schema table idx).1 = .ok () := by
  have hslot : acquireOrError (oneTable schema table) req.tableName = .ok schema :=
    acquire_oneTable.mpr ⟨htable, rfl⟩
  obtain ⟨docs, hdocs⟩ := forall₂_takes htakes
  cases req with
  | put req =>
    obtain ⟨doc, -, hdoc, -, -⟩ := List.forall₂_cons_left_iff.mp hdocs
    exact congrArg Prod.fst (run_handlePut hslot hdoc idx)
  | putBatch req =>
    obtain ⟨_ | rows, tableName⟩ := req
    · exact absurd rfl hrows
    · exact congrArg Prod.fst (run_handlePutBatch hslot hrows hdocs idx)

/-- The put handlers require a pk exactly when none is filled in with a numeric default. -/
theorem pkExplicit_iff (Y : Yikv) (schema : Schema) (table : String) (req : Request)
    (idx : Y.Contents) :
    PkExplicit Y schema table req idx ↔ ¬ PkDefaulted schema table req := by
  constructor
  · rintro ⟨haccepted, -⟩ ⟨htable, ⟨fd, hfd, hnum⟩, hvalid, row, hrow, hno⟩
    have htakes : ∀ entry ∈ req.rows, ∃ doc, Takes Y schema entry doc := fun entry hentry => by
      obtain ⟨row, rfl, hrow⟩ := hvalid entry hentry
      exact takes_of_numeric hfd hnum hrow
    have hok := Request.run_ok htable (List.ne_nil_of_mem hrow) htakes idx
    obtain ⟨row', hsame, hnames⟩ := haccepted hok _ hrow
    obtain rfl := Option.some.inj hsame
    exact hno hnames
  · intro hdefault
    have hnamed : (req.tableName = some table ∧ table ≠ "") →
        (∀ entry ∈ req.rows, ∃ doc, Takes Y schema entry doc) →
        ∀ entry ∈ req.rows, ∃ row, entry = some row ∧ NamesPk schema row := by
      intro htable htakes entry hentry
      obtain ⟨doc, row, rfl, hdoc, hkey⟩ := htakes entry hentry
      refine ⟨row, rfl, ?_⟩
      by_contra hno
      refine hdefault ⟨htable, numeric_of_takes ⟨row, rfl, hdoc, hkey⟩ hno, ?_, row, hentry, hno⟩
      intro entry' hentry'
      obtain ⟨doc', row', rfl, hdoc', -⟩ := htakes entry' hentry'
      exact ⟨row', rfl, (applyRowToDoc_isOk Y.newDoc).mp ⟨doc', hdoc'⟩⟩
    rcases req.run_cases Y schema table idx with ⟨-, htable, htakes⟩ | ⟨stop, hrun⟩
    · refine ⟨fun _ => hnamed htable htakes, ?_⟩
      rintro ⟨row, hrow, hno⟩
      obtain ⟨row', hsame, hnames⟩ := hnamed htable htakes _ hrow
      obtain rfl := Option.some.inj hsame
      exact absurd hnames hno
    · refine ⟨fun hok => ?_, fun _ => ⟨stop, hrun⟩⟩
      rw [hrun] at hok
      cases hok

/-- A row of an age alone. -/
def ageRow (age : Int32) : Row where
  fields := some [some { fieldId := 2, vtype := .i32, i32 := age }]

/-- The table holds user 0, of age 41. -/
def zeroUser : Yikv.plain.Contents :=
  ((Request.put ⟨some (userRow 0 41), some "users"⟩).run .plain usersSchema "users"
    fun _ => none).2

/-- The row without a user id is accepted, over the row of user 0. -/
theorem ageRow_accepted :
    ¬ PkExplicit .plain usersSchema "users" (.put ⟨some (ageRow 30), some "users"⟩) zeroUser := by
  rintro ⟨haccepted, -⟩
  obtain ⟨row, hrow, fd, hfd, hid⟩ := haccepted rfl _ List.mem_cons_self
  obtain rfl := Option.some.inj hrow
  obtain rfl : (⟨"user_id", 1, .int64, false⟩ : FieldDef) = fd := Option.some.inj hfd
  exact absurd hid (by decide)

end YikvServer.Db
