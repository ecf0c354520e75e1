import YikvServer.Stream.Refinement

/-!
# The row looked up and the row written

`ApplyInsert` and `ApplyUpsertMerge` look up the key that `ExtractPkString` reads off the
object, and store a document whose pk field `MergeJsonIntoDoc` has filled. The two read
the same member, except that the merge passes over `_op` and `_ts`: a pk of such a name
keeps what the document started with.
-/
namespace YikvServer.Stream

open YikvServer.Theory YikvServer.Index

/-- The two calls that store a document. -/
inductive Writer where
  | insert
  | upsert
  deriving DecidableEq

section Spec
variable (N : Nlohmann) (Y : Yikv) (schema : Schema) (obj : JsonObject)

def Writer.prog : Writer → Apply Y
  | .insert => applyInsert N Y schema obj
  | .upsert => applyUpsertMerge N Y schema obj

/-- The index call that hands the document over. -/
def Writer.op {Y : Yikv} : Writer → Y.Doc → Y.KvOp
  | .insert, doc => .put doc
  | .upsert, doc => .upsert doc

/-- The call looks up the extracted key and no other, and then stores a document whose pk
renders as that key, so that it is filed there. -/
def WritesLookedUp (w : Writer) (idx : Y.Contents) : Prop :=
  ∃ k doc fd, extractPkString N schema obj = .ok k ∧ schema.findField schema.pk = some fd ∧
    Prog.trace (Y.exec schema) (w.prog N Y schema obj) idx = [.get k, w.op doc] ∧
    renderPk fd (Y.get doc fd.fieldId) = some k ∧ Y.key schema doc = k

/-- The stored row that an upsert finds, or a new document. -/
def Writer.start {Y : Yikv} : Writer → Option Y.Doc → Y.Doc
  | .upsert, some old => old
  | _, _ => Y.newDoc

/-- What the document starts with carries the pk that the object names. -/
def StartsWithPk (w : Writer) (idx : Y.Contents) : Prop :=
  ∃ k fd, extractPkString N schema obj = .ok k ∧ schema.findField schema.pk = some fd ∧
    renderPk fd (Y.get (w.start (idx k)) fd.fieldId) = some k

end Spec

variable {N : Nlohmann} {Y : Yikv} {schema : Schema} {obj : JsonObject} {idx : Y.Contents}
  {doc : Y.Doc} {k : String} {w : Writer} {fd : FieldDef}

/-- The document that the object is merged into. -/
def Writer.base (schema : Schema) : Writer → Option Y.Doc → Y.Doc
  | .upsert, found => baseDoc Y schema found
  | .insert, _ => Y.newDoc

/-- A call that succeeds has extracted a key and merged the object. -/
theorem Writer.succeeded (hok : ((w.prog N Y schema obj).run (Y.exec schema) idx).1 = .ok ()) :
    ∃ k doc, extractPkString N schema obj = .ok k ∧
      mergeJsonIntoDoc N Y schema (w.base schema (idx k)) obj = .ok doc ∧
      Prog.trace (Y.exec schema) (w.prog N Y schema obj) idx = [.get k, w.op doc] := by
  cases hk : extractPkString N schema obj with
  | error e =>
    exfalso
    cases w with
    | insert => simp [Writer.prog, applyInsert, hk, Prog.lift] at hok
    | upsert => simp [Writer.prog, applyUpsertMerge, hk, Prog.lift] at hok
  | ok k =>
    refine ⟨k, ?_⟩
    cases w with
    | insert =>
      simp only [Writer.prog, run_applyInsert hk] at hok
      cases hrow : idx k with
      | some old => simp [hrow] at hok
      | none =>
        simp only [hrow] at hok
        cases hm : mergeJsonIntoDoc N Y schema Y.newDoc obj with
        | error e => simp [hm] at hok
        | ok doc =>
          refine ⟨doc, rfl, hm, ?_⟩
          simp [Writer.prog, applyInsert, hk, Yikv.exec, hrow, hm]
          rfl
    | upsert =>
      simp only [Writer.prog, run_applyUpsertMerge hk] at hok
      cases hm : mergeJsonIntoDoc N Y schema (baseDoc Y schema (idx k)) obj with
      | error e => simp [hm] at hok
      | ok doc =>
        refine ⟨doc, rfl, hm, ?_⟩
        simp [Writer.prog, applyUpsertMerge, hk, Yikv.exec, hm]
        rfl

/-- The rendering of a scalar pk depends on its own cell only. -/
theorem renderPk_congr {get get' : (c : Cell) → c.Val} (hscalar : fd.isArray = false)
    (h : get fd.cell = get' fd.cell) : renderPk fd get = renderPk fd get' := by
  obtain ⟨name, fid, type, arr⟩ := fd
  obtain rfl : arr = false := hscalar
  have hcell : get (.scalar type.elem) = get' (.scalar type.elem) := h
  unfold renderPk
  cases type
  case float32 => rfl
  case float64 => rfl
  all_goals simp only [DataType.elem] at hcell
  all_goals simp [hcell]

/-- A scalar field of the document merged into is that of the row it starts from. -/
theorem Writer.get_base (hfd : fd ∈ schema.fields) (hscalar : fd.isArray = false)
    (found : Option Y.Doc) : Y.get (w.base schema found) fd.fieldId fd.cell =
      Y.get (w.start found) fd.fieldId fd.cell := by
  cases w with
  | insert => rfl
  | upsert =>
    cases found with
    | none => rfl
    | some old =>
      have hrow := row_baseDoc (some old) ⟨fd, hfd⟩
      rw [carried_eq fun harr => absurd harr (by simp [hscalar])] at hrow
      exact hrow

/-- A pk of a reserved name keeps what the document started with. -/
theorem render_reserved (hfd : schema.findField schema.pk = some fd) (hscalar : fd.isArray = false)
    (hpk : schema.pk ∈ metaFields) {found : Option Y.Doc}
    (hm : mergeJsonIntoDoc N Y schema (w.base schema found) obj = .ok doc) :
    renderPk fd (Y.get doc fd.fieldId) = renderPk fd (Y.get (w.start found) fd.fieldId) := by
  obtain ⟨hmem, hname⟩ := Schema.findField_eq_some.mp hfd
  have hnone : member metaFields obj.items fd.name = none := if_pos (hname ▸ hpk)
  have hfield := mergeJson_ok hm ⟨fd, hmem⟩
  dsimp only at hfield
  rw [hnone] at hfield
  refine renderPk_congr hscalar ((Option.some.inj hfield).symm.trans ?_)
  exact Writer.get_base hmem hscalar found

/-- On a table with a scalar pk, a call that succeeds writes the row that it has looked up
exactly when the pk's name is not reserved or the document has carried the pk before. -/
theorem writesLookedUp_iff (N : Nlohmann) (Y : Yikv) (schema : Schema)
    (hscalar : ∀ fd, schema.findField schema.pk = some fd → fd.isArray = false)
    (w : Writer) (obj : JsonObject) (idx : Y.Contents)
    (hok : ((w.prog N Y schema obj).run (Y.exec schema) idx).1 = .ok ()) :
    WritesLookedUp N Y schema obj w idx ↔
      schema.pk ∉ metaFields ∨ StartsWithPk N Y schema obj w idx := by
  obtain ⟨k, doc, hk, hm, htrace⟩ := Writer.succeeded hok
  constructor
  · rintro ⟨k', doc', fd, hk', hfd, htrace', hrender, -⟩
    obtain rfl : k = k' := Except.ok.inj (hk.symm.trans hk')
    obtain rfl : doc = doc' := by
      have hops := List.tail_eq_of_cons_eq (htrace.symm.trans htrace')
      cases w <;> simpa [Writer.op] using hops
    rw [or_iff_not_imp_left, not_not]
    intro hpk
    exact ⟨k, fd, hk, hfd, render_reserved hfd (hscalar fd hfd) hpk hm ▸ hrender⟩
  · intro hcond
    have hrender : ∃ fd, schema.findField schema.pk = some fd ∧
        renderPk fd (Y.get doc fd.fieldId) = some k := by
      by_cases hpk : schema.pk ∈ metaFields
      · obtain ⟨k', fd, hk', hfd, hstart⟩ := hcond.resolve_left (not_not.mpr hpk)
        obtain rfl : k = k' := Except.ok.inj (hk.symm.trans hk')
        exact ⟨fd, hfd, (render_reserved hfd (hscalar fd hfd) hpk hm).trans hstart⟩
      · exact render_merged hpk hk (mergeJson_ok hm)
    obtain ⟨fd, hfd, hrender⟩ := hrender
    exact ⟨k, doc, fd, hk, hfd, htrace, hrender, Y.key_eq schema doc fd k hfd hrender⟩

/-- A user is upserted into an empty table: the key is looked up and written. -/
theorem userPatch_writesLookedUp :
    WritesLookedUp (plainJson []) .plain userSchema userPatch .upsert (fun _ => none) ↔
      userSchema.pk ∉ metaFields ∨
        StartsWithPk (plainJson []) .plain userSchema userPatch .upsert fun _ => none :=
  writesLookedUp_iff _ _ _ (fun fd hfd => by
    obtain rfl : (⟨"user_id", 1, .int64, false⟩ : FieldDef) = fd := Option.some.inj hfd
    rfl) _ _ _ (by decide)

/-- A table keyed by its time stamps. -/
def eventSchema : Schema where
  fields := [⟨"_ts", 1, .int64, false⟩, ⟨"name", 2, .string, false⟩]
  pk := "_ts"
  names := by decide
  ids := by decide

def eventObject : JsonObject := .ofMembers [("_ts", .integer 5), ("name", .string "login")]

/-- The insertion looks row 5 up, succeeds, and writes row 0. -/
theorem eventObject_misfiled :
    ((Writer.insert.prog (plainJson []) .plain eventSchema eventObject).run
        (Yikv.plain.exec eventSchema) fun _ => none).1 = .ok () ∧
      ¬ WritesLookedUp (plainJson []) .plain eventSchema eventObject .insert fun _ => none := by
  have hok : ((Writer.insert.prog (plainJson []) .plain eventSchema eventObject).run
      (Yikv.plain.exec eventSchema) fun _ => none).1 = .ok () := by decide
  refine ⟨hok, ?_⟩
  rintro ⟨k, doc, fd, hk, hfd, htrace, hrender, -⟩
  obtain ⟨_, doc', _, hm, htrace'⟩ := Writer.succeeded hok
  obtain rfl : doc = doc' := by
    have hops := List.tail_eq_of_cons_eq (htrace.symm.trans htrace')
    simpa [Writer.op] using hops
  obtain rfl : (⟨"_ts", 1, .int64, false⟩ : FieldDef) = fd := Option.some.inj hfd
  obtain rfl : "5" = k := Except.ok.inj hk
  rw [render_reserved hfd rfl (by decide) hm] at hrender
  exact absurd hrender (by decide)

end YikvServer.Stream
