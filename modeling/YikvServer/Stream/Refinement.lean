import YikvServer.Stream.Merge
import YikvServer.Theory.Fallible

/-!
# Stream operations refine the merge semantics

A whole call of `ApplyStreamJsonObject` against the row it names. A call that ends
early leaves the index as it was, and no call touches another row.
-/
namespace YikvServer.Stream

open YikvServer.Theory YikvServer.Index

/-- One call, run alone: its outcome and the contents after it. -/
def applied (N : Nlohmann) (Y : Yikv) (schema : Schema) (obj : JsonObject) (idx : Y.Contents) :
    Except Stop Unit × Y.Contents :=
  (applyStreamJsonObject N Y schema obj).run (Y.exec schema) idx

def defaultRow (schema : Schema) : Yikv.Row schema := fun fd => fd.1.cell.default

/-- The row of `k` before the call, or the default one. -/
def rowOrDefault (Y : Yikv) (schema : Schema) (idx : Y.Contents) (k : String) : Yikv.Row schema :=
  ((idx k).map (Y.row schema)).getD (defaultRow schema)

section Spec
variable (reserved : List String) (N : Nlohmann) (Y : Yikv) (schema : Schema) (obj : JsonObject)
  (idx : Y.Contents)

/-- The call stores under `k` the merge of `base` with the object, and ends early
exactly when some member cannot be merged. -/
def Stores (k : String) (base : Yikv.Row schema) : Prop :=
  (∀ new, Merges N reserved obj base new → (applied N Y schema obj idx).1 = .ok () ∧
    ∃ doc, (applied N Y schema obj idx).2 = Function.update idx k (some doc) ∧
      Y.row schema doc = new) ∧
  ((∀ new, ¬ Merges N reserved obj base new) → ∃ stop, (applied N Y schema obj idx).1 = .error stop)

/-- The documented behaviour of one call. -/
structure Refines : Prop where
  delete : ∀ k, extractPkString N schema obj = .ok k → obj.operation = "delete" →
    applied N Y schema obj idx = (.ok (), Y.delete idx k)
  insertPresent : ∀ k, extractPkString N schema obj = .ok k → obj.operation = "insert" →
    idx k ≠ none → (applied N Y schema obj idx).2 = idx
  insertAbsent : ∀ k, extractPkString N schema obj = .ok k → obj.operation = "insert" →
    idx k = none → Stores reserved N Y schema obj idx k (defaultRow schema)
  upsert : ∀ k, extractPkString N schema obj = .ok k →
    (obj.operation = "upsert" ∨ obj.operation = "") →
    Stores reserved N Y schema obj idx k (rowOrDefault Y schema idx k)
  failed : ∀ stop, (applied N Y schema obj idx).1 = .error stop →
    (applied N Y schema obj idx).2 = idx
  others : ∀ k, extractPkString N schema obj ≠ .ok k → (applied N Y schema obj idx).2 k = idx k

end Spec

variable {N : Nlohmann} {Y : Yikv} {schema : Schema} {obj : JsonObject} {idx : Y.Contents}
  {doc : Y.Doc} {k : String} {stop : Stop}

theorem opOf_of {op : String} (h : obj.operation = op) : opOf N obj = .ok op :=
  (opOf_eq N obj).trans (congrArg Except.ok h)

theorem throwing_eq_ok {α : Type} {x : Except JsonException α} {a : α} :
    throwing x = .ok a ↔ x = .ok a := by
  cases x <;> simp [throwing]

/-- The extracted pk is the rendering of the converted pk member; an array member
yields none. -/
theorem extractPk_ok (h : extractPkString N schema obj = .ok k) :
    ∃ fd pv, schema.findField schema.pk = some fd ∧ obj.find fd.name = some pv ∧
      pv.isNull = false ∧ (∀ items, pv ≠ .array items) ∧
      (fd.isArray = false → ∀ doc : Y.Doc, getScalar N fd.type pv =
        .ok (Y.get doc fd.fieldId (.scalar fd.type.elem)) →
        renderPk fd (Y.get doc fd.fieldId) = some k) := by
  unfold extractPkString at h
  cases hfd : schema.findField schema.pk with
  | none => rw [hfd] at h; cases h
  | some fd =>
    rw [hfd] at h
    dsimp only at h
    cases hpv : obj.find fd.name with
    | none => rw [hpv] at h; cases h
    | some pv =>
      rw [hpv] at h
      dsimp only at h
      by_cases hnull : pv.isNull = true
      · rw [if_pos hnull] at h; cases h
      rw [if_neg hnull] at h
      obtain ⟨name, fid, type, isArray⟩ := fd
      -- Each supported type reads the pk member with one conversion.
      have hone : ∀ (e : Elem) (text : e.Val → String),
          throwing ((N.get e pv).map text) = .ok k → ∃ v, N.get e pv = .ok v ∧ text v = k := by
        intro e text he
        exact map_eq_ok.mp (throwing_eq_ok.mp he)
      refine ⟨_, pv, rfl, hpv, by simpa using hnull, ?_, ?_⟩
      · rintro items rfl
        cases type
        case int32 => obtain ⟨v, hv, -⟩ := hone .i32 _ h; exact N.get_array _ _ _ hv
        case int64 => obtain ⟨v, hv, -⟩ := hone .i64 _ h; exact N.get_array _ _ _ hv
        case string => exact N.get_array _ _ _ (throwing_eq_ok.mp h)
        case bytes => exact N.get_array _ _ _ (throwing_eq_ok.mp h)
        all_goals cases h
      · rintro rfl doc hdoc
        cases type
        case int32 =>
          obtain ⟨v, hv, rfl⟩ := hone .i32 _ h
          obtain rfl := Except.ok.inj (hv.symm.trans hdoc)
          rfl
        case int64 =>
          obtain ⟨v, hv, rfl⟩ := hone .i64 _ h
          obtain rfl := Except.ok.inj (hv.symm.trans hdoc)
          rfl
        case string =>
          exact congrArg some (Except.ok.inj (hdoc.symm.trans (throwing_eq_ok.mp h)))
        case bytes =>
          exact congrArg some (Except.ok.inj (hdoc.symm.trans (throwing_eq_ok.mp h)))
        all_goals cases h

/-- A merged document renders its pk as the extracted key. -/
theorem render_merged (hpk : schema.pk ∉ metaFields)
    (h : extractPkString N schema obj = .ok k) {old : Yikv.Row schema}
    (hm : Merges N metaFields obj old (Y.row schema doc)) :
    ∃ fd, schema.findField schema.pk = some fd ∧ renderPk fd (Y.get doc fd.fieldId) = some k := by
  obtain ⟨fd, pv, hfd, hpv, hnull, harray, hrender⟩ := extractPk_ok (Y := Y) h
  refine ⟨fd, hfd, ?_⟩
  obtain ⟨hmem, hname⟩ := Schema.findField_eq_some.mp hfd
  have hfield := hm ⟨fd, hmem⟩
  have hfound : member metaFields obj.items fd.name = some pv := by
    rw [member, if_neg (hname ▸ hpk)]
    exact hpv
  dsimp only at hfield
  rw [hfound] at hfield
  obtain ⟨name, fid, type, isArray⟩ := fd
  simp only [mergedField, hnull] at hfield
  cases isArray with
  | false =>
    refine hrender rfl doc ?_
    change (getScalar N type pv).toOption = some (Y.get doc fid (.scalar type.elem)) at hfield
    cases hv : getScalar N type pv with
    | error x => rw [hv] at hfield; cases hfield
    | ok v =>
      rw [hv] at hfield
      exact congrArg Except.ok (Option.some.inj hfield)
  | true =>
    -- An array pk is never merged: its member is not an array.
    exfalso
    cases pv with
    | array items => exact harray items rfl
    | _ => cases type <;> cases hfield

/-- A document with the object merged in is filed under the extracted pk. -/
theorem key_merged (hpk : schema.pk ∉ metaFields)
    (h : extractPkString N schema obj = .ok k) {old : Yikv.Row schema}
    (hm : Merges N metaFields obj old (Y.row schema doc)) : Y.key schema doc = k := by
  obtain ⟨fd, hfd, hrender⟩ := render_merged hpk h hm
  exact Y.key_eq schema doc fd k hfd hrender

/-! ## The three operations -/

/-- The store's answer to a merge of `base`: refused, or put under its own key. -/
theorem run_applyInsert (h : extractPkString N schema obj = .ok k) :
    (applyInsert N Y schema obj).run (Y.exec schema) idx =
      match idx k with
      | some _ => (.error (.refused "INSERT for existing pk (use UPSERT)"), idx)
      | none =>
        match mergeJsonIntoDoc N Y schema Y.newDoc obj with
        | .error e => (.error e, idx)
        | .ok doc => (.ok (), Y.put' schema idx doc) := by
  unfold applyInsert
  rw [h]
  simp only [Prog.lift_ok, Prog.pure_bind', Prog.perform_bind, Prog.run_step, Yikv.exec]
  cases idx k with
  | some old => rfl
  | none =>
    dsimp only
    cases mergeJsonIntoDoc N Y schema Y.newDoc obj <;> rfl

theorem run_applyUpsertMerge (h : extractPkString N schema obj = .ok k) :
    (applyUpsertMerge N Y schema obj).run (Y.exec schema) idx =
      match mergeJsonIntoDoc N Y schema (baseDoc Y schema (idx k)) obj with
      | .error e => (.error e, idx)
      | .ok doc => (.ok (), Y.upsert schema idx doc) := by
  unfold applyUpsertMerge
  rw [h]
  simp only [Prog.lift_ok, Prog.pure_bind', Prog.perform_bind, Prog.run_step, Yikv.exec]
  cases mergeJsonIntoDoc N Y schema _ obj <;> rfl

theorem run_applyDelete (h : extractPkString N schema obj = .ok k) :
    (applyDelete N Y schema obj).run (Y.exec schema) idx = (.ok (), Y.delete idx k) := by
  unfold applyDelete
  cases hfd : schema.findField schema.pk with
  | none => simp [extractPkString, hfd] at h
  | some fd =>
    dsimp only
    cases hpv : obj.find fd.name with
    | none => simp [extractPkString, hfd, hpv] at h
    | some pv =>
      rw [h]
      rfl

/-- Without a pk no operation reaches the index. -/
theorem run_noPk (Y : Yikv) (h : extractPkString N schema obj = .error stop) :
    ∃ stop', ∀ idx, applied N Y schema obj idx = (.error stop', idx) := by
  unfold applied applyStreamJsonObject
  cases opOf N obj with
  | error e => exact ⟨e, fun _ => rfl⟩
  | ok op =>
    simp only [Prog.lift_ok, Prog.pure_bind']
    split
    · unfold applyDelete
      split
      · exact ⟨_, fun _ => rfl⟩
      · split
        · exact ⟨_, fun _ => rfl⟩
        · rw [h]; exact ⟨_, fun _ => rfl⟩
    · split
      · unfold applyInsert
        rw [h]
        exact ⟨_, fun _ => rfl⟩
      · split
        · unfold applyUpsertMerge
          rw [h]
          exact ⟨_, fun _ => rfl⟩
        · exact ⟨_, fun _ => rfl⟩

theorem applied_delete (hop : opOf N obj = .ok "delete") :
    applied N Y schema obj idx = (applyDelete N Y schema obj).run (Y.exec schema) idx := by
  unfold applied applyStreamJsonObject
  rw [hop]
  rfl

theorem applied_insert (hop : opOf N obj = .ok "insert") :
    applied N Y schema obj idx = (applyInsert N Y schema obj).run (Y.exec schema) idx := by
  unfold applied applyStreamJsonObject
  rw [hop]
  rfl

theorem applied_upsert (hop : opOf N obj = .ok "upsert" ∨ opOf N obj = .ok "") :
    applied N Y schema obj idx = (applyUpsertMerge N Y schema obj).run (Y.exec schema) idx := by
  unfold applied applyStreamJsonObject
  rcases hop with hop | hop
  · rw [hop]; rfl
  · rw [hop]; rfl

theorem applied_unknown (Y : Yikv) (schema : Schema) {e : Except Stop String}
    (hop : opOf N obj = e) (hd : e ≠ .ok "delete") (hi : e ≠ .ok "insert")
    (hu : e ≠ .ok "upsert") (hm : e ≠ .ok "") :
    ∃ stop, ∀ idx, applied N Y schema obj idx = (.error stop, idx) := by
  unfold applied applyStreamJsonObject
  rw [hop]
  cases e with
  | error s => exact ⟨s, fun _ => rfl⟩
  | ok op =>
    have h1 : op ≠ "delete" := fun he => hd (he ▸ rfl)
    have h2 : op ≠ "insert" := fun he => hi (he ▸ rfl)
    have h3 : op ≠ "upsert" := fun he => hu (he ▸ rfl)
    have h4 : op ≠ "" := fun he => hm (he ▸ rfl)
    simp only [Prog.lift_ok, Prog.pure_bind', h1, h2, h3, h4, if_false, or_self]
    exact ⟨_, fun _ => rfl⟩

/-- What a call can do to the index: nothing, or one change of the row it names. -/
theorem applied_cases (idx : Y.Contents) (hpk : schema.pk ∉ metaFields) :
    (∃ stop, applied N Y schema obj idx = (.error stop, idx)) ∨
    ∃ k row, extractPkString N schema obj = .ok k ∧
      applied N Y schema obj idx = (.ok (), Function.update idx k row) := by
  cases hk : extractPkString N schema obj with
  | error e => exact Or.inl ((run_noPk Y hk).imp fun _ h => h idx)
  | ok k =>
    by_cases hd : opOf N obj = .ok "delete"
    · exact Or.inr ⟨k, none, rfl, by rw [applied_delete hd, run_applyDelete hk]; rfl⟩
    by_cases hi : opOf N obj = .ok "insert"
    · rw [applied_insert hi, run_applyInsert hk]
      cases hrow : idx k with
      | some old => exact Or.inl ⟨_, rfl⟩
      | none =>
        dsimp only
        cases hm : mergeJsonIntoDoc N Y schema Y.newDoc obj with
        | error e => exact Or.inl ⟨_, rfl⟩
        | ok doc =>
          have hkey := key_merged hpk hk (mergeJson_ok hm)
          refine Or.inr ⟨k, some doc, rfl, ?_⟩
          dsimp only
          rw [Yikv.put'_absent (by rw [hkey, hrow]), Yikv.upsert, hkey]
    by_cases hu : opOf N obj = .ok "upsert" ∨ opOf N obj = .ok ""
    · rw [applied_upsert hu, run_applyUpsertMerge hk]
      cases hm : mergeJsonIntoDoc N Y schema _ obj with
      | error e => exact Or.inl ⟨_, rfl⟩
      | ok doc =>
        have hkey := key_merged hpk hk (mergeJson_ok hm)
        refine Or.inr ⟨k, some doc, rfl, ?_⟩
        dsimp only
        rw [Yikv.upsert, hkey]
    · exact Or.inl ((applied_unknown Y schema rfl hd hi (fun h => hu (Or.inl h))
        fun h => hu (Or.inr h)).imp fun _ h => h idx)

/-- A merge that goes through is stored; one that does not ends the call. -/
theorem stores_of_merge (hpk : schema.pk ∉ metaFields)
    (hk : extractPkString N schema obj = .ok k) {base : Y.Doc}
    (hrun : applied N Y schema obj idx =
      match mergeJsonIntoDoc N Y schema base obj with
      | .error e => (.error e, idx)
      | .ok doc => (.ok (), Y.upsert schema idx doc)) :
    Stores metaFields N Y schema obj idx k (Y.row schema base) := by
  cases hm : mergeJsonIntoDoc N Y schema base obj with
  | error e =>
    rw [hm] at hrun
    refine ⟨fun new hnew => absurd hnew (mergeJson_error hm _ _), fun _ => ⟨e, ?_⟩⟩
    rw [hrun]
  | ok doc =>
    rw [hm] at hrun
    dsimp only at hrun
    have hrow := mergeJson_ok hm
    refine ⟨fun new hnew => ⟨by rw [hrun], doc, ?_, ?_⟩, fun hno => absurd hrow (hno _)⟩
    · rw [hrun, Yikv.upsert, key_merged hpk hk hrow]
    · funext fd
      exact Option.some.inj ((hrow fd).symm.trans (hnew fd))

/-- Every call refines the merge semantics in which `_op` and `_ts` are never data. -/
theorem applyStreamJsonObject_refines (N : Nlohmann) (Y : Yikv) (schema : Schema)
    (harr : ArraysSupported schema) (hpk : schema.pk ∉ metaFields) (obj : JsonObject)
    (idx : Y.Contents) : Refines metaFields N Y schema obj idx where
  delete k hk hop := by rw [applied_delete (opOf_of hop), run_applyDelete hk]
  insertPresent k hk hop hrow := by
    rw [applied_insert (opOf_of hop), run_applyInsert hk]
    cases hidx : idx k with
    | none => exact absurd hidx hrow
    | some old => rfl
  insertAbsent k hk hop hrow := by
    have hbase : defaultRow schema = Y.row schema Y.newDoc := row_newDoc.symm
    rw [hbase]
    refine stores_of_merge hpk hk ?_
    rw [applied_insert (opOf_of hop), run_applyInsert hk, hrow]
    dsimp only
    cases hm : mergeJsonIntoDoc N Y schema Y.newDoc obj with
    | error e => rfl
    | ok doc =>
      have hkey := key_merged hpk hk (mergeJson_ok hm)
      dsimp only
      rw [Yikv.put'_absent (by rw [hkey, hrow])]
  upsert k hk hop := by
    have hbase : rowOrDefault Y schema idx k = Y.row schema (baseDoc Y schema (idx k)) := by
      funext fd
      rw [row_baseDoc, carried_eq (harr fd.1 fd.2)]
      rfl
    rw [hbase]
    have hnamed : opOf N obj = .ok "upsert" ∨ opOf N obj = .ok "" := hop.imp opOf_of opOf_of
    exact stores_of_merge hpk hk (by rw [applied_upsert hnamed, run_applyUpsertMerge hk])
  failed stop h := by
    rcases applied_cases idx hpk with ⟨s, hs'⟩ | ⟨k, row, -, hok⟩
    · rw [hs']
    · rw [hok] at h
      cases h
  others k hk := by
    rcases applied_cases idx hpk with ⟨s, hs'⟩ | ⟨k', row, hk', hok⟩
    · rw [hs']
    · have hne : k ≠ k' := fun he => hk (he ▸ hk')
      rw [hok]
      exact Function.update_of_ne hne _ _

/-- A user table: a scalar pk, a scalar field and an array. -/
def userSchema : Schema where
  fields := [⟨"user_id", 1, .int64, false⟩, ⟨"age", 2, .int32, false⟩, ⟨"tags", 4, .string, true⟩]
  pk := "user_id"
  names := by decide
  ids := by decide

def userPatch : JsonObject := .ofMembers
  [("user_id", .integer 7), ("age", .null), ("tags", .array [.string "vip"])]

theorem userPatch_refines :
    ArraysSupported userSchema ∧ userSchema.pk ∉ metaFields ∧
      Refines metaFields (plainJson []) .plain userSchema userPatch fun _ => none :=
  ⟨by decide, by decide, applyStreamJsonObject_refines _ _ _ (by decide) (by decide) _ _⟩

example : ((applied (plainJson []) .plain userSchema userPatch fun _ => none).2 "7").map
    (fun doc => doc 4 (.array .str)) = some ["vip"] := by decide

/-- A table with a data column called `_ts`. -/
def stampedSchema : Schema where
  fields := [⟨"id", 1, .int64, false⟩, ⟨"_ts", 2, .int64, false⟩]
  pk := "id"
  names := by decide
  ids := by decide

def stampedObject : JsonObject := .ofMembers [("id", .integer 1), ("_ts", .integer 5)]

/-- Without reserved names the merge semantics fails: the member `_ts` is dropped. -/
theorem metaField_not_merged :
    ArraysSupported stampedSchema ∧ stampedSchema.pk ∉ metaFields ∧
      ¬ Refines [] (plainJson []) .plain stampedSchema stampedObject fun _ => none := by
  refine ⟨by decide, by decide, fun h => ?_⟩
  have hstores := (h.upsert "1" (by decide) (Or.inr (by decide))).1
  let asked : Yikv.Row stampedSchema := fun fd =>
    (mergedField (plainJson []) (member [] stampedObject.items fd.1.name) fd.1
      fd.1.cell.default).getD fd.1.cell.default
  have hasked : Merges (plainJson []) [] stampedObject
      (rowOrDefault .plain stampedSchema (fun _ => none) "1") asked := by
    rintro ⟨fd, hfd⟩
    rcases List.mem_cons.mp hfd with rfl | hfd
    · rfl
    · obtain rfl := List.mem_singleton.mp hfd
      rfl
  obtain ⟨-, doc, hdoc, hrow⟩ := hstores asked hasked
  have hstamp : doc 2 (.scalar .i64) = (5 : Int64) :=
    congrFun hrow ⟨⟨"_ts", 2, .int64, false⟩, by decide⟩
  have hread : ((applied (plainJson []) .plain stampedSchema stampedObject fun _ => none).2 "1").map
      (fun doc => doc 2 (.scalar .i64)) = some (0 : Int64) := by decide
  rw [hdoc, Function.update_self, Option.map_some, hstamp] at hread
  exact absurd hread (by decide)

end YikvServer.Stream
