import YikvServer.Stream.Refinement
import YikvServer.Theory.Replay

/-!
# Stream objects as row changes

An object whose arrays bring no elements acts on the visible rows as one change of
the replay library: a deletion, an insertion when absent, or an overlay. The field
values are what the merge semantics asks for; Bool arrays are emptied by the copy.
-/
namespace YikvServer.Stream

open YikvServer.Theory YikvServer.Theory.Replay YikvServer.Index

/-- The rows an index shows. -/
def view (Y : Yikv) (schema : Schema) (idx : Y.Contents) : String → Option (Yikv.Row schema) :=
  fun k => (idx k).map (Y.row schema)

abbrev FieldVal (schema : Schema) (fd : {fd // fd ∈ schema.fields}) : Type := fd.1.cell.Val

section Spec
variable (N : Nlohmann) (schema : Schema) (obj : JsonObject)

/-- The value that a merge without new elements puts in a field. -/
def fieldFrom (found : Option Json) : (fd : FieldDef) → Option fd.cell.Val
  | ⟨_, _, type, false⟩ =>
    match found with
    | none => none
    | some val => if val.isNull then none else (getScalar N type val).toOption
  | ⟨_, _, .bool, true⟩ => some []
  | ⟨_, _, _, true⟩ => none

/-- Every member that names a field can be merged into it. -/
def mergeable : Bool :=
  schema.fields.all fun fd =>
    (mergedField N (member metaFields obj.items fd.name) fd fd.cell.default).isSome

/-- The default row with the object merged in. -/
def insertedRow : Yikv.Row schema := fun fd =>
  (mergedField N (member metaFields obj.items fd.1.name) fd.1 fd.1.cell.default).getD
    fd.1.cell.default

/-- The change a call asks for. -/
def changeOf : Op String (FieldVal schema) :=
  match extractPkString N schema obj, opOf N obj with
  | .ok k, .ok op =>
    if op = "delete" then (k, .delete)
    else if mergeable N schema obj = false then (k, .skip)
    else if op = "insert" then (k, .insert (insertedRow N schema obj))
    else if op = "upsert" ∨ op = "" then
      (k, .upsert fun fd => fieldFrom N (member metaFields obj.items fd.1.name) fd.1)
    else (k, .skip)
  | _, _ => ("", .skip)

/-- A merge that brings no array element. -/
def AppendsNothing : Prop :=
  opOf N obj = .ok "upsert" ∨ opOf N obj = .ok "" → ∀ fd ∈ schema.fields, fd.isArray = true →
    ∀ x xs, member metaFields obj.items fd.name ≠ some (.array (x :: xs))

end Spec

variable {N : Nlohmann} {Y : Yikv} {schema : Schema} {obj : JsonObject} {idx : Y.Contents}
  {doc doc' : Y.Doc} {k : String} {stop : Stop} {found : Option Json} {fd : FieldDef}

theorem isSome_map_eq {α β γ : Type} (x : Option α) (f : α → β) (g : α → γ) :
    (x.map f).isSome = (x.map g).isSome := by
  cases x <;> rfl

theorem mergedField_isSome (old old' : fd.cell.Val) :
    (mergedField N found fd old).isSome = (mergedField N found fd old').isSome := by
  cases found with
  | none => rfl
  | some val =>
    simp only [mergedField]
    split
    · rfl
    · obtain ⟨name, fid, type, _ | _⟩ := fd
      · rfl
      · cases val with
        | array items =>
          cases type with
          | bool => rfl
          | _ => exact isSome_map_eq _ _ _
        | _ => cases type <;> rfl

/-- Merging into a copied field without new elements is an overlay of the old one. -/
theorem mergedField_carried {old new : fd.cell.Val}
    (hempty : fd.isArray = true → ∀ x xs, found ≠ some (.array (x :: xs)))
    (h : mergedField N found fd (carried fd old) = some new) :
    new = (fieldFrom N found fd).getD old := by
  obtain ⟨name, fid, type, _ | _⟩ := fd
  · cases found with
    | none => exact (Option.some.inj h).symm
    | some val =>
      simp only [mergedField] at h
      by_cases hnull : val.isNull = true
      · rw [if_pos hnull] at h
        have hfrom : fieldFrom N (some val) ⟨name, fid, type, false⟩ = none := if_pos hnull
        rw [hfrom]
        exact (Option.some.inj h).symm
      · rw [if_neg hnull] at h
        have hfrom : fieldFrom N (some val) ⟨name, fid, type, false⟩ = some new :=
          (if_neg hnull).trans h
        rw [hfrom]
        rfl
  · cases found with
    | none =>
      have hnew := Option.some.inj h
      cases type <;> exact hnew.symm
    | some val =>
      cases val with
      | null =>
        have hnew : carried ⟨name, fid, type, true⟩ old = new := Option.some.inj h
        cases type <;> exact hnew.symm
      | array items =>
        cases items with
        | cons x xs => exact absurd rfl (hempty rfl x xs)
        | nil =>
          cases type with
          | bool => cases h
          | _ =>
            have hnew := Option.some.inj h
            rw [← hnew]
            exact List.append_nil _
      | _ => cases type <;> cases h

theorem mergeable_of_merges {old new : Yikv.Row schema} (h : Merges N metaFields obj old new) :
    mergeable N schema obj = true := by
  refine List.all_eq_true.mpr fun fd hfd => ?_
  rw [mergedField_isSome _ (old ⟨fd, hfd⟩), h ⟨fd, hfd⟩]
  rfl

/-- The merge of the code goes through exactly on mergeable objects. -/
theorem mergeJson_mergeable (doc : Y.Doc) :
    (∃ doc', mergeJsonIntoDoc N Y schema doc obj = .ok doc') ↔ mergeable N schema obj = true := by
  constructor
  · rintro ⟨doc', h⟩
    exact mergeable_of_merges (mergeJson_ok h)
  · intro h
    cases hm : mergeJsonIntoDoc N Y schema doc obj with
    | ok doc' => exact ⟨doc', rfl⟩
    | error stop =>
      exfalso
      refine mergeJson_error hm (Y.row schema doc) (fun fd => (mergedField N
        (member metaFields obj.items fd.1.name) fd.1 (Y.row schema doc fd)).getD
          (Y.row schema doc fd)) fun fd => ?_
      have hsome := List.all_eq_true.mp h fd.1 fd.2
      rw [mergedField_isSome _ (Y.row schema doc fd)] at hsome
      exact (Option.some_get hsome).symm.trans (congrArg some (Option.get_eq_getD _))

theorem row_of_insert (h : mergeJsonIntoDoc N Y schema Y.newDoc obj = .ok doc) :
    Y.row schema doc = insertedRow N schema obj := by
  funext fd
  have hfd := mergeJson_ok h fd
  rw [row_newDoc] at hfd
  unfold insertedRow
  rw [hfd]
  rfl

theorem view_update (idx : Y.Contents) (k : String) (row : Option Y.Doc) :
    view Y schema (Function.update idx k row) =
      Function.update (view Y schema idx) k (row.map (Y.row schema)) := by
  funext k'
  by_cases h : k' = k
  · subst h
    simp [view]
  · simp [view, h]

theorem applyOp_keep {d : Yikv.Row schema} {store : String → Option (Yikv.Row schema)}
    {op : Op String (FieldVal schema)} (h : op.2.apply d (store op.1) = store op.1) :
    applyOp d store op = store := by
  rw [applyOp, h, Function.update_eq_self]

theorem not_mergeable {base : Y.Doc} (h : mergeJsonIntoDoc N Y schema base obj = .error stop) :
    mergeable N schema obj = false := by
  rw [← Bool.not_eq_true, ← mergeJson_mergeable (Y := Y) base]
  rintro ⟨doc, hdoc⟩
  rw [h] at hdoc
  cases hdoc

/-- An insertion stores the inserted row where there was none. -/
theorem view_insert (hpk : schema.pk ∉ metaFields) (hk : extractPkString N schema obj = .ok k)
    (hop : opOf N obj = .ok "insert") (idx : Y.Contents) :
    view Y schema (applied N Y schema obj idx).2 = applyOp (defaultRow schema) (view Y schema idx)
      (if mergeable N schema obj = false then (k, .skip)
        else (k, .insert (insertedRow N schema obj))) := by
  rw [applied_insert hop, run_applyInsert hk]
  cases hrow : idx k with
  | some old =>
    refine (applyOp_keep ?_).symm
    split
    · rfl
    · simp [Change.apply, view, hrow]
  | none =>
    dsimp only
    cases hm : mergeJsonIntoDoc N Y schema Y.newDoc obj with
    | error e =>
      rw [if_pos (not_mergeable hm)]
      exact (applyOp_keep rfl).symm
    | ok doc =>
      have hkey : Y.key schema doc = k := key_merged hpk hk (mergeJson_ok hm)
      have hyes : mergeable N schema obj = true := mergeable_of_merges (mergeJson_ok hm)
      rw [if_neg (by simp [hyes])]
      dsimp only
      rw [Yikv.put'_absent (by rw [hkey, hrow]), Yikv.upsert, hkey, view_update]
      simp [applyOp, Change.apply, view, hrow, row_of_insert hm]

/-- An upsert overlays the old row or the default one. -/
theorem view_upsert (hpk : schema.pk ∉ metaFields) (hk : extractPkString N schema obj = .ok k)
    (hop : opOf N obj = .ok "upsert" ∨ opOf N obj = .ok "") (happ : AppendsNothing N schema obj)
    (idx : Y.Contents) :
    view Y schema (applied N Y schema obj idx).2 = applyOp (defaultRow schema) (view Y schema idx)
      (if mergeable N schema obj = false then (k, .skip)
        else (k, .upsert fun fd =>
          fieldFrom N (member metaFields obj.items fd.1.name) fd.1)) := by
  rw [applied_upsert hop, run_applyUpsertMerge hk]
  cases hm : mergeJsonIntoDoc N Y schema (baseDoc Y schema (idx k)) obj with
  | error e =>
    rw [if_pos (not_mergeable hm)]
    exact (applyOp_keep rfl).symm
  | ok doc =>
    have hkey : Y.key schema doc = k := key_merged hpk hk (mergeJson_ok hm)
    have hyes : mergeable N schema obj = true := mergeable_of_merges (mergeJson_ok hm)
    rw [if_neg (by simp [hyes])]
    dsimp only
    rw [Yikv.upsert, hkey, view_update]
    refine congrArg (Function.update _ k) (congrArg some (funext fun fd => ?_))
    have hfd := mergeJson_ok hm fd
    rw [row_baseDoc] at hfd
    exact mergedField_carried (happ hop fd.1 fd.2) hfd

/-- One call on the visible rows. -/
theorem view_applied (hpk : schema.pk ∉ metaFields) (happ : AppendsNothing N schema obj)
    (idx : Y.Contents) : view Y schema (applied N Y schema obj idx).2 =
      applyOp (defaultRow schema) (view Y schema idx) (changeOf N schema obj) := by
  unfold changeOf
  cases hk : extractPkString N schema obj with
  | error e =>
    obtain ⟨stop, hstop⟩ := run_noPk Y hk
    rw [hstop]
    exact (applyOp_keep rfl).symm
  | ok k =>
    cases hop : opOf N obj with
    | error e =>
      obtain ⟨stop, hstop⟩ := applied_unknown Y schema hop
        (by simp) (by simp) (by simp) (by simp)
      rw [hstop]
      exact (applyOp_keep rfl).symm
    | ok op =>
      dsimp only
      by_cases hd : op = "delete"
      · subst hd
        rw [if_pos rfl, applied_delete hop, run_applyDelete hk]
        exact view_update idx k none
      rw [if_neg hd]
      by_cases hi : op = "insert"
      · subst hi
        rw [view_insert hpk hk hop]
        simp
      rw [if_neg hi]
      by_cases hu : op = "upsert" ∨ op = ""
      · rw [if_pos hu]
        exact view_upsert hpk hk (hu.imp (fun h => hop.trans (congrArg _ h))
          fun h => hop.trans (congrArg _ h)) happ idx
      · rw [if_neg hu, ite_self]
        rw [not_or] at hu
        obtain ⟨stop, hstop⟩ := applied_unknown Y schema hop
          (by simp [hd]) (by simp [hi]) (by simp [hu.1]) (by simp [hu.2])
        rw [hstop]
        exact (applyOp_keep rfl).symm

end YikvServer.Stream
