import YikvServer.Stream.JsonStreamIngest

/-!
# The merge semantics of a stream object

What an object asks of one row, stated field by field, and the ingest code against
it. A member replaces a scalar and extends an array; a missing, null or reserved
member leaves its field alone. The set of reserved member names is a parameter.
-/
namespace YikvServer.Stream

open YikvServer.Theory YikvServer.Index

/-- The element types that both the copy and the merge know. -/
abbrev ArraysSupported (schema : Schema) : Prop :=
  ∀ fd ∈ schema.fields, fd.isArray = true → fd.type ≠ .bool

section Spec
variable (N : Nlohmann)

/-- The new value of a field from a member that is not null. -/
def mergedValue : (fd : FieldDef) → fd.cell.Val → Json → Option fd.cell.Val
  | ⟨_, _, type, false⟩, _, val => (getScalar N type val).toOption
  | ⟨_, _, .bool, true⟩, _, _ => none
  | ⟨_, _, type, true⟩, old, .array items =>
    (items.mapM (N.get type.elem)).toOption.map fun vs => @List.append type.elem.Val old vs
  | ⟨_, _, _, true⟩, _, _ => none

def mergedField (found : Option Json) (fd : FieldDef) (old : fd.cell.Val) : Option fd.cell.Val :=
  match found with
  | none => some old
  | some val => if val.isNull then some old else mergedValue N fd old val

/-- The member a field takes its value from. -/
def member (reserved : List String) (items : List (String × Json)) (name : String) : Option Json :=
  if name ∈ reserved then none else items.lookup name

/-- Every field of the new row is the old one merged with its member. -/
def Merges {schema : Schema} (reserved : List String) (obj : JsonObject)
    (old new : Yikv.Row schema) : Prop :=
  ∀ fd, mergedField N (member reserved obj.items fd.1.name) fd.1 (old fd) = some (new fd)

end Spec

/-- The members that `MergeJsonIntoDoc` passes over. -/
def metaFields : List String := ["_op", "_ts"]

variable {N : Nlohmann} {Y : Yikv} {schema : Schema} {obj : JsonObject} {fd : FieldDef}
  {doc doc' : Y.Doc} {val : Json} {stop : Stop} {k : String} {idx : Y.Contents}

/-! ## Copying -/

/-- What a copied document keeps of a field: Bool arrays are lost. -/
def carried : (fd : FieldDef) → fd.cell.Val → fd.cell.Val
  | ⟨_, _, _, false⟩, old => old
  | ⟨_, _, .bool, true⟩, _ => []
  | ⟨_, _, _, true⟩, old => old

theorem carried_eq (hb : fd.isArray = true → fd.type ≠ .bool) (old : fd.cell.Val) :
    carried fd old = old := by
  obtain ⟨name, fid, type, _ | _⟩ := fd
  · rfl
  · cases type with
    | bool => exact absurd rfl (hb rfl)
    | _ => rfl

theorem get_copyField_self {src dst : Y.Doc}
    (hd : Y.get dst fd.fieldId fd.cell = fd.cell.default) :
    Y.get (copyField Y fd src dst) fd.fieldId fd.cell =
      carried fd (Y.get src fd.fieldId fd.cell) := by
  obtain ⟨name, fid, type, _ | _⟩ := fd
  · exact Y.get_put_self dst fid (.scalar type.elem) _
  · by_cases hb : type = .bool
    · subst hb
      exact hd
    have hcopy : copyField Y ⟨name, fid, type, true⟩ src dst =
        if (Y.get src fid (.array type.elem)).length > 0
        then Y.put dst fid (.array type.elem) (Y.get src fid (.array type.elem)) else dst := by
      cases type with
      | bool => exact absurd rfl hb
      | _ => rfl
    rw [hcopy, carried_eq fun _ => hb]
    split
    · simp [FieldDef.cell]
    · rename_i hx
      exact hd.trans (List.length_eq_zero_iff.mp (Nat.eq_zero_of_not_pos hx)).symm

theorem get_copyField_other {src dst : Y.Doc} {fid : Nat} (h : fid ≠ fd.fieldId) (c : Cell) :
    Y.get (copyField Y fd src dst) fid c = Y.get dst fid c := by
  unfold copyField
  split
  · split
    · rfl
    · dsimp only
      split
      · exact Y.get_put_other _ _ _ _ _ _ h
      · rfl
  · exact Y.get_put_other _ _ _ _ _ _ h

/-- A fresh document takes over every field. -/
theorem row_copyDoc (src : Y.Doc) (fd : {fd // fd ∈ schema.fields}) :
    Y.row schema (copyDocFromSchema Y schema src Y.newDoc) fd =
      carried fd.1 (Y.row schema src fd) := by
  have hother : ∀ (fds : List FieldDef) (dst : Y.Doc) (fid : Nat) (c : Cell),
      fid ∉ fds.map FieldDef.fieldId →
      Y.get (fds.foldl (fun dst fd => copyField Y fd src dst) dst) fid c = Y.get dst fid c := by
    intro fds
    induction fds with
    | nil => intros; rfl
    | cons fd fds ih =>
      intro dst fid c hfid
      simp only [List.map_cons, List.mem_cons, not_or] at hfid
      rw [List.foldl_cons, ih _ _ _ hfid.2, get_copyField_other hfid.1]
  have hself : ∀ (fds : List FieldDef) (dst : Y.Doc), (fds.map FieldDef.fieldId).Nodup →
      (∀ fd ∈ fds, Y.get dst fd.fieldId fd.cell = fd.cell.default) → ∀ fd ∈ fds,
      Y.get (fds.foldl (fun dst fd => copyField Y fd src dst) dst) fd.fieldId fd.cell =
        carried fd (Y.get src fd.fieldId fd.cell) := by
    intro fds
    induction fds with
    | nil => intro _ _ _ fd hfd; cases hfd
    | cons fd fds ih =>
      intro dst hnodup hdst fd' hfd'
      obtain ⟨hnot, hrest⟩ := List.nodup_cons.mp hnodup
      rw [List.foldl_cons]
      rcases List.mem_cons.mp hfd' with rfl | hmem
      · rw [hother _ _ _ _ hnot]
        exact get_copyField_self (hdst _ List.mem_cons_self)
      · refine ih _ hrest ?_ fd' hmem
        intro g hg
        have hne : g.fieldId ≠ fd.fieldId := fun he =>
          hnot (he ▸ List.mem_map_of_mem (f := FieldDef.fieldId) hg)
        rw [get_copyField_other hne]
        exact hdst g (List.mem_cons_of_mem _ hg)
  exact hself schema.fields Y.newDoc schema.ids (fun _ _ => Y.get_newDoc _ _) fd.1 fd.2

theorem row_newDoc : Y.row schema Y.newDoc = fun fd => fd.1.cell.default := by
  funext fd
  exact Y.get_newDoc _ _

/-- The document an upsert merges into shows the old row copied, or the default one. -/
theorem row_baseDoc (found : Option Y.Doc) (fd : {fd // fd ∈ schema.fields}) :
    Y.row schema (baseDoc Y schema found) fd =
      carried fd.1 (((found.map (Y.row schema)).getD fun fd => fd.1.cell.default) fd) := by
  cases found with
  | some old => exact row_copyDoc old fd
  | none =>
    have hdefault : carried fd.1 fd.1.cell.default = fd.1.cell.default := by
      obtain ⟨⟨name, fid, type, _ | _⟩, hfd⟩ := fd
      · rfl
      · cases type <;> rfl
    exact (congrFun row_newDoc fd).trans hdefault.symm

/-! ## One field -/

theorem appendElements_eq (fid : Nat) (e : Elem) (doc : Y.Doc) (items : List Json) :
    appendElements N Y fid e doc items =
      (items.mapM (N.get e)).map fun vs => vs.foldl (fun d v => Y.arrayAppend d fid e v) doc := by
  induction items generalizing doc with
  | nil => rfl
  | cons item rest ih =>
    rw [appendElements, List.mapM_cons]
    cases hv : N.get e item with
    | error x => rfl
    | ok v =>
      simp only [ih]
      cases rest.mapM (N.get e) <;> rfl

theorem get_appends_self (fid : Nat) (e : Elem) (doc : Y.Doc) (vs : List e.Val) :
    Y.get (vs.foldl (fun d v => Y.arrayAppend d fid e v) doc) fid (.array e) =
      Y.get doc fid (.array e) ++ vs := by
  induction vs generalizing doc with
  | nil => simp
  | cons v vs ih => rw [List.foldl_cons, ih, Y.get_append_self, List.append_assoc]; rfl

theorem get_appends_other {fid fid' : Nat} (h : fid' ≠ fid) (e : Elem) (doc : Y.Doc)
    (vs : List e.Val) (c : Cell) :
    Y.get (vs.foldl (fun d v => Y.arrayAppend d fid e v) doc) fid' c = Y.get doc fid' c := by
  induction vs generalizing doc with
  | nil => rfl
  | cons v vs ih => rw [List.foldl_cons, ih, Y.get_append_other _ _ _ _ _ _ h]

/-- The outcome of `MergeOneField` on a member that is not null. -/
theorem mergeOneField_spec (N : Nlohmann) (fd : FieldDef) (doc : Y.Doc) (hn : val.isNull = false) :
    match mergeOneField N Y fd doc val with
    | .ok doc' =>
      mergedValue N fd (Y.get doc fd.fieldId fd.cell) val = some (Y.get doc' fd.fieldId fd.cell) ∧
        ∀ fid c, fid ≠ fd.fieldId → Y.get doc' fid c = Y.get doc fid c
    | .error _ => ∀ old, mergedValue N fd old val = none := by
  obtain ⟨name, fid, type, _ | _⟩ := fd
  · cases hv : getScalar N type val with
    | error x =>
      have hmerge : mergeOneField N Y ⟨name, fid, type, false⟩ doc val = .error (.thrown x) := by
        simp [mergeOneField, hn, hv]
      rw [hmerge]
      intro old
      show (getScalar N type val).toOption = none
      rw [hv]
      rfl
    | ok v =>
      have hmerge : mergeOneField N Y ⟨name, fid, type, false⟩ doc val =
          .ok (Y.put doc fid (.scalar type.elem) v) := by
        simp [mergeOneField, hn, hv]
      rw [hmerge]
      refine ⟨?_, fun _ _ h => Y.get_put_other _ _ _ _ _ _ h⟩
      show (getScalar N type val).toOption =
        some (Y.get (Y.put doc fid (.scalar type.elem) v) fid (.scalar type.elem))
      rw [hv, Y.get_put_self]
      rfl
  · by_cases hb : type = .bool
    · subst hb
      cases val with
      | null => cases hn
      | _ => exact fun _ => rfl
    cases val with
    | array items =>
      have hmerge : mergeOneField N Y ⟨name, fid, type, true⟩ doc (.array items) =
          throwing (appendElements N Y fid type.elem doc items) := by
        cases type with
        | bool => exact absurd rfl hb
        | _ => rfl
      have hvalue : ∀ old : List type.elem.Val,
          mergedValue N ⟨name, fid, type, true⟩ old (.array items) =
            (items.mapM (N.get type.elem)).toOption.map fun vs => old ++ vs := by
        intro old
        cases type with
        | bool => exact absurd rfl hb
        | _ => rfl
      rw [hmerge, appendElements_eq]
      cases hv : items.mapM (N.get type.elem) with
      | error x =>
        intro old
        exact (hvalue old).trans (by rw [hv]; rfl)
      | ok vs =>
        refine ⟨?_, fun _ _ h => get_appends_other h _ _ _ _⟩
        refine (hvalue _).trans ?_
        rw [hv]
        exact congrArg some (get_appends_self fid type.elem doc vs).symm
    | null => cases hn
    | _ =>
      intro old
      cases type with
      | bool => exact absurd rfl hb
      | _ => rfl

/-! ## The loop over the members -/

theorem member_nil (reserved : List String) (name : String) : member reserved [] name = none := by
  simp [member]

theorem member_cons_of_ne {reserved : List String} {item : String × Json}
    {rest : List (String × Json)} {name : String} (h : name ≠ item.1) :
    member reserved (item :: rest) name = member reserved rest name := by
  have hb : (name == item.1) = false := by simpa using h
  unfold member
  rw [List.lookup_cons, hb]

theorem member_cons_self {reserved : List String} {item : String × Json}
    {rest : List (String × Json)} :
    member reserved (item :: rest) item.1 = member reserved [item] item.1 := by
  obtain ⟨key, val⟩ := item
  simp only [member, List.lookup_cons, beq_self_eq_true]

theorem member_of_not_mem (reserved : List String) {items : List (String × Json)} {name : String}
    (h : name ∉ items.map Prod.fst) : member reserved items name = none := by
  induction items with
  | nil => exact member_nil _ _
  | cons item rest ih =>
    simp only [List.map_cons, List.mem_cons, not_or] at h
    rw [member_cons_of_ne h.1, ih h.2]

/-- One turn merges the field its member names and no other. -/
theorem mergeItem_spec (N : Nlohmann) (schema : Schema) (doc : Y.Doc) (item : String × Json) :
    match mergeItem N Y schema doc item with
    | .ok doc' => ∀ fd ∈ schema.fields,
      mergedField N (member metaFields [item] fd.name) fd (Y.get doc fd.fieldId fd.cell) =
        some (Y.get doc' fd.fieldId fd.cell)
    | .error _ => ∃ fd ∈ schema.fields, fd.name = item.1 ∧
      ∀ old, mergedField N (member metaFields [item] fd.name) fd old = none := by
  obtain ⟨key, val⟩ := item
  unfold mergeItem
  by_cases hmeta : key = "_op" ∨ key = "_ts"
  · rw [if_pos hmeta]
    intro fd _
    have hnone : member metaFields [(key, val)] fd.name = none := by
      by_cases hname : fd.name = key
      · have hres : fd.name ∈ metaFields := by simpa [metaFields, hname] using hmeta
        exact if_pos hres
      · rw [member_cons_of_ne hname, member_nil]
    rw [hnone]
    rfl
  · rw [if_neg hmeta]
    have hres : key ∉ metaFields := by simpa [metaFields] using hmeta
    have hself : member metaFields [(key, val)] key = some val := by simp [member, hres]
    have hother : ∀ name, name ≠ key → member metaFields [(key, val)] name = none := by
      intro name hne
      rw [member_cons_of_ne hne, member_nil]
    cases hf : schema.findField key with
    | none =>
      intro fd hfd
      have hne : fd.name ≠ key := fun he => by
        rw [Schema.findField_eq_some.mpr ⟨hfd, he⟩] at hf
        cases hf
      rw [hother _ hne]
      rfl
    | some fd =>
      obtain ⟨hfd, rfl⟩ := Schema.findField_eq_some.mp hf
      dsimp only
      by_cases hnull : val.isNull = true
      · have hskip : mergeOneField N Y fd doc val = .ok doc := by simp [mergeOneField, hnull]
        simp only [hskip]
        intro g _
        by_cases hg : g.name = fd.name
        · rw [hg, hself]
          simp [mergedField, hnull]
        · rw [hother _ hg]
          rfl
      · have hn : val.isNull = false := by simpa using hnull
        have hspec := mergeOneField_spec N fd doc hn
        cases hm : mergeOneField N Y fd doc val with
        | error s =>
          rw [hm] at hspec
          refine ⟨fd, hfd, rfl, fun old => ?_⟩
          rw [hself]
          simpa [mergedField, hn] using hspec old
        | ok doc' =>
          rw [hm] at hspec
          intro g hg
          by_cases hgn : g.name = fd.name
          · obtain rfl := Schema.name_injective hg hfd hgn
            rw [hself]
            simpa [mergedField, hn] using hspec.1
          · have hid : g.fieldId ≠ fd.fieldId := fun he =>
              hgn (congrArg FieldDef.name (Schema.id_injective hg hfd he))
            rw [hother _ hgn, hspec.2 _ _ hid]
            rfl

/-- The whole loop merges every field with its member. -/
theorem mergeItems_spec (N : Nlohmann) (schema : Schema) {items : List (String × Json)}
    (hnodup : (items.map Prod.fst).Nodup) (doc : Y.Doc) :
    match items.foldlM (mergeItem N Y schema) doc with
    | .ok doc' => ∀ fd ∈ schema.fields,
      mergedField N (member metaFields items fd.name) fd (Y.get doc fd.fieldId fd.cell) =
        some (Y.get doc' fd.fieldId fd.cell)
    | .error _ => ∃ fd ∈ schema.fields,
      ∀ old, mergedField N (member metaFields items fd.name) fd old = none := by
  induction items generalizing doc with
  | nil =>
    intro fd _
    rw [member_nil]
    rfl
  | cons item rest ih =>
    obtain ⟨hnot, hrest⟩ := List.nodup_cons.mp hnodup
    have hstep := mergeItem_spec N schema doc item
    rw [List.foldlM_cons]
    cases hm : mergeItem N Y schema doc item with
    | error s =>
      rw [hm] at hstep
      obtain ⟨fd, hfd, hname, hnone⟩ := hstep
      refine ⟨fd, hfd, fun old => ?_⟩
      rw [hname, member_cons_self, ← hname]
      exact hnone old
    | ok doc₁ =>
      rw [hm] at hstep
      have hih := ih hrest doc₁
      show match rest.foldlM (mergeItem N Y schema) doc₁ with | .ok _ => _ | .error _ => _
      cases hr : rest.foldlM (mergeItem N Y schema) doc₁ with
      | error s =>
        rw [hr] at hih
        obtain ⟨fd, hfd, hnone⟩ := hih
        refine ⟨fd, hfd, fun old => ?_⟩
        have hne : fd.name ≠ item.1 := fun he => by
          have hold := hnone old
          rw [member_of_not_mem _ (he ▸ hnot)] at hold
          cases hold
        rw [member_cons_of_ne hne]
        exact hnone old
      | ok doc' =>
        rw [hr] at hih
        intro fd hfd
        have hone := hstep fd hfd
        have htail := hih fd hfd
        by_cases hname : fd.name = item.1
        · have hlast : member metaFields rest fd.name = none :=
            member_of_not_mem _ (hname ▸ hnot)
          rw [hlast] at htail
          have hsame := Option.some.inj htail
          rw [hname] at hone ⊢
          rw [member_cons_self, hone, hsame]
        · rw [member_cons_of_ne hname] at hone ⊢
          rw [member_nil] at hone
          have hsame := Option.some.inj hone
          rw [hsame]
          exact htail

theorem mergeJson_ok (h : mergeJsonIntoDoc N Y schema doc obj = .ok doc') :
    Merges N metaFields obj (Y.row schema doc) (Y.row schema doc') := by
  have hspec := mergeItems_spec N schema obj.keys_nodup doc
  unfold mergeJsonIntoDoc at h
  rw [h] at hspec
  exact fun fd => hspec fd.1 fd.2

theorem mergeJson_error (h : mergeJsonIntoDoc N Y schema doc obj = .error stop)
    (old new : Yikv.Row schema) :
    ¬ Merges N metaFields obj old new := by
  have hspec := mergeItems_spec N schema obj.keys_nodup doc
  unfold mergeJsonIntoDoc at h
  rw [h] at hspec
  obtain ⟨fd, hfd, hnone⟩ := hspec
  intro hm
  have hfdm := hm ⟨fd, hfd⟩
  rw [hnone] at hfdm
  cases hfdm

/-! ## Failures do not depend on the document -/

theorem mergeOneField_outcome (doc doc' : Y.Doc) :
    (mergeOneField N Y fd doc val).map (fun _ => ()) =
      (mergeOneField N Y fd doc' val).map fun _ => () := by
  unfold mergeOneField
  split
  · rfl
  · split
    · cases val with
      | array items =>
        dsimp only
        split
        · rfl
        · rw [appendElements_eq, appendElements_eq]
          cases items.mapM (N.get fd.type.elem) <;> rfl
      | _ => rfl
    · cases getScalar N fd.type val <;> rfl

theorem mergeItem_outcome (N : Nlohmann) (schema : Schema) (doc doc' : Y.Doc)
    (item : String × Json) :
    (mergeItem N Y schema doc item).map (fun _ => ()) =
      (mergeItem N Y schema doc' item).map fun _ => () := by
  unfold mergeItem
  split
  · rfl
  · cases schema.findField item.1 with
    | none => rfl
    | some fd => exact mergeOneField_outcome doc doc'

theorem mergeJson_outcome (N : Nlohmann) (schema : Schema) (obj : JsonObject) (doc doc' : Y.Doc) :
    (mergeJsonIntoDoc N Y schema doc obj).map (fun _ => ()) =
      (mergeJsonIntoDoc N Y schema doc' obj).map fun _ => () := by
  unfold mergeJsonIntoDoc
  induction obj.items generalizing doc doc' with
  | nil => rfl
  | cons item rest ih =>
    have hitem := mergeItem_outcome N schema doc doc' item
    rw [List.foldlM_cons, List.foldlM_cons]
    cases hm : mergeItem N Y schema doc item with
    | error e =>
      rw [hm] at hitem
      cases hm' : mergeItem N Y schema doc' item with
      | error e' =>
        rw [hm'] at hitem
        obtain rfl := Except.error.inj hitem
        rfl
      | ok d' => rw [hm'] at hitem; cases hitem
    | ok d =>
      rw [hm] at hitem
      cases hm' : mergeItem N Y schema doc' item with
      | error e' => rw [hm'] at hitem; cases hitem
      | ok d' => exact ih d d'

theorem mergeJson_error_any (h : mergeJsonIntoDoc N Y schema doc obj = .error stop) (doc' : Y.Doc) :
    mergeJsonIntoDoc N Y schema doc' obj = .error stop := by
  have hout := mergeJson_outcome N schema obj doc' doc
  rw [h] at hout
  cases hm : mergeJsonIntoDoc N Y schema doc' obj with
  | error e =>
    rw [hm] at hout
    exact congrArg _ (Except.error.inj hout)
  | ok d => rw [hm] at hout; cases hout

end YikvServer.Stream
