import YikvServer.Stream.RowWritten
import YikvServer.Theory.DecimalText
import YikvServer.Theory.Fallible

/-!
# Integers of a stream object

nlohmann's `get<int32_t>()` and `get<int64_t>()` cast a JSON integer without a check, and so
do all conversions of stream ingest: of the pk, of a scalar and of the elements of an array.
-/
namespace YikvServer.Stream

open YikvServer.Theory YikvServer.Index

/-- A JSON integer is cast to the type asked for. -/
structure Nlohmann.Unchecked (N : Nlohmann) : Prop where
  i32 : ∀ n, N.get .i32 (.integer n) = .ok (Int32.ofInt n)
  i64 : ∀ n, N.get .i64 (.integer n) = .ok (Int64.ofInt n)

/-- `static_cast` to the integer type. -/
def wrap (type : DataType) (n : Int) : Int :=
  match type.width with
  | some w => n.bmod (2 ^ w)
  | none => n

/-- The integer that a value of an integer field is. -/
def intOf : (type : DataType) → type.elem.Val → Option Int
  | .int32, v => some (Int32.toInt v)
  | .int64, v => some (Int64.toInt v)
  | _, _ => none

/-- A JSON integer is kept as it is. -/
def Keeps (type : DataType) (v : type.elem.Val) (val : Json) : Prop :=
  ∀ n, val = .integer n → ∀ stored ∈ intOf type v, stored = n

/-- The integers of a member are kept: of a scalar as its value, of an array as the elements
that it appends. -/
def KeepsMember : (fd : FieldDef) → (old new : fd.cell.Val) → Json → Prop
  | ⟨_, _, type, false⟩, _, new, val => Keeps type new val
  | ⟨_, _, type, true⟩, old, new, .array items =>
    ∃ vs : List type.elem.Val, new = @List.append type.elem.Val old vs ∧
      List.Forall₂ (Keeps type) vs items
  | ⟨_, _, _, true⟩, _, _, _ => True

/-- The integers that a field takes from its member. -/
def integersOf : FieldDef → Json → List Int
  | ⟨_, _, _, false⟩, .integer n => [n]
  | ⟨_, _, _, true⟩, .array items => items.filterMap fun | .integer n => some n | _ => none
  | _, _ => []

/-- The pk of the table is an Int32 or Int64 field `fd`, and the object's is the integer `v`. -/
structure PkInteger (schema : Schema) (obj : JsonObject) (fd : FieldDef) (v : Int) : Prop where
  field : schema.findField schema.pk = some fd
  integer : fd.type.width.isSome = true
  member : obj.find fd.name = some (.integer v)

section Spec
variable (N : Nlohmann) (Y : Yikv) (schema : Schema) (obj : JsonObject) (idx : Y.Contents)

/-- The call that stores a document, if the object asks for one. -/
def writerOf : Option Writer :=
  match opOf N obj with
  | .ok op =>
    if op = "insert" then some .insert
    else if op = "upsert" ∨ op = "" then some .upsert
    else none
  | .error _ => none

/-- The index calls of an object, in order. -/
abbrev calls : List Y.KvOp := Prog.trace (Y.exec schema) (applyStreamJsonObject N Y schema obj) idx

/-- The call addresses the row of the very pk, and stores the very integers of the object. -/
inductive ExactIntegers : Prop where
  | delete (k : String) (hcalls : calls N Y schema obj idx = [.delete k])
      (hkey : ∀ fd v, PkInteger schema obj fd v → k = toStringInt v)
  | store (w : Writer) (k : String) (doc : Y.Doc)
      (hcalls : calls N Y schema obj idx = [.get k, w.op doc])
      (hkey : ∀ fd v, PkInteger schema obj fd v → k = toStringInt v)
      (hfiled : ∀ fd v, PkInteger schema obj fd v → fd.isArray = false →
        Y.key schema doc = toStringInt v)
      (hfields : ∀ fd ∈ schema.fields, fd.type.width.isSome = true → ∀ val,
        obj.find fd.name = some val →
          KeepsMember fd (Y.get (w.base schema (idx k)) fd.fieldId fd.cell)
            (Y.get doc fd.fieldId fd.cell) val)

/-- Every integer that the call uses fits the type of its field; and where the merge passes
over a member, the document that it starts from has its integers. -/
structure IntegersFit : Prop where
  pk : ∀ fd v, PkInteger schema obj fd v → fd.type.Fits v
  members : ∀ w, writerOf N obj = some w → ∀ fd ∈ schema.fields, fd.type.width.isSome = true →
    fd.name ∉ metaFields → ∀ val, obj.find fd.name = some val →
      ∀ n ∈ integersOf fd val, fd.type.Fits n
  passedOver : ∀ w, writerOf N obj = some w → ∀ fd ∈ schema.fields,
    fd.type.width.isSome = true → fd.name ∈ metaFields → ∀ val, obj.find fd.name = some val →
      ∀ k, extractPkString N schema obj = .ok k →
        KeepsMember fd (Y.get (w.base schema (idx k)) fd.fieldId fd.cell)
          (Y.get (w.base schema (idx k)) fd.fieldId fd.cell) val

end Spec

variable {N : Nlohmann} {Y : Yikv} {schema : Schema} {obj obj' : JsonObject} {idx : Y.Contents}
  {doc : Y.Doc} {k : String} {w : Writer} {fd : FieldDef} {type : DataType} {val : Json}
  {v n : Int} {stop : Stop}

/-! ## Casts -/

theorem wrap_eq_iff (type : DataType) (n : Int) : wrap type n = n ↔ type.Fits n := by
  cases type with
  | int32 =>
    have hcast : (Int32.ofInt n).toInt = wrap .int32 n := Int32.toInt_ofInt
    refine ⟨fun h => ?_, fun h => ?_⟩
    · rw [← h, ← hcast]
      exact fits_int32 _
    · rw [← hcast, Int32.toInt_ofInt_of_le (h 32 rfl).1 (h 32 rfl).2]
  | int64 =>
    have hcast : (Int64.ofInt n).toInt = wrap .int64 n := Int64.toInt_ofInt
    refine ⟨fun h => ?_, fun h => ?_⟩
    · rw [← h, ← hcast]
      exact fits_int64 _
    · rw [← hcast, Int64.toInt_ofInt_of_le (h 64 rfl).1 (h 64 rfl).2]
  | _ => exact iff_of_true rfl fun w hw => by cases hw

/-- What the conversion makes of a JSON integer. -/
theorem intOf_cast (hN : N.Unchecked) {u : type.elem.Val} (hint : type.width.isSome = true)
    (hget : N.get type.elem (.integer n) = .ok u) : intOf type u = some (wrap type n) := by
  cases type with
  | int32 =>
    obtain rfl := Except.ok.inj ((hN.i32 n).symm.trans hget)
    exact congrArg some Int32.toInt_ofInt
  | int64 =>
    obtain rfl := Except.ok.inj ((hN.i64 n).symm.trans hget)
    exact congrArg some Int64.toInt_ofInt
  | _ => cases hint

theorem intOf_eq_none {u : type.elem.Val} (hint : type.width.isSome = false) :
    intOf type u = none := by
  cases type with
  | int32 => cases hint
  | int64 => cases hint
  | _ => rfl

theorem fits_of_other (hint : type.width.isSome = false) (n : Int) : type.Fits n := by
  intro w hw
  rw [Option.isSome_eq_false_iff, Option.isNone_iff_eq_none] at hint
  rw [hint] at hw
  cases hw

/-- A converted value keeps the integer exactly when the type can hold it. -/
theorem keeps_iff (hN : N.Unchecked) {u : type.elem.Val}
    (hget : type.width.isSome = true → N.get type.elem val = .ok u) :
    Keeps type u val ↔ ∀ n, val = .integer n → type.Fits n := by
  cases hint : type.width.isSome with
  | false =>
    refine iff_of_true (fun n _ stored hs => ?_) fun n _ => fits_of_other hint n
    rw [intOf_eq_none hint] at hs
    cases hs
  | true =>
    refine forall_congr' fun n => forall_congr' fun hval => ?_
    subst hval
    rw [intOf_cast hN hint (hget hint), ← wrap_eq_iff]
    simp

/-! ## Fields -/

theorem mapM_keeps_iff (hN : N.Unchecked) {items : List Json} {vs : List type.elem.Val}
    (h : items.mapM (N.get type.elem) = .ok vs) :
    List.Forall₂ (Keeps type) vs items ↔ ∀ n, .integer n ∈ items → type.Fits n := by
  rw [mapM_eq_ok] at h
  induction h with
  | nil => exact iff_of_true .nil fun n hn => by cases hn
  | cons hitem _ ih =>
    rw [List.forall₂_cons, ih, keeps_iff hN fun _ => hitem]
    simp only [List.mem_cons, or_imp, forall_and]
    exact and_congr_left' (forall_congr' fun n => by rw [eq_comm])

/-- A scalar's member is kept exactly when it fits. -/
theorem keepsScalar_iff (hN : N.Unchecked) {name : String} {fid : Nat} {new : type.elem.Val}
    (h : getScalar N type val = .ok new) :
    Keeps type new val ↔ ∀ n ∈ integersOf ⟨name, fid, type, false⟩ val, type.Fits n := by
  have hintegers : (∀ n ∈ integersOf ⟨name, fid, type, false⟩ val, type.Fits n) ↔
      ∀ n, val = .integer n → type.Fits n := by
    cases val with
    | integer m => simp [integersOf]
    | _ => simp [integersOf]
  refine (keeps_iff hN fun hint => ?_).trans hintegers.symm
  cases type with
  | int32 => exact h
  | int64 => exact h
  | _ => cases hint

/-- The elements that an array appends are kept exactly when they fit. -/
theorem keepsElements_iff (hN : N.Unchecked) {name : String} {fid : Nat} {items : List Json}
    {old vs : List type.elem.Val} (h : items.mapM (N.get type.elem) = .ok vs) :
    KeepsMember ⟨name, fid, type, true⟩ old (@List.append type.elem.Val old vs) (.array items) ↔
      ∀ n ∈ integersOf ⟨name, fid, type, true⟩ (.array items), type.Fits n := by
  have hintegers : ∀ n, n ∈ integersOf ⟨name, fid, type, true⟩ (.array items) ↔
      .integer n ∈ items := by
    intro n
    show n ∈ items.filterMap _ ↔ _
    rw [List.mem_filterMap]
    constructor
    · rintro ⟨item, hitem, hn⟩
      cases item with
      | integer m => exact Option.some.inj hn ▸ hitem
      | _ => cases hn
    · exact fun hn => ⟨_, hn, rfl⟩
  simp only [hintegers]
  rw [← mapM_keeps_iff hN h]
  constructor
  · rintro ⟨us, hus, hkeeps⟩
    rw [show vs = us from List.append_cancel_left hus]
    exact hkeeps
  · exact fun hkeeps => ⟨vs, rfl, hkeeps⟩

/-- A scalar that is merged holds what the conversion gives. -/
theorem getScalar_of_merged {name : String} {fid : Nat} {old new : type.elem.Val}
    (hnull : val.isNull = false)
    (h : mergedField N (some val) ⟨name, fid, type, false⟩ old = some new) :
    getScalar N type val = .ok new := by
  simp only [mergedField, hnull] at h
  have hsome : (getScalar N type val).toOption = some new := h
  cases hget : getScalar N type val with
  | error e =>
    rw [hget] at hsome
    cases hsome
  | ok u =>
    rw [hget] at hsome
    exact congrArg Except.ok (Option.some.inj hsome)

/-- An array that is merged holds the converted elements after its own. -/
theorem elements_of_merged {name : String} {fid : Nat} {items : List Json}
    {old new : List type.elem.Val}
    (h : mergedField N (some (.array items)) ⟨name, fid, type, true⟩ old = some new) :
    ∃ vs, items.mapM (N.get type.elem) = .ok vs ∧ @List.append type.elem.Val old vs = new := by
  have hsome : (items.mapM (N.get type.elem)).toOption.map
      (fun vs => @List.append type.elem.Val old vs) = some new := by
    cases type with
    | bool => cases h
    | _ => exact h
  cases hvs : items.mapM (N.get type.elem) with
  | error e =>
    rw [hvs] at hsome
    cases hsome
  | ok vs =>
    rw [hvs] at hsome
    exact ⟨vs, rfl, Option.some.inj hsome⟩

/-- A member that is merged is kept exactly when its integers fit. -/
theorem keepsMember_iff (hN : N.Unchecked) {old new : fd.cell.Val}
    (h : mergedField N (some val) fd old = some new) :
    KeepsMember fd old new val ↔ ∀ n ∈ integersOf fd val, fd.type.Fits n := by
  obtain ⟨name, fid, type, _ | _⟩ := fd
  · cases hnull : val.isNull with
    | true =>
      cases val with
      | null => exact iff_of_true (fun n hn => by cases hn) fun n hn => by cases hn
      | _ => cases hnull
    | false => exact keepsScalar_iff hN (getScalar_of_merged hnull h)
  · cases val with
    | array items =>
      obtain ⟨vs, hvs, rfl⟩ := elements_of_merged h
      exact keepsElements_iff hN hvs
    | _ => exact iff_of_true trivial fun n hn => by cases hn

/-! ## The key -/

theorem toStringInt_injective (h : toStringInt v = toStringInt n) : v = n := by
  refine DecimalText.write_injective ?_
  rw [← DecimalText.toList_toString, ← DecimalText.toList_toString]
  exact congrArg String.toList h

/-- The key of an integer pk is the decimal text of the cast. -/
theorem extractPk_integer (hN : N.Unchecked) (h : PkInteger schema obj fd v) :
    extractPkString N schema obj = .ok (toStringInt (wrap fd.type v)) := by
  obtain ⟨hfield, hint, hmember⟩ := h
  obtain ⟨name, fid, type, arr⟩ := fd
  unfold extractPkString
  rw [hfield]
  dsimp only at hmember hint ⊢
  rw [hmember]
  cases type with
  | int32 =>
    show throwing ((N.get .i32 (.integer v)).map _) = _
    rw [hN.i32]
    exact congrArg (fun u => Except.ok (toStringInt u)) Int32.toInt_ofInt
  | int64 =>
    show throwing ((N.get .i64 (.integer v)).map _) = _
    rw [hN.i64]
    exact congrArg (fun u => Except.ok (toStringInt u)) Int64.toInt_ofInt
  | _ => cases hint

/-- The extracted key is the pk's text exactly when the pk fits. -/
theorem key_eq_iff (hN : N.Unchecked) (hk : extractPkString N schema obj = .ok k)
    (h : PkInteger schema obj fd v) : k = toStringInt v ↔ fd.type.Fits v := by
  obtain rfl := Except.ok.inj ((extractPk_integer hN h).symm.trans hk)
  rw [← wrap_eq_iff]
  exact ⟨toStringInt_injective, congrArg toStringInt⟩

/-- Two pk integers have one key exactly when the width of the type does not tell them apart. -/
theorem key_eq_key_iff (hN : N.Unchecked) (h : PkInteger schema obj fd v)
    (h' : PkInteger schema obj' fd n) :
    extractPkString N schema obj = extractPkString N schema obj' ↔
      ∀ w ∈ fd.type.width, (2 ^ w : Int) ∣ v - n := by
  rw [extractPk_integer hN h, extractPk_integer hN h', Except.ok.injEq]
  refine Iff.trans ⟨toStringInt_injective, congrArg toStringInt⟩ ?_
  obtain ⟨w, hw⟩ := Option.isSome_iff_exists.mp h.integer
  rw [wrap, wrap, hw, Int.bmod_eq_bmod_iff_bmod_sub_eq_zero, ← Int.dvd_iff_bmod_eq_zero]
  simp

/-! ## Calls -/

theorem applyStream_delete (hop : opOf N obj = .ok "delete") :
    applyStreamJsonObject N Y schema obj = applyDelete N Y schema obj := by
  unfold applyStreamJsonObject
  rw [hop]
  rfl

theorem applyStream_writer (hw : writerOf N obj = some w) :
    applyStreamJsonObject N Y schema obj = w.prog N Y schema obj := by
  unfold writerOf at hw
  cases hop : opOf N obj with
  | error e =>
    rw [hop] at hw
    cases hw
  | ok op =>
    simp only [hop] at hw
    unfold applyStreamJsonObject
    rw [hop, Prog.lift_ok, Prog.pure_bind']
    by_cases hinsert : op = "insert"
    · subst hinsert
      obtain rfl := Option.some.inj hw
      rfl
    · rw [if_neg hinsert] at hw
      by_cases hupsert : op = "upsert" ∨ op = ""
      · rw [if_pos hupsert] at hw
        obtain rfl := Option.some.inj hw
        have hdelete : op ≠ "delete" := by
          rintro rfl
          exact absurd hupsert (by decide)
        rw [if_neg hdelete, if_neg hinsert, if_pos hupsert]
        rfl
      · rw [if_neg hupsert] at hw
        cases hw

variable (Y idx) in
/-- An object that asks for nothing that is known is refused. -/
theorem applied_other (hop : opOf N obj ≠ .ok "delete") (hw : writerOf N obj = none) :
    ∃ stop, applied N Y schema obj idx = (.error stop, idx) := by
  unfold writerOf at hw
  obtain ⟨stop, hstop⟩ : ∃ stop, ∀ idx, applied N Y schema obj idx = (.error stop, idx) := by
    refine applied_unknown Y schema rfl hop ?_ ?_ ?_
    all_goals
      intro h
      rw [h] at hw
      cases hw
  exact ⟨stop, hstop idx⟩

theorem trace_applyDelete (hk : extractPkString N schema obj = .ok k) :
    Prog.trace (Y.exec schema) (applyDelete N Y schema obj) idx = [.delete k] := by
  unfold applyDelete
  cases hfd : schema.findField schema.pk with
  | none => simp [extractPkString, hfd] at hk
  | some fd =>
    dsimp only
    cases hpv : obj.find fd.name with
    | none => simp [extractPkString, hfd, hpv] at hk
    | some pv =>
      rw [hk]
      rfl

/-- What the calls of an accepted object are. -/
theorem accepted_cases (hok : (applied N Y schema obj idx).1 = .ok ()) :
    (∃ k, writerOf N obj = none ∧ extractPkString N schema obj = .ok k ∧
      calls N Y schema obj idx = [.delete k]) ∨
    ∃ w k doc, writerOf N obj = some w ∧ extractPkString N schema obj = .ok k ∧
      mergeJsonIntoDoc N Y schema (w.base schema (idx k)) obj = .ok doc ∧
      calls N Y schema obj idx = [.get k, w.op doc] := by
  cases hw : writerOf N obj with
  | some w =>
    unfold applied at hok
    rw [applyStream_writer hw] at hok
    obtain ⟨k, doc, hk, hmerge, htrace⟩ := Writer.succeeded hok
    exact Or.inr ⟨w, k, doc, rfl, hk, hmerge, by rw [calls, applyStream_writer hw, htrace]⟩
  | none =>
    by_cases hop : opOf N obj = .ok "delete"
    · cases hk : extractPkString N schema obj with
      | error e =>
        obtain ⟨stop, hstop⟩ := run_noPk Y hk
        rw [hstop idx] at hok
        cases hok
      | ok k =>
        refine Or.inl ⟨k, rfl, rfl, ?_⟩
        rw [calls, applyStream_delete hop, trace_applyDelete hk]
    · obtain ⟨stop, hstop⟩ := applied_other Y idx hop hw
      rw [hstop] at hok
      cases hok

/-- A writer that fails has not stored anything. -/
theorem Writer.rejected (hk : extractPkString N schema obj = .ok k)
    (h : ((w.prog N Y schema obj).run (Y.exec schema) idx).1 = .error stop) :
    ((w.prog N Y schema obj).run (Y.exec schema) idx).2 = idx := by
  cases w with
  | insert =>
    simp only [Writer.prog, run_applyInsert hk] at h ⊢
    cases hrow : idx k with
    | some old => rfl
    | none =>
      simp only [hrow] at h ⊢
      cases hmerge : mergeJsonIntoDoc N Y schema Y.newDoc obj with
      | error e => rfl
      | ok doc =>
        rw [hmerge] at h
        cases h
  | upsert =>
    simp only [Writer.prog, run_applyUpsertMerge hk] at h ⊢
    split
    · rfl
    · next doc hmerge =>
      rw [hmerge] at h
      cases h

/-- A rejected object changes no row. -/
theorem rejected_unchanged (h : (applied N Y schema obj idx).1 = .error stop) :
    (applied N Y schema obj idx).2 = idx := by
  cases hk : extractPkString N schema obj with
  | error e =>
    obtain ⟨stop', hstop⟩ := run_noPk Y hk
    rw [hstop idx]
  | ok k =>
    cases hw : writerOf N obj with
    | none =>
      by_cases hop : opOf N obj = .ok "delete"
      · rw [applied_delete hop, run_applyDelete hk] at h
        cases h
      · obtain ⟨stop', hstop⟩ := applied_other Y idx hop hw
        rw [hstop]
    | some w =>
      unfold applied at h ⊢
      rw [applyStream_writer hw] at h ⊢
      exact Writer.rejected hk h

/-! ## Exactness -/

/-- A document whose pk field is the integer is filed under its text. -/
theorem key_of_kept {old : fd.cell.Val} (h : PkInteger schema obj fd v) (hscalar : fd.isArray = false)
    (hkept : KeepsMember fd old (Y.get doc fd.fieldId fd.cell) (.integer v)) :
    Y.key schema doc = toStringInt v := by
  obtain ⟨hfield, hint, -⟩ := h
  obtain ⟨name, fid, type, arr⟩ := fd
  obtain rfl : arr = false := hscalar
  refine Y.key_eq schema doc _ _ hfield ?_
  cases type with
  | int32 => exact congrArg (fun n => some (toStringInt n)) (hkept v rfl _ rfl)
  | int64 => exact congrArg (fun n => some (toStringInt n)) (hkept v rfl _ rfl)
  | _ => cases hint

/-- A member that the merge passes over leaves its field. -/
theorem passedOver_eq (hmerge : mergeJsonIntoDoc N Y schema (w.base schema (idx k)) obj = .ok doc)
    (hfd : fd ∈ schema.fields) (hmeta : fd.name ∈ metaFields) :
    Y.get doc fd.fieldId fd.cell = Y.get (w.base schema (idx k)) fd.fieldId fd.cell := by
  have hfield := mergeJson_ok hmerge ⟨fd, hfd⟩
  have hnone : member metaFields obj.items fd.name = none := if_pos hmeta
  rw [hnone] at hfield
  exact (Option.some.inj hfield).symm

theorem merged_iff (hN : N.Unchecked)
    (hmerge : mergeJsonIntoDoc N Y schema (w.base schema (idx k)) obj = .ok doc)
    (hfd : fd ∈ schema.fields) (hmeta : fd.name ∉ metaFields)
    (hval : obj.find fd.name = some val) :
    KeepsMember fd (Y.get (w.base schema (idx k)) fd.fieldId fd.cell)
      (Y.get doc fd.fieldId fd.cell) val ↔ ∀ n ∈ integersOf fd val, fd.type.Fits n := by
  have hfield := mergeJson_ok hmerge ⟨fd, hfd⟩
  have hsome : member metaFields obj.items fd.name = some val := (if_neg hmeta).trans hval
  rw [hsome] at hfield
  exact keepsMember_iff hN hfield

theorem Writer.op_inj {w' : Writer} {doc' : Y.Doc} (h : w.op doc = w'.op doc') :
    w = w' ∧ doc = doc' := by
  cases w with
  | insert =>
    cases w' with
    | insert => exact ⟨rfl, Yikv.KvOp.put.inj h⟩
    | upsert => cases h
  | upsert =>
    cases w' with
    | insert => cases h
    | upsert => exact ⟨rfl, Yikv.KvOp.upsert.inj h⟩

theorem exact_delete_iff (hN : N.Unchecked) (hw : writerOf N obj = none)
    (hk : extractPkString N schema obj = .ok k) (hcalls : calls N Y schema obj idx = [.delete k]) :
    ExactIntegers N Y schema obj idx ↔ IntegersFit N Y schema obj idx := by
  constructor
  · intro h
    cases h with
    | delete k' hcalls' hkey =>
      have hsame := hcalls.symm.trans hcalls'
      obtain rfl : k = k' := by simpa using hsame
      refine ⟨fun fd v hpk => (key_eq_iff hN hk hpk).mp (hkey fd v hpk), ?_, ?_⟩
      · intro w hw'
        cases hw.symm.trans hw'
      · intro w hw'
        cases hw.symm.trans hw'
    | store w k' doc hcalls' =>
      have hsame := hcalls.symm.trans hcalls'
      simp at hsame
  · intro h
    exact .delete k hcalls fun fd v hpk => (key_eq_iff hN hk hpk).mpr (h.pk fd v hpk)

theorem exact_store_iff (hN : N.Unchecked) (hw : writerOf N obj = some w)
    (hk : extractPkString N schema obj = .ok k)
    (hmerge : mergeJsonIntoDoc N Y schema (w.base schema (idx k)) obj = .ok doc)
    (hcalls : calls N Y schema obj idx = [.get k, w.op doc]) :
    ExactIntegers N Y schema obj idx ↔ IntegersFit N Y schema obj idx := by
  constructor
  · intro h
    cases h with
    | delete k' hcalls' =>
      have hsame := hcalls.symm.trans hcalls'
      simp at hsame
    | store w' k' doc' hcalls' hkey hfiled hfields =>
      have hsame := hcalls.symm.trans hcalls'
      simp only [List.cons.injEq, Yikv.KvOp.get.injEq, and_true] at hsame
      obtain ⟨rfl, hop⟩ := hsame
      obtain ⟨rfl, rfl⟩ := Writer.op_inj hop
      refine ⟨fun fd v hpk => (key_eq_iff hN hk hpk).mp (hkey fd v hpk), ?_, ?_⟩
      · intro w' hw' fd hfd hint hmeta val hval
        exact (merged_iff hN hmerge hfd hmeta hval).mp (hfields fd hfd hint val hval)
      · intro w' hw' fd hfd hint hmeta val hval k' hk'
        obtain rfl := Option.some.inj (hw.symm.trans hw')
        obtain rfl := Except.ok.inj (hk.symm.trans hk')
        have hkept := hfields fd hfd hint val hval
        rwa [passedOver_eq hmerge hfd hmeta] at hkept
  · intro h
    have hfields : ∀ fd ∈ schema.fields, fd.type.width.isSome = true → ∀ val,
        obj.find fd.name = some val →
          KeepsMember fd (Y.get (w.base schema (idx k)) fd.fieldId fd.cell)
            (Y.get doc fd.fieldId fd.cell) val := by
      intro fd hfd hint val hval
      by_cases hmeta : fd.name ∈ metaFields
      · rw [passedOver_eq hmerge hfd hmeta]
        exact h.passedOver w hw fd hfd hint hmeta val hval k hk
      · exact (merged_iff hN hmerge hfd hmeta hval).mpr (h.members w hw fd hfd hint hmeta val hval)
    refine .store w k doc hcalls ?_ ?_ hfields
    · exact fun fd v hpk => (key_eq_iff hN hk hpk).mpr (h.pk fd v hpk)
    · intro fd v hpk hscalar
      have hmem := (Schema.findField_eq_some.mp hpk.field).1
      exact key_of_kept hpk hscalar (hfields fd hmem hpk.integer _ hpk.member)

/-- A rejected object changes no row. An accepted one addresses its pk's row and stores its
integers as they are exactly when they fit their fields. Two pk integers have different keys
exactly when they differ by no multiple of the type's `2 ^ w`. -/
theorem streamIntegers_iff (N : Nlohmann) (hN : N.Unchecked) (Y : Yikv) (schema : Schema)
    (obj : JsonObject) (idx : Y.Contents) :
    (∀ stop, (applied N Y schema obj idx).1 = .error stop →
      (applied N Y schema obj idx).2 = idx) ∧
    ((applied N Y schema obj idx).1 = .ok () →
      (ExactIntegers N Y schema obj idx ↔ IntegersFit N Y schema obj idx)) ∧
    ∀ obj' fd v v', PkInteger schema obj fd v → PkInteger schema obj' fd v' →
      (extractPkString N schema obj ≠ extractPkString N schema obj' ↔
        ∀ w ∈ fd.type.width, ¬ (2 ^ w : Int) ∣ v - v') := by
  refine ⟨fun stop h => rejected_unchanged h, fun hok => ?_, ?_⟩
  · rcases accepted_cases hok with ⟨k, hw, hk, hcalls⟩ | ⟨w, k, doc, hw, hk, hmerge, hcalls⟩
    · exact exact_delete_iff hN hw hk hcalls
    · exact exact_store_iff hN hw hk hmerge hcalls
  · intro obj' fd v v' h h'
    rw [Ne, key_eq_key_iff hN h h']
    obtain ⟨w, hw⟩ := Option.isSome_iff_exists.mp h.integer
    simp [hw]

/-! ## Pks that are cast -/

theorem plainJson_unchecked (texts : List (String × Json)) : (plainJson texts).Unchecked :=
  ⟨fun _ => rfl, fun _ => rfl⟩

/-- A user is upserted: 7 fits. -/
theorem userPatch_exact :
    ExactIntegers (plainJson []) .plain userSchema userPatch (fun _ => none) ↔
      IntegersFit (plainJson []) .plain userSchema userPatch fun _ => none :=
  (streamIntegers_iff (plainJson []) (plainJson_unchecked []) .plain userSchema userPatch
    fun _ => none).2.1 (by decide)

/-- A table with an Int32 pk. -/
def accountSchema : Schema where
  fields := [⟨"id", 1, .int32, false⟩, ⟨"balance", 2, .int64, false⟩]
  pk := "id"
  names := by decide
  ids := by decide

def deleteAccount : JsonObject :=
  .ofMembers [("_op", .string "delete"), ("id", .integer (2 ^ 32 + 7))]

/-- Account 7 is there, and no other. -/
def accounts : Yikv.plain.Contents := fun k => if k = "7" then some Yikv.plain.newDoc else none

/-- Account 4294967303 is asked for, and account 7 deleted. -/
theorem deleteAccount_wraps :
    (applied (plainJson []) .plain accountSchema deleteAccount accounts).1 = .ok () ∧
      (applied (plainJson []) .plain accountSchema deleteAccount accounts).2 "7" = none ∧
      (accounts "7").isSome = true ∧
      ¬ ExactIntegers (plainJson []) .plain accountSchema deleteAccount accounts := by
  have hcalls : calls (plainJson []) .plain accountSchema deleteAccount accounts =
      [.delete "7"] := rfl
  refine ⟨rfl, rfl, rfl, fun h => ?_⟩
  cases h with
  | delete k hcalls' hkey =>
    obtain rfl : "7" = k := by simpa using hcalls.symm.trans hcalls'
    have htext := hkey _ (2 ^ 32 + 7) ⟨rfl, rfl, rfl⟩
    exact absurd htext (by decide)
  | store w k doc hcalls' =>
    have hsame := hcalls.symm.trans hcalls'
    simp at hsame

end YikvServer.Stream
