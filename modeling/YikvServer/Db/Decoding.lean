import YikvServer.Db.RoundTrip
import YikvServer.Db.WireDecode

/-!
# Requests that reach out of their body

No handler looks at `req_len`, and none calls the generated `Verify`. A body is read within
its bounds, and refused where it is not well-formed, exactly when it is well-formed or one
of the handler's own checks refuses it before anything outside it is read.
-/
namespace YikvServer.Db.Wire

open YikvServer.Theory YikvServer.Theory.FlatBuffers YikvServer.Index YikvServer.Stream

/-! ## The handlers' own checks -/

/-- An entry is refused, and those before it are taken. -/
inductive RefusedAt (taken refused : Nat → Prop) : List Nat → Prop
  | here {i : Nat} {rest : List Nat} : refused i → RefusedAt taken refused (i :: rest)
  | later {i : Nat} {rest : List Nat} : taken i → RefusedAt taken refused rest →
      RefusedAt taken refused (i :: rest)

section Checks
variable (body : Buffer)

section Start
variable (acquire : String → Option Schema)

/-- There is no table name, it is empty, or no table has it. -/
def NameRefused (tname : Option Int) : Prop :=
  tname = none ∨ ∃ p, tname = some p ∧
    (size body p = .ok 0 ∨ ∃ name, text body p = .ok name ∧ acquire name = none)

/-- The first field is missing, or the table name is refused. -/
def StartRefused : Prop :=
  ∃ preq, getRoot body = .ok preq ∧ (getPointer body preq 4 = .ok none ∨
    ∃ first tname, getPointer body preq 4 = .ok (some first) ∧
      getPointer body preq 6 = .ok tname ∧ NameRefused body acquire tname)

/-- The first field is there, and the table is found. -/
def Started (schema : Schema) (first : Int) : Prop :=
  ∃ preq tname name, getRoot body = .ok preq ∧ getPointer body preq 4 = .ok (some first) ∧
    getPointer body preq 6 = .ok (some tname) ∧ text body tname = .ok name ∧ name ≠ "" ∧
    acquire name = some schema

end Start

section Rows
variable (Y : Yikv) (schema : Schema)

/-- The id is no field's, or the type is not the field's. -/
def EntryRefused (fv : Int) : Prop :=
  ∃ id, fieldId body fv = .ok id ∧ (schema.findFieldById id.toNat = none ∨
    ∃ fd vt, schema.findFieldById id.toNat = some fd ∧ vtype body fv = .ok vt ∧
      fieldValueMatchesSchema fd vt = false)

/-- The type is the field's, and the slot that it names can be read. -/
def EntryTaken (fv : Int) : Prop :=
  ∃ id fd vt v, fieldId body fv = .ok id ∧ schema.findFieldById id.toNat = some fd ∧
    vtype body fv = .ok vt ∧ fieldValueMatchesSchema fd vt = true ∧
    readValue body fv id vt = .ok v

/-- What an offset of a vector leads to. -/
def At (vec : Int) (holds : Int → Prop) (i : Nat) : Prop :=
  ∃ p, element body vec i = .ok p ∧ holds p

/-- An entry of the row is refused, or all are taken and make no pk. -/
def RowRefused (row : Int) : Prop :=
  (∃ fields n, getPointer body row 4 = .ok (some fields) ∧ size body fields = .ok n ∧
    RefusedAt (At body fields (EntryTaken body schema)) (At body fields (EntryRefused body schema))
      (List.range (turns n))) ∨
  ∃ doc, applyRowToDoc body Y schema Y.newDoc row = .ok doc ∧ extractPkString Y schema doc = ""

def RowTaken (row : Int) : Prop :=
  ∃ doc, applyRowToDoc body Y schema Y.newDoc row = .ok doc ∧ extractPkString Y schema doc ≠ ""

/-- There are no rows, or a row is refused. -/
def BatchRefused (rows : Int) : Prop :=
  ∃ n, size body rows = .ok n ∧ (n = 0 ∨
    RefusedAt (At body rows (RowTaken body Y schema)) (At body rows (RowRefused body Y schema))
      (List.range n))

end Rows

/-- The checks of a handler refuse the body on what lies within it. -/
def RefusedInside (Y : Yikv) (acquire : String → Option Schema) : Method → Prop
  | .get | .batchGet => StartRefused body acquire
  | .put => StartRefused body acquire ∨
      ∃ schema row, Started body acquire schema row ∧ RowRefused body Y schema row
  | .putBatch => StartRefused body acquire ∨
      ∃ schema rows, Started body acquire schema rows ∧ BatchRefused body Y schema rows

end Checks

/-! ## When a computation ends in an error response -/

def IsRefused {α : Type} (x : Except Fault α) : Prop := ∃ err, x = refuse err

section Refusals
variable {α β : Type} {r : Read α} {x : Except Fault α} {f : α → Except Fault β}

theorem isRefused_refuse (err : String) : IsRefused (refuse err : Except Fault α) := ⟨err, rfl⟩

theorem not_isRefused_ok (a : α) : ¬ IsRefused (.ok a : Except Fault α) :=
  fun ⟨_, h⟩ => nomatch h

theorem isRefused_error {e : Fault} :
    IsRefused (.error e : Except Fault α) ↔ ∃ err, e = .stop (.refused err) :=
  exists_congr fun _ => ⟨Except.error.inj, congrArg Except.error⟩

theorem not_isRefused_reading : ¬ IsRefused (reading r) := by
  rintro ⟨err, h⟩
  cases r with
  | ok a => cases h
  | error e => cases h

theorem isRefused_bind : IsRefused (x >>= f) ↔ IsRefused x ∨ ∃ a, x = .ok a ∧ IsRefused (f a) := by
  cases x with
  | ok a => simp [ok_bind, not_isRefused_ok]
  | error e =>
    simp only [error_bind, reduceCtorEq, false_and, exists_false, or_false, isRefused_error]

theorem isRefused_reading_bind {g : α → Except Fault β} :
    IsRefused (reading r >>= g) ↔ ∃ a, r = .ok a ∧ IsRefused (g a) := by
  simp only [isRefused_bind, not_isRefused_reading, false_or, reading_eq_ok]

theorem isRefused_map {g : α → β} : IsRefused (x.map g) ↔ IsRefused x := by
  cases x with
  | ok a => exact iff_of_false (not_isRefused_ok _) (not_isRefused_ok _)
  | error e => exact isRefused_error.trans isRefused_error.symm

/-- A loop that carries a state, where what becomes of an entry does not depend on it. -/
theorem isRefused_foldlM {turn : β → Nat → Except Fault β} {taken refused : Nat → Prop}
    (htaken : ∀ b i, (∃ b', turn b i = .ok b') ↔ taken i)
    (hrefused : ∀ b i, IsRefused (turn b i) ↔ refused i) (is : List Nat) (b : β) :
    IsRefused (is.foldlM turn b) ↔ RefusedAt taken refused is := by
  induction is generalizing b with
  | nil => exact iff_of_false (not_isRefused_ok b) fun h => nomatch h
  | cons i is ih =>
    rw [List.foldlM_cons, isRefused_bind, hrefused]
    constructor
    · rintro (h | ⟨b', hb', h⟩)
      · exact .here h
      · exact .later ((htaken b i).mp ⟨b', hb'⟩) ((ih b').mp h)
    · rintro (h | ⟨htake, h⟩)
      · exact .inl h
      · obtain ⟨b', hb'⟩ := (htaken b i).mpr htake
        exact .inr ⟨b', hb', (ih b').mpr h⟩

theorem isRefused_mapM {turn : Nat → Except Fault β} {taken refused : Nat → Prop}
    (htaken : ∀ i, (∃ b, turn i = .ok b) ↔ taken i)
    (hrefused : ∀ i, IsRefused (turn i) ↔ refused i) (is : List Nat) :
    IsRefused (is.mapM turn) ↔ RefusedAt taken refused is := by
  induction is with
  | nil => exact iff_of_false (not_isRefused_ok _) fun h => nomatch h
  | cons i is ih =>
    rw [List.mapM_cons, isRefused_bind, hrefused]
    constructor
    · rintro (h | ⟨b, hb, h⟩)
      · exact .here h
      · rcases isRefused_bind.mp h with h | ⟨_, -, h⟩
        · exact .later ((htaken i).mp ⟨b, hb⟩) (ih.mp h)
        · exact absurd h (not_isRefused_ok _)
    · rintro (h | ⟨htake, h⟩)
      · exact .inl h
      · obtain ⟨b, hb⟩ := (htaken i).mpr htake
        exact .inr ⟨b, hb, isRefused_bind.mpr (.inl (ih.mpr h))⟩

end Refusals

/-! ## Which computations are refused -/

section Parts
variable {body : Buffer} {acquire : String → Option Schema} {Y : Yikv} {schema : Schema}
  {p first : Int}

theorem acquireOrError_refused {tname : Option Int} :
    IsRefused (acquireOrError body acquire tname) ↔ NameRefused body acquire tname := by
  cases tname with
  | none => exact iff_of_true (isRefused_refuse _) (.inl rfl)
  | some p =>
    rw [acquireOrError, isRefused_reading_bind]
    constructor
    · rintro ⟨n, hn, h⟩
      refine .inr ⟨p, rfl, ?_⟩
      split at h
      · next hzero => exact .inl (hzero ▸ hn)
      · obtain ⟨name, hname, h⟩ := isRefused_reading_bind.mp h
        cases hacquire : acquire name with
        | none => exact .inr ⟨name, hname, hacquire⟩
        | some schema =>
          rw [hacquire] at h
          exact absurd h (not_isRefused_ok _)
    · rintro (h | ⟨_, ⟨rfl⟩, hsize | ⟨name, hname, hacquire⟩⟩)
      · cases h
      · exact ⟨0, hsize, isRefused_refuse _⟩
      · obtain ⟨n, hn, -⟩ := text_size hname
        refine ⟨n, hn, ?_⟩
        split
        · exact isRefused_refuse _
        · refine isRefused_reading_bind.mpr ⟨name, hname, ?_⟩
          rw [hacquire]
          exact isRefused_refuse _

theorem acquireOrError_ok {tname : Option Int} :
    acquireOrError body acquire tname = .ok schema ↔
      ∃ p name, tname = some p ∧ text body p = .ok name ∧ name ≠ "" ∧
        acquire name = some schema := by
  cases tname with
  | none => exact iff_of_false (fun h => nomatch h) fun ⟨_, _, h, _⟩ => nomatch h
  | some p =>
    rw [acquireOrError, bind_eq_ok]
    constructor
    · rintro ⟨n, hn, h⟩
      split at h
      · cases h
      · next hne =>
        obtain ⟨name, hname, h⟩ := bind_eq_ok.mp h
        obtain ⟨m, hm, hempty⟩ := text_size (reading_eq_ok.mp hname)
        obtain rfl := Except.ok.inj ((reading_eq_ok.mp hn).symm.trans hm)
        refine ⟨p, name, rfl, reading_eq_ok.mp hname, mt hempty.mpr hne, ?_⟩
        cases hacquire : acquire name with
        | none =>
          rw [hacquire] at h
          cases h
        | some found =>
          rw [hacquire] at h
          exact congrArg some (Except.ok.inj h)
    · rintro ⟨_, name, ⟨rfl⟩, hname, hne, hacquire⟩
      obtain ⟨n, hn, hempty⟩ := text_size hname
      refine ⟨n, reading_ok hn, ?_⟩
      rw [if_neg (mt hempty.mp hne), reading_ok hname, ok_bind, hacquire]

theorem begin_refused (missing : String) :
    IsRefused (begin body acquire missing) ↔ StartRefused body acquire := by
  unfold begin StartRefused
  rw [isRefused_reading_bind]
  refine exists_congr fun preq => and_congr_right fun _ => ?_
  rw [isRefused_reading_bind]
  constructor
  · rintro ⟨_ | first, hfirst, h⟩
    · exact .inl hfirst
    · obtain ⟨tname, htname, h⟩ := isRefused_reading_bind.mp h
      rcases isRefused_bind.mp h with h | ⟨_, -, h⟩
      · exact .inr ⟨first, tname, hfirst, htname, acquireOrError_refused.mp h⟩
      · exact absurd h (not_isRefused_ok _)
  · rintro (hfirst | ⟨first, tname, hfirst, htname, h⟩)
    · exact ⟨none, hfirst, isRefused_refuse _⟩
    · exact ⟨some first, hfirst, isRefused_reading_bind.mpr
        ⟨tname, htname, isRefused_bind.mpr (.inl (acquireOrError_refused.mpr h))⟩⟩

theorem begin_ok (missing : String) :
    begin body acquire missing = .ok (schema, first) ↔ Started body acquire schema first := by
  unfold begin Started
  simp only [bind_eq_ok, reading_eq_ok]
  constructor
  · rintro ⟨preq, hpreq, _ | first', hfirst, h⟩
    · cases h
    · obtain ⟨tname, htname, h⟩ := bind_eq_ok.mp h
      obtain ⟨found, hacquire, h⟩ := bind_eq_ok.mp h
      obtain ⟨rfl, rfl⟩ := Prod.mk.inj (Except.ok.inj h)
      obtain ⟨p, name, rfl, hname, hne, htable⟩ := acquireOrError_ok.mp hacquire
      exact ⟨preq, p, name, hpreq, hfirst, reading_eq_ok.mp htname, hname, hne, htable⟩
  · rintro ⟨preq, p, name, hpreq, hfirst, htname, hname, hne, htable⟩
    have hacquire : acquireOrError body acquire (some p) = .ok schema :=
      acquireOrError_ok.mpr ⟨p, name, rfl, hname, hne, htable⟩
    exact ⟨preq, hpreq, some first, hfirst, bind_eq_ok.mpr
      ⟨some p, reading_ok htname, bind_eq_ok.mpr ⟨schema, hacquire, rfl⟩⟩⟩

theorem readValue_slot {id : UInt16} {vt : ValueType} {v : FieldValue}
    (h : readValue body p id vt = .ok v) : v.fieldId = id ∧ v.vtype = vt := by
  cases vt with
  | none | unknown =>
    obtain rfl := Except.ok.inj h
    exact ⟨rfl, rfl⟩
  | _ =>
    obtain ⟨_, -, rfl⟩ := map_eq_ok.mp h
    exact ⟨rfl, rfl⟩

/-- What an entry that names its field's type does once its slot has been read. -/
theorem applyFieldValue_matching {id : UInt16} {fd : FieldDef} {vt : ValueType} {v : FieldValue}
    (hfind : schema.findFieldById id.toNat = some fd)
    (hmatch : fieldValueMatchesSchema fd vt = true) (hv : readValue body p id vt = .ok v)
    (doc : Y.Doc) : ∃ doc', Db.applyFieldValue Y schema doc v = .ok doc' := by
  obtain ⟨rfl, rfl⟩ := readValue_slot hv
  exact ⟨_, Db.applyFieldValue_ok hfind hmatch doc⟩

theorem applyFieldValue_taken (doc : Y.Doc) :
    (∃ doc', applyFieldValue body Y schema doc p = .ok doc') ↔ EntryTaken body schema p := by
  unfold applyFieldValue EntryTaken
  simp only [bind_eq_ok, reading_eq_ok]
  constructor
  · rintro ⟨doc', id, hid, h⟩
    cases hfind : schema.findFieldById id.toNat with
    | none =>
      rw [hfind] at h
      cases h
    | some fd =>
      rw [hfind] at h
      obtain ⟨vt, hvt, h⟩ := bind_eq_ok.mp h
      split at h
      · cases h
      · next hmatch =>
        obtain ⟨v, hv, -⟩ := bind_eq_ok.mp h
        exact ⟨id, fd, vt, v, hid, hfind, reading_eq_ok.mp hvt, Bool.eq_true_of_not_eq_false hmatch,
          reading_eq_ok.mp hv⟩
  · rintro ⟨id, fd, vt, v, hid, hfind, hvt, hmatch, hv⟩
    obtain ⟨doc', hdoc'⟩ := applyFieldValue_matching hfind hmatch hv doc
    refine ⟨doc', id, hid, ?_⟩
    rw [hfind]
    dsimp only
    rw [reading_ok hvt, ok_bind, if_neg (by simp [hmatch]), reading_ok hv, ok_bind, hdoc']
    rfl

theorem applyFieldValue_refused (doc : Y.Doc) :
    IsRefused (applyFieldValue body Y schema doc p) ↔ EntryRefused body schema p := by
  unfold applyFieldValue EntryRefused
  rw [isRefused_reading_bind]
  refine exists_congr fun id => and_congr_right fun _ => ?_
  cases hfind : schema.findFieldById id.toNat with
  | none => exact iff_of_true (isRefused_refuse _) (.inl rfl)
  | some fd =>
    dsimp only
    rw [isRefused_reading_bind]
    constructor
    · rintro ⟨vt, hvt, h⟩
      split at h
      · next hmatch => exact .inr ⟨fd, vt, rfl, hvt, hmatch⟩
      · next hmatch =>
        obtain ⟨v, hv, h⟩ := isRefused_reading_bind.mp h
        obtain ⟨doc', hdoc'⟩ := applyFieldValue_matching hfind
          (Bool.eq_true_of_not_eq_false hmatch) hv doc
        rw [hdoc'] at h
        exact absurd h (not_isRefused_ok doc')
    · rintro (h | ⟨_, vt, ⟨rfl⟩, hvt, hmatch⟩)
      · cases h
      · refine ⟨vt, hvt, ?_⟩
        rw [if_pos hmatch]
        exact isRefused_refuse _

theorem applyEntry_taken {fields : Int} (doc : Y.Doc) (i : Nat) :
    (∃ doc', applyEntry body Y schema fields doc i = .ok doc') ↔
      At body fields (EntryTaken body schema) i := by
  unfold applyEntry At
  simp only [bind_eq_ok, reading_eq_ok, ← applyFieldValue_taken (Y := Y) doc]
  exact ⟨fun ⟨doc', q, hq, h⟩ => ⟨q, hq, doc', h⟩, fun ⟨q, hq, doc', h⟩ => ⟨doc', q, hq, h⟩⟩

theorem applyEntry_refused {fields : Int} (doc : Y.Doc) (i : Nat) :
    IsRefused (applyEntry body Y schema fields doc i) ↔
      At body fields (EntryRefused body schema) i := by
  unfold applyEntry At
  rw [isRefused_reading_bind]
  exact exists_congr fun q => and_congr_right fun _ => applyFieldValue_refused doc

theorem rowDoc_refused (noPk : String) :
    IsRefused (rowDoc body Y schema noPk p) ↔ RowRefused body Y schema p := by
  unfold rowDoc RowRefused
  rw [isRefused_bind]
  refine or_congr ?_ (exists_congr fun doc => and_congr_right fun _ => ?_)
  · unfold applyRowToDoc
    rw [isRefused_reading_bind]
    constructor
    · rintro ⟨_ | fields, hfields, h⟩
      · exact absurd h (not_isRefused_ok _)
      · obtain ⟨n, hn, h⟩ := isRefused_reading_bind.mp h
        exact ⟨fields, n, hfields, hn,
          (isRefused_foldlM applyEntry_taken applyEntry_refused _ _).mp h⟩
    · rintro ⟨fields, n, hfields, hn, h⟩
      exact ⟨some fields, hfields, isRefused_reading_bind.mpr
        ⟨n, hn, (isRefused_foldlM applyEntry_taken applyEntry_refused _ _).mpr h⟩⟩
  · split
    · next hpk => exact iff_of_true (isRefused_refuse _) hpk
    · next hpk => exact iff_of_false (not_isRefused_ok _) hpk

theorem rowDoc_taken (noPk : String) :
    (∃ doc, rowDoc body Y schema noPk p = .ok doc) ↔ RowTaken body Y schema p := by
  unfold rowDoc RowTaken
  simp only [bind_eq_ok]
  constructor
  · rintro ⟨_, doc, hdoc, h⟩
    split at h
    · cases h
    · next hpk => exact ⟨doc, hdoc, hpk⟩
  · rintro ⟨doc, hdoc, hpk⟩
    exact ⟨doc, doc, hdoc, if_neg hpk⟩

theorem stageRow_taken {rows : Int} (i : Nat) :
    (∃ doc, stageRow body Y schema rows i = .ok doc) ↔ At body rows (RowTaken body Y schema) i := by
  unfold stageRow At
  simp only [bind_eq_ok, reading_eq_ok, ← rowDoc_taken "cannot derive pk"]
  exact ⟨fun ⟨doc, q, hq, h⟩ => ⟨q, hq, doc, h⟩, fun ⟨q, hq, doc, h⟩ => ⟨doc, q, hq, h⟩⟩

theorem stageRow_refused {rows : Int} (i : Nat) :
    IsRefused (stageRow body Y schema rows i) ↔ At body rows (RowRefused body Y schema) i := by
  unfold stageRow At
  rw [isRefused_reading_bind]
  exact exists_congr fun q => and_congr_right fun _ => rowDoc_refused _

end Parts

/-! ## Runs of the handlers -/

section Runs
variable {Y : Yikv} {α β : Type}

/-- Run alone, the program ends in an error response and leaves the index as it was. -/
def RunRefused (schema : Schema) (idx : Y.Contents) (p : Prog Fault (Yikv.KvOp.Res Y) α) : Prop :=
  ∃ err, Prog.run (Y.exec schema) p idx = (.error (.stop (.refused err)), idx)

variable {body : Buffer} {acquire : String → Option Schema} {schema table : Schema}
  {idx : Y.Contents}

theorem runRefused_fail {fault : Fault} :
    RunRefused schema idx (.fail fault : Prog Fault (Yikv.KvOp.Res Y) α) ↔
      IsRefused (.error fault : Except Fault α) := by
  rw [isRefused_error]
  exact exists_congr fun err => ⟨fun h => Except.error.inj (Prod.mk.inj h).1,
    fun h => Prod.ext (congrArg Except.error h) rfl⟩

theorem not_runRefused_pure (a : α) :
    ¬ RunRefused schema idx (.pure a : Prog Fault (Yikv.KvOp.Res Y) α) :=
  fun ⟨_, h⟩ => nomatch (Prod.mk.inj h).1

theorem runRefused_lift_bind {x : Except Fault α} {f : α → Prog Fault (Yikv.KvOp.Res Y) β} :
    RunRefused schema idx (Prog.lift x >>= f) ↔
      IsRefused x ∨ ∃ a, x = .ok a ∧ RunRefused schema idx (f a) := by
  cases x with
  | ok a => simp [not_isRefused_ok]
  | error e =>
    simp only [Prog.lift, Prog.fail_bind, reduceCtorEq, false_and, exists_false, or_false]
    rw [runRefused_fail, isRefused_error, isRefused_error]

/-- The response is made after all that can be refused. -/
theorem runRefused_bind_pure {p : Prog Fault (Yikv.KvOp.Res Y) α} {f : α → β} :
    RunRefused schema idx (p >>= fun a => Prog.pure (f a)) ↔ RunRefused schema idx p := by
  refine exists_congr fun err => ?_
  rw [Prog.run_bind]
  cases hrun : Prog.run (Y.exec schema) p idx with
  | mk result idx' =>
    cases result with
    | ok a => simp
    | error e => simp

/-- The lock and its release leave the index as it is. -/
theorem runRefused_locked {work : Except Fault (Yikv.KvOp Y)} :
    RunRefused schema idx (locked Y work) ↔ IsRefused work := by
  cases work with
  | error fault =>
    rw [isRefused_error]
    exact exists_congr fun err => ⟨fun h => Except.error.inj (Prod.mk.inj h).1,
      fun h => Prod.ext (congrArg Except.error h) rfl⟩
  | ok op => exact iff_of_false (fun ⟨_, h⟩ => nomatch (Prod.mk.inj h).1) (not_isRefused_ok op)

/-- Looking keys up is not refused. -/
theorem not_runRefused_batchGetRows {pks : Int} (is : List Nat) :
    ¬ RunRefused schema idx (batchGetRows body Y table pks is) := by
  induction is with
  | nil => exact not_runRefused_pure _
  | cons i is ih =>
    rw [batchGetRows, runRefused_lift_bind]
    rintro (h | ⟨pk, -, err, h⟩)
    · exact not_isRefused_reading h
    · refine ih ⟨err, ?_⟩
      rw [Prog.perform_bind, Prog.run_step, Prog.run_bind] at h
      cases hrun : Prog.run (Y.exec schema) (batchGetRows body Y table pks is) idx with
      | mk result idx' =>
        have hget : (Y.exec schema (.get pk) idx).2 = idx := rfl
        rw [hget, hrun] at h
        cases result with
        | error e => exact h
        | ok rows =>
          dsimp only at h
          split at h <;> cases (Prod.mk.inj h).1

/-- A handler alone is refused exactly where its checks refuse the body. -/
theorem handle_refused (method : Method) :
    RunRefused schema idx (handle Y acquire method body) ↔
      RefusedInside body Y acquire method := by
  cases method with
  | get =>
    refine runRefused_bind_pure.trans ?_
    rw [handleGet, runRefused_lift_bind, begin_refused]
    refine or_iff_left ?_
    rintro ⟨⟨table, pk⟩, -, h⟩
    rcases runRefused_lift_bind.mp h with h | ⟨pk, -, err, h⟩
    · exact not_isRefused_reading h
    · rw [Prog.perform_bind, Prog.run_step] at h
      cases hit : (Y.exec schema (.get pk) idx).1 with
      | none =>
        rw [hit] at h
        cases (Prod.mk.inj h).1
      | some doc =>
        rw [hit] at h
        cases (Prod.mk.inj h).1
  | put =>
    refine runRefused_bind_pure.trans ?_
    rw [handlePut, runRefused_lift_bind, begin_refused]
    refine or_congr_right ⟨?_, ?_⟩
    · rintro ⟨⟨table, row⟩, hbegin, h⟩
      exact ⟨table, row, (begin_ok _).mp hbegin,
        (rowDoc_refused _).mp (isRefused_map.mp (runRefused_locked.mp h))⟩
    · rintro ⟨table, row, hbegin, h⟩
      exact ⟨(table, row), (begin_ok _).mpr hbegin,
        runRefused_locked.mpr (isRefused_map.mpr ((rowDoc_refused _).mpr h))⟩
  | putBatch =>
    refine runRefused_bind_pure.trans ?_
    rw [handlePutBatch, runRefused_lift_bind, begin_refused]
    refine or_congr_right ⟨?_, ?_⟩
    · rintro ⟨⟨table, rows⟩, hbegin, h⟩
      refine ⟨table, rows, (begin_ok _).mp hbegin, ?_⟩
      rcases runRefused_lift_bind.mp h with h | ⟨n, hn, h⟩
      · exact absurd h not_isRefused_reading
      · refine ⟨n, reading_eq_ok.mp hn, ?_⟩
        split at h
        · next hzero => exact .inl hzero
        · exact .inr ((isRefused_mapM stageRow_taken stageRow_refused _).mp
            (isRefused_map.mp (runRefused_locked.mp h)))
    · rintro ⟨table, rows, hbegin, n, hn, h⟩
      refine ⟨(table, rows), (begin_ok _).mpr hbegin,
        runRefused_lift_bind.mpr (.inr ⟨n, reading_ok hn, ?_⟩)⟩
      by_cases hzero : n = 0
      · rw [if_pos hzero]
        exact ⟨_, rfl⟩
      · rw [if_neg hzero]
        exact runRefused_locked.mpr (isRefused_map.mpr
          ((isRefused_mapM stageRow_taken stageRow_refused _).mpr (h.resolve_left hzero)))
  | batchGet =>
    refine runRefused_bind_pure.trans ?_
    rw [handleBatchGet, runRefused_lift_bind, begin_refused]
    refine or_iff_left ?_
    rintro ⟨⟨table, pks⟩, -, h⟩
    rcases runRefused_lift_bind.mp h with h | ⟨n, -, h⟩
    · exact not_isRefused_reading h
    · exact not_runRefused_batchGetRows _ (runRefused_bind_pure.mp h)

end Runs

/-! ## The condition -/

/-- What a client sends is read within its bounds, and answered with an error response that
leaves the index as it was unless it is a well-formed request. -/
def DecodedInside (Y : Yikv) (acquire : String → Option Schema) (stack : Stack) (method : Method)
    (body : Buffer) : Prop :=
  ∃ p, call Y acquire stack method body = .ok p ∧ ∀ schema idx,
    (∀ r, (Prog.run (Y.exec schema) p idx).1 ≠ .error (.overread r)) ∧
    (wellFormed body method = false → RunRefused schema idx p)

/-- On either stack, a body is read within its bounds and refused unless it is well-formed
exactly when it is well-formed or the handler's own checks refuse it on what lies within
it. -/
theorem decodedInside_iff (Y : Yikv) (acquire : String → Option Schema) (stack : Stack)
    (method : Method) (body : Buffer) :
    DecodedInside Y acquire stack method body ↔
      wellFormed body method = true ∨ RefusedInside body Y acquire method := by
  unfold DecodedInside
  rw [call_eq]
  constructor
  · rintro ⟨p, ⟨rfl⟩, h⟩
    cases hwf : wellFormed body method with
    | true => exact .inl rfl
    | false => exact .inr ((handle_refused method).mp ((h profileSchema fun _ => none).2 hwf))
  · intro h
    refine ⟨_, rfl, fun schema idx => ?_⟩
    rcases h with hwf | hrefused
    · obtain ⟨req, hreq⟩ := handle_of_wellFormed hwf
      refine ⟨fun r hr => ?_, fun hnot => absurd hwf (by simp [hnot])⟩
      rw [hreq, Prog.run_mapError] at hr
      cases hrun : (Prog.run (Y.exec schema) (req.handle Y acquire) idx).1 with
      | ok resp =>
        rw [hrun] at hr
        cases hr
      | error e =>
        rw [hrun] at hr
        cases hr
    · have hrun : RunRefused schema idx (handle Y acquire method body) :=
        (handle_refused method).mpr hrefused
      refine ⟨fun r hr => ?_, fun _ => hrun⟩
      obtain ⟨err, herr⟩ := hrun
      rw [herr] at hr
      cases hr

/-- Reading the root of an empty body reaches out of it; a body that ends before the
terminator of its last text is answered. -/
theorem body_not_checked :
    handle .plain (fun _ => none) .get [] = .fail (.overread ⟨0, 4⟩) ∧
      wellFormed (getBody.take 37) .get = false ∧
      Prog.run (Yikv.plain.exec profileSchema)
          (handle .plain (fun _ => some profileSchema) .get (getBody.take 37)) (fun _ => none) =
        (.ok (.get ⟨false, some "", none⟩), fun _ => none) ∧
      ¬ ∀ Y acquire stack method body, DecodedInside Y acquire stack method body := by
  have hempty : handle .plain (fun _ => none) .get [] = .fail (.overread ⟨0, 4⟩) := rfl
  refine ⟨hempty, by decide +kernel, rfl, fun h => ?_⟩
  obtain ⟨p, hp, hinside⟩ := h .plain (fun _ => none) .grpc .get []
  obtain rfl := Except.ok.inj hp
  refine (hinside profileSchema fun _ => none).1 ⟨0, 4⟩ ?_
  rw [hempty]
  rfl

end YikvServer.Db.Wire
