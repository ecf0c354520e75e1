import YikvServer.Kafka.Source
import YikvServer.Stream.RowChange

/-!
# Recovery by replay

A source that crashes anywhere starts again at or before the message it was in, so
calls are repeated. The rows converge to those of one uninterrupted run when no
merge brings array elements and no batch has an insertion whose failure depends on
the index in front of another object.
-/
namespace YikvServer.Kafka

open YikvServer.Theory YikvServer.Theory.Replay YikvServer.Index YikvServer.Stream

section Spec
variable (N : Nlohmann) (Y : Yikv) (schema : Schema) (log : Log)

def objectsOf : Json → List JsonObject
  | .array items => items.filterMap fun
    | .object members => some (.ofMembers members)
    | _ => none
  | .object members => [.ofMembers members]
  | _ => []

/-- An insertion that throws while its row is absent: the pk is fine and another
member is not. -/
def InsertThrows (obj : JsonObject) : Prop :=
  opOf N obj = .ok "insert" ∧ (∃ k, extractPkString N schema obj = .ok k) ∧
    ∃ e, mergeJsonIntoDoc N Y schema Y.newDoc obj = .error (.thrown e)

/-- No such insertion stands before another object of its batch. -/
def InsertsLast (items : List Json) : Prop :=
  ∀ before members after, items = before ++ .object members :: after →
    InsertThrows N Y schema (.ofMembers members) → ∀ e ∈ after, isObject e = false

/-- A message whose replay does no harm. -/
structure Replayable (payload : String) : Prop where
  appends : ∀ j, N.parse payload = .ok j → ∀ obj ∈ objectsOf j, AppendsNothing N schema obj
  inserts : ∀ items, N.parse payload = .ok (.array items) → InsertsLast N Y schema items

/-- One run without a crash over the same log. -/
def uninterrupted (idx : Y.Contents) : Y.Contents :=
  ((handleEach N (log.messages.map Message.payload)).run (callExec N Y schema) idx).2

/-- The whole log has been consumed. -/
def Drained (s : Source Y) : Prop := ∃ next, s.phase = .polling next ∧ log.since next = []

/-- Whatever crashes, restarts and torn saves a source goes through from an index
and no offset file, it ends with the rows of one uninterrupted run. -/
def Converges (idx : Y.Contents) : Prop :=
  ∀ events s, Runs.exec (Source.step N Y schema log) ⟨idx, none, .down, []⟩ events = some s →
    Drained Y log s → view Y schema s.idx = view Y schema (uninterrupted N Y schema log idx)

/-- The calls of a message, in every index the same. -/
def callsOf (payload : String) : List JsonObject :=
  (handlePayload N payload).trace (callExec N Y schema) fun _ => none

end Spec

variable {N : Nlohmann} {Y : Yikv} {schema : Schema} {log : Log} {obj : JsonObject}

def Throws (r : Except Stop Unit) : Prop := ∃ e, r = .error (.thrown e)

/-- Apart from such insertions, throwing does not depend on the index. -/
theorem throws_any (h : ¬ InsertThrows N Y schema obj) {idx : Y.Contents}
    (ht : Throws (applied N Y schema obj idx).1) (idx' : Y.Contents) :
    Throws (applied N Y schema obj idx').1 := by
  cases hk : extractPkString N schema obj with
  | error e =>
    obtain ⟨stop, hstop⟩ := run_noPk Y hk
    rwa [hstop] at ht ⊢
  | ok k =>
    by_cases hd : opOf N obj = .ok "delete"
    · rw [applied_delete hd, run_applyDelete hk] at ht
      obtain ⟨e, he⟩ := ht
      cases he
    by_cases hi : opOf N obj = .ok "insert"
    · rw [applied_insert hi, run_applyInsert hk] at ht
      exfalso
      cases hrow : idx k with
      | some old =>
        rw [hrow] at ht
        obtain ⟨e, he⟩ := ht
        cases he
      | none =>
        rw [hrow] at ht
        dsimp only at ht
        cases hm : mergeJsonIntoDoc N Y schema Y.newDoc obj with
        | ok doc =>
          rw [hm] at ht
          obtain ⟨e, he⟩ := ht
          cases he
        | error stop =>
          rw [hm] at ht
          obtain ⟨e, he⟩ := ht
          obtain rfl := Except.error.inj he
          exact h ⟨hi, ⟨k, hk⟩, e, hm⟩
    by_cases hu : opOf N obj = .ok "upsert" ∨ opOf N obj = .ok ""
    · rw [applied_upsert hu, run_applyUpsertMerge hk] at ht ⊢
      cases hm : mergeJsonIntoDoc N Y schema (baseDoc Y schema (idx k)) obj with
      | ok doc =>
        rw [hm] at ht
        obtain ⟨e, he⟩ := ht
        cases he
      | error stop =>
        rw [hm] at ht
        rw [mergeJson_error_any hm]
        exact ht
    · obtain ⟨stop, hstop⟩ := applied_unknown Y schema rfl hd hi (fun h => hu (Or.inl h))
        fun h => hu (Or.inr h)
      rwa [hstop] at ht ⊢

/-! ## The calls of a message -/

private abbrev caught (p : Prog JsonException CallRes Unit) : Prog Empty CallRes Unit :=
  p.handle fun _ => .pure ()

theorem performs_nothing {items : List Json} (h : ∀ e ∈ items, isObject e = false) :
    (caught (applyElements items)).Performs (callExec N Y schema) [] := by
  induction items with
  | nil => rfl
  | cons item rest ih =>
    cases item with
    | object members => cases h _ List.mem_cons_self
    | _ => exact ih fun e he => h e (List.mem_cons_of_mem _ he)

/-- One call for the object; unless it throws, the calls for the rest follow. -/
theorem performs_object {members : List (String × Json)} {rest : List Json} {L : List JsonObject}
    (hthrows : ∀ idx, Throws (callExec N Y schema (.ofMembers members) idx).1 → L = [])
    (hgoes : ∀ idx, ¬ Throws (callExec N Y schema (.ofMembers members) idx).1 →
      (caught (applyElements rest)).Performs (callExec N Y schema) L) :
    (caught (applyElements (.object members :: rest))).Performs (callExec N Y schema)
      (.ofMembers members :: L) := by
  refine ⟨L, rfl, fun idx => ?_⟩
  have hthrow := hthrows idx
  have hgo := hgoes idx
  generalize (callExec N Y schema (.ofMembers members) idx).1 = result at hthrow hgo ⊢
  rcases result with (_ | e) | _
  · exact hgo (by rintro ⟨e, ⟨⟩⟩)
  · obtain rfl := hthrow ⟨e, rfl⟩
    rfl
  · exact hgo (by rintro ⟨e, ⟨⟩⟩)

theorem performs_elements {items : List Json} (h : InsertsLast N Y schema items) :
    ∃ L, (caught (applyElements items)).Performs (callExec N Y schema) L ∧
      ∀ obj ∈ L, obj ∈ objectsOf (.array items) := by
  induction items with
  | nil => exact ⟨[], rfl, by simp⟩
  | cons item rest ih =>
    have hrest : InsertsLast N Y schema rest := fun before members after hsplit =>
      h (item :: before) members after (by rw [hsplit]; rfl)
    obtain ⟨L, hL, hmem⟩ := ih hrest
    cases item with
    | object members =>
      have hself : JsonObject.ofMembers members ∈
          objectsOf (.array (.object members :: rest)) := by simp [objectsOf]
      by_cases hthrow : InsertThrows N Y schema (.ofMembers members)
      · have hnone : (caught (applyElements rest)).Performs (callExec N Y schema) [] :=
          performs_nothing (h [] members rest rfl hthrow)
        exact ⟨[.ofMembers members], performs_object (fun _ _ => rfl) fun _ _ => hnone,
          by simpa using hself⟩
      by_cases hfirst : Throws (applied N Y schema (.ofMembers members) fun _ => none).1
      · refine ⟨[.ofMembers members], performs_object (fun _ _ => rfl) fun idx hnot => ?_,
          by simpa using hself⟩
        exact absurd (throws_any hthrow hfirst idx) hnot
      · refine ⟨.ofMembers members :: L, performs_object (fun idx ht => ?_) fun _ _ => hL, ?_⟩
        · exact absurd (throws_any hthrow ht _) hfirst
        · intro obj hobj
          rcases List.mem_cons.mp hobj with rfl | hobj
          · exact hself
          · have hin := hmem obj hobj
            simp only [objectsOf, List.filterMap_cons] at hin ⊢
            exact List.mem_cons_of_mem _ hin
    | _ => exact ⟨L, hL, hmem⟩

theorem performs_payload {payload : String} (h : Replayable N Y schema payload) :
    (handlePayload N payload).Performs (callExec N Y schema) (callsOf N Y schema payload) ∧
      ∀ obj ∈ callsOf N Y schema payload, AppendsNothing N schema obj := by
  suffices hex : ∃ L, (handlePayload N payload).Performs (callExec N Y schema) L ∧
      ∀ obj ∈ L, AppendsNothing N schema obj by
    obtain ⟨L, hL, hobj⟩ := hex
    have hcalls : callsOf N Y schema payload = L := Prog.Performs.trace_eq _ hL _
    rw [hcalls]
    exact ⟨hL, hobj⟩
  unfold handlePayload
  cases hp : N.parse payload with
  | error e => exact ⟨[], rfl, by simp⟩
  | ok j =>
    have happ := h.appends j hp
    cases j with
    | array items =>
      obtain ⟨L, hL, hmem⟩ := performs_elements (h.inserts items hp)
      exact ⟨L, hL, fun obj hobj => happ obj (hmem obj hobj)⟩
    | object members =>
      refine ⟨[.ofMembers members], ⟨[], rfl, fun idx => ?_⟩, fun obj hobj => ?_⟩
      · rcases (callExec N Y schema (.ofMembers members) idx).1 with (_ | _) | _ <;> rfl
      · exact happ obj (by simpa [objectsOf] using hobj)
    | _ => exact ⟨[], rfl, by simp⟩

/-! ## The invariant of a run -/

/-- The changes of the messages from an offset on. -/
def changesSince (N : Nlohmann) (Y : Yikv) (schema : Schema) (log : Log) (start : Int) :
    List (Op String (FieldVal schema)) :=
  (log.since start).flatMap fun m => (callsOf N Y schema m.payload).map (changeOf N schema)

/-- Reading the log from `start` once more leads to `final`. -/
def Settles (N : Nlohmann) (Y : Yikv) (schema : Schema) (log : Log)
    (final : String → Option (Yikv.Row schema)) (idx : Y.Contents) (start : Int) : Prop :=
  applyOps (defaultRow schema) (changesSince N Y schema log start) (view Y schema idx) = final

/-- From wherever the source stands or might restart, the log leads to `final`. -/
def Recovers (N : Nlohmann) (Y : Yikv) (schema : Schema) (log : Log)
    (final : String → Option (Yikv.Row schema)) (s : Source Y) : Prop :=
  match s.phase with
  | .down => ∀ r ≤ loadOffset s.file, Settles N Y schema log final s.idx r
  | .polling next =>
    loadOffset s.file ≤ next ∧ ∀ r ≤ next, Settles N Y schema log final s.idx r
  | .applying m rest =>
    m ∈ log.messages ∧ loadOffset s.file ≤ m.offset ∧
      (∀ r ≤ m.offset, Settles N Y schema log final s.idx r) ∧
      ∃ done left, callsOf N Y schema m.payload = done ++ left ∧
        rest.Performs (callExec N Y schema) left ∧
        applyOps (defaultRow schema)
          (left.map (changeOf N schema) ++ changesSince N Y schema log (m.offset + 1))
          (view Y schema s.idx) = final
  | .saving o => (0 ≤ o ∧ o < int64Max) ∧ loadOffset s.file ≤ o + 1 ∧
      ∀ r ≤ o + 1, Settles N Y schema log final s.idx r

variable {final : String → Option (Yikv.Row schema)} {s s' : Source Y} {e : Event}

theorem changesSince_head {start : Int} {m : Message} {rest : List Message}
    (h : log.since start = m :: rest) : changesSince N Y schema log start =
      (callsOf N Y schema m.payload).map (changeOf N schema) ++
        changesSince N Y schema log (m.offset + 1) := by
  unfold changesSince
  rw [h, Log.since_cons h]
  rfl

variable (N Y schema) in
/-- Reading from before a message passes its calls. -/
theorem changesSince_split {m : Message} {r : Int} (hm : m ∈ log.messages) (hr : r ≤ m.offset) :
    ∃ before, changesSince N Y schema log r = before ++
      ((callsOf N Y schema m.payload).map (changeOf N schema) ++
        changesSince N Y schema log (m.offset + 1)) := by
  obtain ⟨pre, hsplit⟩ := Log.since_split hm hr
  refine ⟨pre.flatMap fun m => (callsOf N Y schema m.payload).map (changeOf N schema), ?_⟩
  unfold changesSince
  rw [hsplit]
  simp

/-- A call in the middle of a message keeps every restart point settled. -/
theorem Recovers.call {m : Message} {obj : JsonObject} {done left : List JsonObject}
    {idx : Y.Contents} (hpk : schema.pk ∉ metaFields) (happ : AppendsNothing N schema obj)
    (hm : m ∈ log.messages) (hcalls : callsOf N Y schema m.payload = done ++ obj :: left)
    (hsettles : ∀ r ≤ m.offset, Settles N Y schema log final idx r)
    (hrest : applyOps (defaultRow schema)
      ((obj :: left).map (changeOf N schema) ++ changesSince N Y schema log (m.offset + 1))
      (view Y schema idx) = final) :
    (∀ r ≤ m.offset, Settles N Y schema log final (callExec N Y schema obj idx).2 r) ∧
      applyOps (defaultRow schema)
        (left.map (changeOf N schema) ++ changesSince N Y schema log (m.offset + 1))
        (view Y schema (callExec N Y schema obj idx).2) = final := by
  have hview : view Y schema (callExec N Y schema obj idx).2 =
      applyOp (defaultRow schema) (view Y schema idx) (changeOf N schema obj) :=
    view_applied hpk happ idx
  rw [hview]
  refine ⟨fun r hr => ?_, hrest⟩
  have hr' := hsettles r hr
  obtain ⟨before, hbefore⟩ := changesSince_split N Y schema hm hr
  have hsplit : changesSince N Y schema log r = (before ++ done.map (changeOf N schema)) ++
      changeOf N schema obj :: (left.map (changeOf N schema) ++
        changesSince N Y schema log (m.offset + 1)) := by
    rw [hbefore, hcalls]
    simp
  unfold Settles at hr' ⊢
  rw [hview, hsplit]
  rw [hsplit] at hr'
  exact applyOps_replay hr' hrest

/-- Every step keeps the restart points settled, crashes and torn saves included. -/
theorem Recovers.step (hpk : schema.pk ∉ metaFields)
    (hlog : ∀ m ∈ log.messages, Replayable N Y schema m.payload)
    (h : Recovers N Y schema log final s) (hs : s.step N Y schema log e = some s') :
    Recovers N Y schema log final s' := by
  obtain ⟨idx, file, phase, processed⟩ := s
  cases e with
  | start =>
    cases phase with
    | down => obtain rfl := Option.some.inj hs; exact ⟨Int.le_refl _, h⟩
    | _ => cases hs
  | stop =>
    cases phase with
    | polling next =>
      obtain rfl := Option.some.inj hs
      exact fun r hr => h.2 r (hr.trans h.1)
    | _ => cases hs
  | quiet =>
    cases phase with
    | polling next => obtain rfl := Option.some.inj hs; exact h
    | _ => cases hs
  | fetch =>
    cases phase with
    | polling next =>
      cases hnext : log.since next with
      | nil => simp [Source.step, hnext] at hs
      | cons m rest =>
        simp only [Source.step, hnext, List.head?_cons, Option.map_some] at hs
        obtain rfl := Option.some.inj hs
        obtain ⟨hfile, hall⟩ := h
        obtain ⟨hm, hle⟩ := Log.mem_since.mp (hnext ▸ List.mem_cons_self : m ∈ log.since next)
        have hnow := hall next (Int.le_refl _)
        have hperf := (performs_payload (hlog m hm)).1
        refine ⟨hm, hfile.trans hle, fun r hr => ?_, [], _, rfl, hperf, ?_⟩
        · -- Nothing lies between the position and the message.
          rcases le_or_gt r next with hr' | hr'
          · exact hall r hr'
          · have hsame : log.since r = log.since next :=
              (Log.since_upto hnext hr'.le hr).trans hnext.symm
            unfold Settles changesSince at hnow ⊢
            rwa [hsame]
        · unfold Settles at hnow
          rwa [changesSince_head hnext] at hnow
    | _ => cases hs
  | call =>
    cases phase with
    | applying m rest =>
      cases rest with
      | step obj k =>
        obtain rfl := Option.some.inj hs
        obtain ⟨hm, hfile, hall, done, left, hcalls, ⟨left, rfl, hperf⟩, hrest⟩ := h
        have happ := (performs_payload (hlog m hm)).2 obj (by rw [hcalls]; simp)
        obtain ⟨hall', hrest'⟩ := Recovers.call hpk happ hm hcalls hall hrest
        exact ⟨hm, hfile, hall', done ++ [obj], left, by rw [hcalls]; simp, hperf idx, hrest'⟩
      | _ => cases hs
    | _ => cases hs
  | finish =>
    cases phase with
    | applying m rest =>
      cases rest with
      | pure u =>
        obtain rfl := Option.some.inj hs
        obtain ⟨hm, hfile, hall, done, left, hcalls, rfl, hrest⟩ := h
        refine ⟨log.bounded m hm, hfile.trans (by omega), fun r hr => ?_⟩
        rcases Int.lt_or_eq_of_le hr with hr | rfl
        · exact hall r (by omega)
        · exact hrest
      | _ => cases hs
    | _ => cases hs
  | torn n =>
    cases phase with
    | saving o =>
      obtain rfl := Option.some.inj hs
      exact ⟨h.1, loadOffset_torn h.1.1 h.1.2.le n, h.2.2⟩
    | _ => cases hs
  | save =>
    cases phase with
    | saving o =>
      obtain rfl := Option.some.inj hs
      exact ⟨(loadOffset_saved h.1.1 h.1.2.le).le, h.2.2⟩
    | _ => cases hs
  | saveFails =>
    cases phase with
    | saving o => obtain rfl := Option.some.inj hs; exact h.2
    | _ => cases hs
  | crash =>
    obtain rfl := Option.some.inj hs
    cases phase with
    | down => exact h
    | polling next => exact fun r hr => h.2 r (hr.trans h.1)
    | applying m rest => exact fun r hr => h.2.2.1 r (hr.trans h.2.1)
    | saving o => exact fun r hr => h.2.2 r (hr.trans h.2.1)

/-! ## Convergence -/

theorem view_performs (hpk : schema.pk ∉ metaFields) {p : Prog Empty CallRes Unit}
    {L : List JsonObject} (hp : p.Performs (callExec N Y schema) L)
    (happ : ∀ obj ∈ L, AppendsNothing N schema obj) (idx : Y.Contents) :
    view Y schema (p.run (callExec N Y schema) idx).2 =
      applyOps (defaultRow schema) (L.map (changeOf N schema)) (view Y schema idx) := by
  induction p generalizing L idx with
  | pure u => obtain rfl := hp; rfl
  | fail e => exact e.elim
  | step obj k ih =>
    obtain ⟨left, rfl, hleft⟩ := hp
    have hone := view_applied (Y := Y) hpk (happ obj List.mem_cons_self) idx
    have hrest := ih _ (hleft idx) (fun o ho => happ o (List.mem_cons_of_mem _ ho))
      (callExec N Y schema obj idx).2
    rw [Prog.run_step, hrest]
    exact congrArg (applyOps (defaultRow schema) (left.map (changeOf N schema))) hone

theorem view_handleEach (hpk : schema.pk ∉ metaFields) {payloads : List String}
    (h : ∀ payload ∈ payloads, Replayable N Y schema payload) (idx : Y.Contents) :
    view Y schema ((handleEach N payloads).run (callExec N Y schema) idx).2 =
      applyOps (defaultRow schema)
        (payloads.flatMap fun payload => (callsOf N Y schema payload).map (changeOf N schema))
        (view Y schema idx) := by
  induction payloads generalizing idx with
  | nil => rfl
  | cons payload payloads ih =>
    obtain ⟨hperf, happ⟩ := performs_payload (h payload List.mem_cons_self)
    have hone := view_performs hpk hperf happ idx
    rw [handleEach, Prog.run_bind, List.flatMap_cons, applyOps_append, ← hone]
    rcases (handlePayload N payload).run (callExec N Y schema) idx with ⟨e | u, t⟩
    · exact e.elim
    · exact ih (fun p hp => h p (List.mem_cons_of_mem _ hp)) t

/-- Any run with crashes ends with the rows of one uninterrupted run over the log. -/
theorem recovery_converges (N : Nlohmann) (Y : Yikv) (schema : Schema) (log : Log)
    (idx : Y.Contents) (hpk : schema.pk ∉ metaFields)
    (hlog : ∀ m ∈ log.messages, Replayable N Y schema m.payload) :
    Converges N Y schema log idx := by
  rintro events s hrun ⟨next, hphase, hend⟩
  have hfirst : Recovers N Y schema log (view Y schema (uninterrupted N Y schema log idx))
      ⟨idx, none, .down, []⟩ := by
    intro r hr
    have hr' : r ≤ 0 := hr.trans (show offsetBeginning ≤ 0 by decide)
    unfold Settles changesSince uninterrupted
    rw [Log.since_nonpos hr', view_handleEach hpk (by simpa using hlog), List.flatMap_map]
  have hlast := Runs.exec_invariant
    (fun _ _ _ h hs => Recovers.step hpk hlog h hs) hrun hfirst
  obtain ⟨idx', file, phase, processed⟩ := s
  obtain rfl : phase = .polling next := hphase
  have hsettled := hlast.2 next (Int.le_refl _)
  unfold Settles changesSince at hsettled
  rw [hend] at hsettled
  exact hsettled

/-- A user created by an insertion with a tag, then patched. -/
def patchLog : Log where
  messages := [⟨3, 0, "\x7b\"_op\":\"INSERT\",\"tags\":[\"a\"],\"user_id\":1\x7d"⟩,
    ⟨5, 0, "\x7b\"age\":2,\"user_id\":1\x7d"⟩]
  increasing := by decide
  bounded := by decide

def patchTexts : Nlohmann := plainJson
  [("\x7b\"_op\":\"INSERT\",\"tags\":[\"a\"],\"user_id\":1\x7d",
      .object [("_op", .string "INSERT"), ("tags", .array [.string "a"]), ("user_id", .integer 1)]),
    ("\x7b\"age\":2,\"user_id\":1\x7d", .object [("age", .integer 2), ("user_id", .integer 1)])]

theorem patchLog_replayable :
    ∀ m ∈ patchLog.messages, Replayable patchTexts .plain userSchema m.payload := by
  intro m hm
  rcases List.mem_cons.mp hm with rfl | hm
  · refine ⟨fun j hj obj hobj => ?_, fun items hitems => by cases hitems⟩
    obtain rfl := Except.ok.inj hj
    obtain rfl := List.mem_singleton.mp hobj
    rintro (hop | hop)
    · exact absurd hop (by decide)
    · exact absurd hop (by decide)
  · obtain rfl := List.mem_singleton.mp hm
    refine ⟨fun j hj obj hobj _ fd hfd harr x xs hx => ?_, fun items hitems => by cases hitems⟩
    obtain rfl := Except.ok.inj hj
    obtain rfl := List.mem_singleton.mp hobj
    simp only [userSchema, List.mem_cons, List.not_mem_nil, or_false] at hfd
    rcases hfd with rfl | rfl | rfl
    · cases harr
    · cases harr
    · cases hx

theorem patchLog_converges :
    userSchema.pk ∉ metaFields ∧
      (∀ m ∈ patchLog.messages, Replayable patchTexts .plain userSchema m.payload) ∧
      Converges patchTexts .plain userSchema patchLog fun _ => none :=
  ⟨by decide, patchLog_replayable,
    recovery_converges patchTexts .plain userSchema patchLog _ (by decide) patchLog_replayable⟩

/-! ## What the conditions leave out -/

/-- A patch that appends. -/
def tagLog : Log where
  messages := [⟨0, 0, "\x7b\"tags\":[\"a\"],\"user_id\":1\x7d"⟩]
  increasing := by decide
  bounded := by decide

def tagTexts : Nlohmann := plainJson
  [("\x7b\"tags\":[\"a\"],\"user_id\":1\x7d",
    .object [("tags", .array [.string "a"]), ("user_id", .integer 1)])]

/-- A batch whose first insertion does not convert, then the user it would insert. -/
def insertLog : Log where
  messages := [
    ⟨0, 0, "[\x7b\"_op\":\"INSERT\",\"age\":\"x\",\"user_id\":1\x7d,\x7b\"user_id\":2\x7d]"⟩,
    ⟨1, 0, "\x7b\"user_id\":1\x7d"⟩]
  increasing := by decide
  bounded := by decide

def insertTexts : Nlohmann := plainJson
  [("[\x7b\"_op\":\"INSERT\",\"age\":\"x\",\"user_id\":1\x7d,\x7b\"user_id\":2\x7d]",
      .array [.object [("_op", .string "INSERT"), ("age", .string "x"), ("user_id", .integer 1)],
        .object [("user_id", .integer 2)]]),
    ("\x7b\"user_id\":1\x7d", .object [("user_id", .integer 1)])]

/-- A table keyed by `_ts`, a patch of its row 5 and the deletion of that row. -/
def stampKeySchema : Schema where
  fields := [⟨"_ts", 1, .int64, false⟩, ⟨"a", 2, .int32, false⟩]
  pk := "_ts"
  names := by decide
  ids := by decide

def stampLog : Log where
  messages := [⟨0, 0, "\x7b\"_ts\":5,\"a\":1\x7d"⟩, ⟨1, 0, "\x7b\"_op\":\"DELETE\",\"_ts\":5\x7d"⟩]
  increasing := by decide
  bounded := by decide

def stampTexts : Nlohmann := plainJson
  [("\x7b\"_ts\":5,\"a\":1\x7d", .object [("_ts", .integer 5), ("a", .integer 1)]),
    ("\x7b\"_op\":\"DELETE\",\"_ts\":5\x7d",
      .object [("_op", .string "DELETE"), ("_ts", .integer 5)])]

def stampIndex : Yikv.plain.Contents := fun k =>
  if k = "5" then some (Yikv.plain.put Yikv.plain.newDoc 1 (.scalar .i64) (5 : Int64)) else none

/-- One crash is enough to append twice, to reach an element that the first pass
lost, and to write a row under the default key. -/
theorem recovery_diverges :
    ¬ Converges tagTexts .plain userSchema tagLog (fun _ => none) ∧
    ¬ Converges insertTexts .plain userSchema insertLog (fun _ => none) ∧
    ¬ Converges stampTexts .plain stampKeySchema stampLog stampIndex := by
  refine ⟨fun h => ?_, fun h => ?_, fun h => ?_⟩
  · have hrun := h [.start, .fetch, .call, .finish, .crash, .start, .fetch, .call, .finish, .save]
      _ rfl ⟨1, rfl, rfl⟩
    have htags : some ["a", "a"] = some ["a"] :=
      congrArg (fun rows => (rows "1").map fun row => row ⟨⟨"tags", 4, .string, true⟩, by decide⟩)
        hrun
    exact absurd htags (by decide)
  · have hrun := h [.start, .fetch, .call, .finish, .save, .fetch, .call, .finish, .torn 0, .crash,
      .start, .fetch, .call, .call, .finish, .save, .fetch, .call, .finish, .save]
      _ rfl ⟨2, rfl, rfl⟩
    have hsecond : true = false := congrArg (fun rows => (rows "2").isSome) hrun
    cases hsecond
  · have hrun := h [.start, .fetch, .call, .finish, .save, .fetch, .call, .finish, .torn 0, .crash,
      .start, .fetch, .call, .finish, .save, .fetch, .call, .finish, .save]
      _ rfl ⟨2, rfl, rfl⟩
    have hzero : true = false := congrArg (fun rows => (rows "0").isSome) hrun
    cases hzero

end YikvServer.Kafka
