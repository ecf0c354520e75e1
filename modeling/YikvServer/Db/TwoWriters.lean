import YikvServer.Db.Handlers
import YikvServer.Theory.Interleave
import YikvServer.Theory.Fallible
import Mathlib.Data.List.Permutation

/-!
# The two writers of a table

RPC threads run the put handlers inside `write_mu`; the table's Kafka consumer runs
its stream objects one after another and takes no lock. Every index call is atomic.
A run is serial whenever no put writes the row that the consumer has read and not
yet written.
-/
namespace YikvServer.Db

open YikvServer.Theory YikvServer.Theory.Interleave YikvServer.Index YikvServer.Stream

inductive Request where
  | put (req : PutRequest)
  | putBatch (req : PutBatchRequest)

/-- Who makes the next index call. -/
inductive Mover where
  | rpc (i : Nat)
  | consumer
  deriving DecidableEq, Repr

section Model
variable (N : Nlohmann) (Y : Yikv) (schema : Schema)

/-- A server with this one table. -/
def oneTable (table : String) (name : String) : Option Schema :=
  if name = table then some schema else none

def Request.prog (table : String) : Request → Apply Y
  | .put req => handlePut Y (oneTable schema table) req
  | .putBatch req => handlePutBatch Y (oneTable schema table) req

/-- The requests, then the stream objects in order. -/
def jobsOf (table : String) (requests : List Request) (objects : List JsonObject) :
    List (Apply Y) :=
  requests.map (Request.prog Y schema table) ++ objects.map (applyStreamJsonObject N Y schema)

structure Writers where
  pool : Pool Y.Contents Stop (Yikv.KvOp.Res Y) Unit
  /-- The thread inside `write_mu`. -/
  holder : Option Nat
  /-- The row that the consumer has read and may still write. -/
  reading : Option String

def Writers.begin (idx : Y.Contents) (jobs : List (Apply Y)) : Writers Y :=
  ⟨⟨idx, jobs⟩, none, none⟩

/-- The consumer's current object: the first that is not done. -/
def currentObject (requests : Nat) (left : List (Apply Y)) : Option Nat :=
  (List.range left.length).find? fun j =>
    decide (requests ≤ j) && ((left[j]?).map fun q => !q.finished).getD false

def Writers.step (requests : Nat) (w : Writers Y) : Mover → Option (Writers Y)
  | .rpc i =>
    if i < requests then
      match w.pool.left[i]? with
      | some (.step .lock _) =>
        if w.holder = none then
          (move (Y.exec schema) w.pool i).map fun pool => ⟨pool, some i, w.reading⟩
        else none
      | some (.step .unlock _) =>
        (move (Y.exec schema) w.pool i).map fun pool => ⟨pool, none, w.reading⟩
      | some (.step _ _) =>
        (move (Y.exec schema) w.pool i).map fun pool => ⟨pool, w.holder, w.reading⟩
      | _ => none
    else none
  | .consumer =>
    (currentObject Y requests w.pool.left).bind fun j =>
      match w.pool.left[j]? with
      | some (.step (.get pk) k) =>
        (move (Y.exec schema) w.pool j).map fun pool =>
          ⟨pool, w.holder, if (k (w.pool.store pk)).finished then none else some pk⟩
      | some (.step _ _) => (move (Y.exec schema) w.pool j).map fun pool => ⟨pool, w.holder, none⟩
      | _ => none

/-- The rows that a call writes. -/
def written : Yikv.KvOp Y → List String
  | .put doc => [Y.key schema doc]
  | .upsert doc => [Y.key schema doc]
  | .batchUpsert docs => docs.map (Y.key schema)
  | .delete pk => [pk]
  | _ => []

/-- A put does not write the row that the consumer is working on. -/
def Clear (w : Writers Y) : Mover → Prop
  | .rpc i => ∀ op k, w.pool.left[i]? = some (.step op k) →
    ∀ pk ∈ written Y schema op, w.reading ≠ some pk
  | .consumer => True

/-- Every complete run ends with the contents of some serial order of the jobs. -/
def Serializable (table : String) (requests : List Request) (objects : List JsonObject)
    (idx : Y.Contents) : Prop :=
  ∀ movers w,
    Runs.exec (Writers.step Y schema requests.length)
      (.begin Y idx (jobsOf N Y schema table requests objects)) movers = some w →
    (∀ q ∈ w.pool.left, q.finished = true) →
    ∃ order : List (Apply Y), order.Perm (jobsOf N Y schema table requests objects) ∧
      w.pool.store = serial (Y.exec schema) order idx

end Model

variable {N : Nlohmann} {Y : Yikv} {schema : Schema} {requests : Nat} {jobs : List (Apply Y)}
  {w w' : Writers Y} {m : Mover} {i j : Nat} {p q : Apply Y}

/-! ## The shape of the jobs -/

theorem blind_locked (work : Except String (Yikv.KvOp Y)) (h : ∀ op, work = .ok op →
      ∀ s t, (Y.exec schema op s).1 = (Y.exec schema op t).1) :
    Blind (Y.exec schema) (locked Y work) ∧ Prog.WritesLast (Y.exec schema) (locked Y work) := by
  have hquiet : ∀ e : Apply Y, e.finished = true →
      Prog.Quiet (Y.exec schema) (Prog.step Yikv.KvOp.unlock fun _ => e) := by
    intro e he
    refine ⟨fun _ => rfl, fun _ => ?_⟩
    cases e with
    | step o k => cases he
    | _ => trivial
  unfold locked
  cases work with
  | error err =>
    exact ⟨⟨fun _ _ => rfl, fun _ => ⟨fun _ _ => rfl, fun _ => trivial⟩⟩,
      Or.inl ⟨fun _ => rfl, fun _ => Or.inl ⟨fun _ => rfl, fun _ => trivial⟩⟩⟩
  | ok op =>
    exact ⟨⟨fun _ _ => rfl, fun _ => ⟨h op rfl, fun _ => ⟨fun _ _ => rfl, fun _ => trivial⟩⟩⟩,
      Or.inl ⟨fun _ => rfl, fun _ => Or.inr fun _ => hquiet _ rfl⟩⟩

/-- A put handler reads nothing from the index and changes it once. -/
theorem request_unread (table : String) (r : Request) :
    Blind (Y.exec schema) (r.prog Y schema table) ∧
      Prog.WritesLast (Y.exec schema) (r.prog Y schema table) := by
  rcases r with ⟨_ | row, name⟩ | ⟨_ | rows, name⟩
  · exact ⟨trivial, trivial⟩
  · simp only [Request.prog, handlePut]
    cases acquireOrError (oneTable schema table) name with
    | error e => exact ⟨trivial, trivial⟩
    | ok slot =>
      refine blind_locked _ fun op hop s t => ?_
      obtain ⟨doc, -, rfl⟩ := map_eq_ok.mp hop
      rfl
  · exact ⟨trivial, trivial⟩
  · simp only [Request.prog, handlePutBatch]
    cases acquireOrError (oneTable schema table) name with
    | error e => exact ⟨trivial, trivial⟩
    | ok slot =>
      simp only [Prog.lift_ok, Prog.pure_bind']
      split
      · exact ⟨trivial, trivial⟩
      · refine blind_locked _ fun op hop s t => ?_
        obtain ⟨docs, -, rfl⟩ := map_eq_ok.mp hop
        rfl

/-- At most one more call, a write. -/
def OneWrite (q : Apply Y) : Prop :=
  q.finished = true ∨ ∃ op, q = .step op (fun _ => .pure ()) ∧ ∀ pk, op ≠ .get pk

/-- A stream object writes at once, or after reading the row it is about. -/
theorem object_shape (N : Nlohmann) (Y : Yikv) (schema : Schema) (obj : JsonObject) :
    OneWrite (applyStreamJsonObject N Y schema obj) ∨
      ∃ pk k, applyStreamJsonObject N Y schema obj = .step (.get pk) k ∧ ∀ r, OneWrite (k r) := by
  unfold applyStreamJsonObject
  cases opOf N obj with
  | error e => exact Or.inl (Or.inl rfl)
  | ok op =>
    simp only [Prog.lift_ok, Prog.pure_bind']
    split
    · left
      unfold applyDelete
      split
      · exact Or.inl rfl
      · split
        · exact Or.inl rfl
        · cases Stream.extractPkString N schema obj with
          | error e => exact Or.inl rfl
          | ok pk => exact Or.inr ⟨.delete pk, rfl, by simp⟩
    · split
      · unfold applyInsert
        cases Stream.extractPkString N schema obj with
        | error e => exact Or.inl (Or.inl rfl)
        | ok pk =>
          simp only [Prog.lift_ok, Prog.pure_bind', Prog.perform_bind]
          refine Or.inr ⟨pk, _, rfl, fun r => ?_⟩
          cases r with
          | some old => exact Or.inl rfl
          | none =>
            cases mergeJsonIntoDoc N Y schema Y.newDoc obj with
            | error e => exact Or.inl rfl
            | ok doc => exact Or.inr ⟨.put doc, rfl, by simp⟩
      · split
        · unfold applyUpsertMerge
          cases Stream.extractPkString N schema obj with
          | error e => exact Or.inl (Or.inl rfl)
          | ok pk =>
            simp only [Prog.lift_ok, Prog.pure_bind', Prog.perform_bind]
            refine Or.inr ⟨pk, _, rfl, fun r => ?_⟩
            cases mergeJsonIntoDoc N Y schema (baseDoc Y schema r) obj with
            | error e => exact Or.inl rfl
            | ok doc => exact Or.inr ⟨.upsert doc, rfl, by simp⟩
        · exact Or.inl (Or.inl rfl)

/-! ## The invariant of a run -/

theorem exec_other {op : Yikv.KvOp Y} {pk : String} (h : pk ∉ written Y schema op)
    (idx : Y.Contents) : (Y.exec schema op idx).2 pk = idx pk := by
  cases op with
  | put doc =>
    have hne : pk ≠ Y.key schema doc := fun he => h (by simp [written, he])
    simp only [Yikv.exec, Yikv.put']
    cases idx (Y.key schema doc) with
    | none => exact (Yikv.upsert_apply).trans (if_neg hne)
    | some old => exact Function.update_of_ne hne _ _
  | upsert doc =>
    exact (Yikv.upsert_apply).trans (if_neg fun he => h (by simp [written, he]))
  | batchUpsert docs =>
    exact Yikv.batchUpsert_other fun d hd he => h (List.mem_map.mpr ⟨d, hd, he⟩)
  | delete k => exact (Yikv.delete_apply).trans (if_neg fun he => h (by simp [written, he]))
  | _ => rfl

/-- The consumer has read the row of this object and not yet written it. -/
def InFlight (w : Writers Y) (p q : Apply Y) : Prop :=
  ∃ pk k, w.reading = some pk ∧ p = .step (.get pk) k ∧ q = k (w.pool.store pk)

structure Orderly (schema : Schema) (requests : Nat) (jobs : List (Apply Y)) (w : Writers Y) :
    Prop where
  length_eq : w.pool.left.length = jobs.length
  request : ∀ i < requests, ∀ p q, jobs[i]? = some p → w.pool.left[i]? = some q →
    Unread (Y.exec schema) p q
  object : ∀ j, requests ≤ j → ∀ p q, jobs[j]? = some p → w.pool.left[j]? = some q →
    q.finished = true ∨ q = p ∨ InFlight w p q
  /-- Only the current object is in flight. -/
  current : ∀ j, requests ≤ j → ∀ p q, jobs[j]? = some p → w.pool.left[j]? = some q →
    q.finished = false → InFlight w p q → currentObject Y requests w.pool.left = some j

theorem quiet_of_finished (h : q.finished = true) : Prog.Quiet (Y.exec schema) q := by
  cases q with
  | step o k => cases h
  | _ => trivial

/-- Whoever moves, the other jobs stay stable if no unread row is written under the
consumer. -/
theorem Orderly.undisturbed (h : Orderly schema requests jobs w) {op : Yikv.KvOp Y}
    {k : Yikv.KvOp.Res Y op → Apply Y} (hi : w.pool.left[i]? = some (.step op k))
    (hclear : ∀ j p q, j ≠ i → requests ≤ j → jobs[j]? = some p → w.pool.left[j]? = some q →
      q.finished = false → InFlight w p q → ∀ pk ∈ written Y schema op, w.reading ≠ some pk) :
    Undisturbed (Y.exec schema) jobs w.pool i := by
  intro P' hmove j p q hji hp hq hnq hstable
  obtain ⟨op', k', hi', rfl⟩ := move_eq_some.mp hmove
  obtain ⟨rfl, hk⟩ := Prog.step.inj (Option.some.inj (hi.symm.trans hi'))
  rcases Nat.lt_or_ge j requests with hj | hj
  · rcases h.request j hj p q hp hq with ⟨-, -, hall⟩ | hquiet
    · exact hall _
    · exact absurd hquiet hnq
  · rcases h.object j hj p q hp hq with hfin | rfl | hflight
    · exact absurd (quiet_of_finished hfin) hnq
    · rfl
    · have hfin : q.finished = false := by
        cases hf : q.finished with
        | false => rfl
        | true => exact absurd (quiet_of_finished hf) hnq
      have hno := hclear j p q hji hj hp hq hfin hflight
      obtain ⟨pk, k, hreading, rfl, rfl⟩ := hflight
      have hsame : (Y.exec schema op w.pool.store).2 pk = w.pool.store pk :=
        exec_other (fun hmem => hno pk hmem hreading) _
      show (Prog.run (Y.exec schema) (k (w.pool.store pk)) (Y.exec schema op w.pool.store).2).2 =
        (Prog.run (Y.exec schema) (k ((Y.exec schema op w.pool.store).2 pk))
          (Y.exec schema op w.pool.store).2).2
      rw [hsame]

theorem currentObject_eq_some {left : List (Apply Y)} : currentObject Y requests left = some j ↔
    requests ≤ j ∧ (∃ q, left[j]? = some q ∧ q.finished = false) ∧
      ∀ i < j, requests ≤ i → ∀ q, left[i]? = some q → q.finished = true := by
  unfold currentObject
  rw [List.find?_range_eq_some]
  constructor
  · rintro ⟨hj, hmem, hbefore⟩
    simp only [Bool.and_eq_true, decide_eq_true_eq] at hj
    refine ⟨hj.1, ?_, fun i hi hr q hq => ?_⟩
    · cases hq : left[j]? with
      | none => rw [hq] at hj; cases hj.2
      | some q =>
        rw [hq] at hj
        exact ⟨q, rfl, by simpa using hj.2⟩
    · have hb := hbefore i hi
      simpa [hr, hq] using hb
  · rintro ⟨hr, ⟨q, hq, hfin⟩, hbefore⟩
    refine ⟨by simp [hr, hq, hfin], ?_, fun i hi => ?_⟩
    · exact List.mem_range.mpr (List.getElem?_eq_some_iff.mp hq).1
    · by_cases hri : requests ≤ i
      · cases hqi : left[i]? with
        | none => simp
        | some q' => simp [hbefore i hi hri q' hqi]
      · simp [hri]

/-- The stream part of the jobs has the shape of stream objects. -/
def ObjectShapes (requests : Nat) (jobs : List (Apply Y)) : Prop :=
  ∀ j, requests ≤ j → ∀ p, jobs[j]? = some p →
    OneWrite p ∨ ∃ pk k, p = .step (.get pk) k ∧ ∀ r, OneWrite (k r)

theorem oneWrite_step {op : Yikv.KvOp Y} {k : Yikv.KvOp.Res Y op → Apply Y}
    (h : OneWrite (.step op k)) : (∀ pk, op ≠ .get pk) ∧ ∀ r, (k r).finished = true := by
  rcases h with hfin | ⟨op', he, hget⟩
  · cases hfin
  · obtain ⟨rfl, hk⟩ := Prog.step.inj he
    obtain rfl := eq_of_heq hk
    exact ⟨hget, fun _ => rfl⟩

/-- A put keeps the run orderly. -/
theorem Orderly.rpc (h : Orderly schema requests jobs w) {op : Yikv.KvOp Y}
    {k : Yikv.KvOp.Res Y op → Apply Y} {holder : Option Nat} (hr : i < requests)
    (hi : w.pool.left[i]? = some (.step op k))
    (hclear : ∀ pk ∈ written Y schema op, w.reading ≠ some pk) :
    Orderly schema requests jobs ⟨⟨(Y.exec schema op w.pool.store).2,
      w.pool.left.set i (k (Y.exec schema op w.pool.store).1)⟩, holder, w.reading⟩ := by
  have hlt : i < w.pool.left.length := (List.getElem?_eq_some_iff.mp hi).1
  have hother : ∀ j, j ≠ i → (w.pool.left.set i (k (Y.exec schema op w.pool.store).1))[j]? =
      w.pool.left[j]? := fun j hj => List.getElem?_set_ne (Ne.symm hj)
  have hflight : ∀ p q, InFlight w p q ↔ InFlight (Writers.mk
      ⟨(Y.exec schema op w.pool.store).2, w.pool.left.set i (k (Y.exec schema op w.pool.store).1)⟩
      holder w.reading) p q := by
    intro p q
    have hsame : ∀ pk, w.reading = some pk →
        (Y.exec schema op w.pool.store).2 pk = w.pool.store pk :=
      fun pk hpk => exec_other (fun hmem => hclear pk hmem hpk) _
    constructor
    · rintro ⟨pk, k', hpk, hp, hq⟩
      exact ⟨pk, k', hpk, hp, by rw [hq]; exact congrArg k' (hsame pk hpk).symm⟩
    · rintro ⟨pk, k', hpk, hp, hq⟩
      exact ⟨pk, k', hpk, hp, by rw [hq]; exact congrArg k' (hsame pk hpk)⟩
  refine ⟨by simpa using h.length_eq, ?_, ?_, ?_⟩
  · intro j hj p q hp hq
    by_cases hji : j = i
    · subst hji
      have hq' : (w.pool.left.set j (k (Y.exec schema op w.pool.store).1))[j]? =
          some (k (Y.exec schema op w.pool.store).1) := by simp [hlt]
      obtain rfl := Option.some.inj (hq'.symm.trans hq)
      exact (h.request j hj p _ hp hi).step _
    · exact h.request j hj p q hp ((hother j hji).symm.trans hq)
  · intro j hj p q hp hq
    have hji : j ≠ i := fun he => by omega
    exact (h.object j hj p q hp ((hother j hji).symm.trans hq)).imp id
      fun h' => h'.imp id (hflight p q).mp
  · intro j hj p q hp hq hfin hfl
    have hji : j ≠ i := fun he => by omega
    have hcur := h.current j hj p q hp ((hother j hji).symm.trans hq) hfin ((hflight p q).mpr hfl)
    obtain ⟨hrj, ⟨q', hq', hfin'⟩, hbefore⟩ := currentObject_eq_some.mp hcur
    refine currentObject_eq_some.mpr ⟨hrj, ⟨q', (hother j hji).trans hq', hfin'⟩, ?_⟩
    intro i' hi' hri' q'' hq''
    have hne : i' ≠ i := fun he => by omega
    exact hbefore i' hi' hri' q'' ((hother i' hne).symm.trans hq'')

/-- The consumer's next call keeps the run orderly. -/
theorem Orderly.consumer (h : Orderly schema requests jobs w) (hshape : ObjectShapes requests jobs)
    {op : Yikv.KvOp Y} {k : Yikv.KvOp.Res Y op → Apply Y}
    (hcur : currentObject Y requests w.pool.left = some j)
    (hj : w.pool.left[j]? = some (.step op k)) {reading : Option String}
    (hread : (k (Y.exec schema op w.pool.store).1).finished = false →
      ∀ pk, op = .get pk → reading = some pk)
    (hnone : (∀ pk, op ≠ .get pk) → reading = none) :
    Orderly schema requests jobs ⟨⟨(Y.exec schema op w.pool.store).2,
      w.pool.left.set j (k (Y.exec schema op w.pool.store).1)⟩, w.holder, reading⟩ := by
  obtain ⟨hrj, -, hbefore⟩ := currentObject_eq_some.mp hcur
  have hlt : j < w.pool.left.length := (List.getElem?_eq_some_iff.mp hj).1
  have hself : (w.pool.left.set j (k (Y.exec schema op w.pool.store).1))[j]? =
      some (k (Y.exec schema op w.pool.store).1) := by simp [hlt]
  have hother : ∀ i, i ≠ j → (w.pool.left.set j (k (Y.exec schema op w.pool.store).1))[i]? =
      w.pool.left[i]? := fun i hi => List.getElem?_set_ne (Ne.symm hi)
  -- The other objects are done or not begun.
  have hrest : ∀ i, i ≠ j → requests ≤ i → ∀ p q, jobs[i]? = some p → w.pool.left[i]? = some q →
      q.finished = true ∨ q = p := by
    intro i hij hri p q hp hq
    rcases h.object i hri p q hp hq with hfin | heq | hflight
    · exact Or.inl hfin
    · exact Or.inr heq
    · cases hfin : q.finished with
      | true => exact Or.inl rfl
      | false =>
        have hcur' := h.current i hri p q hp hq hfin hflight
        exact absurd (Option.some.inj (hcur'.symm.trans hcur)) hij
  obtain ⟨p, hp⟩ : ∃ p, jobs[j]? = some p :=
    ⟨_, List.getElem?_eq_getElem (h.length_eq ▸ hlt)⟩
  have hwrite : (∀ pk, op ≠ .get pk) → (k (Y.exec schema op w.pool.store).1).finished = true := by
    intro hget
    rcases h.object j hrj p _ hp hj with hfin | rfl | ⟨pk, k', -, rfl, hq⟩
    · cases hfin
    · rcases hshape j hrj _ hp with hone | ⟨pk, k', he, -⟩
      · exact (oneWrite_step hone).2 _
      · exact absurd (Prog.step.inj he).1 (hget pk)
    · rcases hshape j hrj _ hp with hone | ⟨pk', k'', he, hone⟩
      · exact absurd rfl ((oneWrite_step hone).1 pk)
      · obtain ⟨hop, hk⟩ := Prog.step.inj he
        obtain rfl := Yikv.KvOp.get.inj hop
        obtain rfl := eq_of_heq hk
        exact (oneWrite_step (hq ▸ hone _)).2 _
  have hget : ∀ pk, op = .get pk → p = .step op k := by
    rintro pk rfl
    rcases h.object j hrj p _ hp hj with hfin | heq | ⟨pk', k', -, rfl, hq⟩
    · cases hfin
    · exact heq.symm
    · exfalso
      rcases hshape j hrj _ hp with hone | ⟨pk'', k'', he, hone⟩
      · exact (oneWrite_step hone).1 pk' rfl
      · obtain ⟨hop, hk⟩ := Prog.step.inj he
        obtain rfl := Yikv.KvOp.get.inj hop
        obtain rfl := eq_of_heq hk
        exact (oneWrite_step (hq ▸ hone _)).1 pk rfl
  refine ⟨by simpa using h.length_eq, ?_, ?_, ?_⟩
  · intro i hi p' q hp' hq
    exact h.request i hi p' q hp' ((hother i fun he => by omega).symm.trans hq)
  · intro i hri p' q hp' hq
    by_cases hij : i = j
    · subst hij
      obtain rfl := Option.some.inj (hp.symm.trans hp')
      obtain rfl := Option.some.inj (hself.symm.trans hq)
      cases hfin : (k (Y.exec schema op w.pool.store).1).finished with
      | true => exact Or.inl rfl
      | false =>
        right; right
        cases op with
        | get pk => exact ⟨pk, k, hread hfin pk rfl, hget pk rfl, rfl⟩
        | _ => rw [hwrite (by simp)] at hfin; cases hfin
    · exact (hrest i hij hri p' q hp' ((hother i hij).symm.trans hq)).imp id Or.inl
  · intro i hri p' q hp' hq hfin hflight
    by_cases hij : i = j
    · subst hij
      refine currentObject_eq_some.mpr ⟨hrj, ⟨_, hq, hfin⟩, fun i' hi' hri' q' hq' => ?_⟩
      exact hbefore i' hi' hri' q' ((hother i' (Nat.ne_of_lt hi')).symm.trans hq')
    · exfalso
      rcases hrest i hij hri p' q hp' ((hother i hij).symm.trans hq) with hdone | rfl
      · rw [hfin] at hdone; cases hdone
      · obtain ⟨pk, k', -, rfl, hq'⟩ := hflight
        rcases hshape i hri _ hp' with hone | ⟨pk', k'', he, hone⟩
        · exact (oneWrite_step hone).1 pk rfl
        · obtain ⟨hop, hk⟩ := Prog.step.inj he
          obtain rfl := Yikv.KvOp.get.inj hop
          obtain rfl := eq_of_heq hk
          exact (oneWrite_step (hq' ▸ hone _)).1 pk rfl

theorem Orderly.start {idx : Y.Contents} (hreq : ∀ i < requests, ∀ p, jobs[i]? = some p →
    Blind (Y.exec schema) p ∧ Prog.WritesLast (Y.exec schema) p) :
    Orderly schema requests jobs (.begin Y idx jobs) := by
  refine ⟨rfl, ?_, ?_, ?_⟩
  · intro i hi p q hp hq
    obtain rfl := Option.some.inj (hp.symm.trans hq)
    obtain ⟨hblind, hlast⟩ := hreq i hi p hp
    exact Or.inl ⟨hblind, hlast, fun _ => rfl⟩
  · intro j _ p q hp hq
    exact Or.inr (Or.inl (Option.some.inj (hq.symm.trans hp)))
  · rintro j _ p q _ _ _ ⟨pk, k, hreading, -⟩
    cases hreading

/-- A put that may run is a move of the pool that disturbs nobody. -/
theorem Orderly.rpc_step (h : Orderly schema requests jobs w)
    (hclear : Clear Y schema w (.rpc i))
    (hstep : Writers.step Y schema requests w (.rpc i) = some w') :
    Orderly schema requests jobs w' ∧ Undisturbed (Y.exec schema) jobs w.pool i ∧
      move (Y.exec schema) w.pool i = some w'.pool := by
  obtain ⟨hi, holder, hmove, hreading⟩ : i < requests ∧ ∃ holder,
      move (Y.exec schema) w.pool i = some w'.pool ∧ w' = ⟨w'.pool, holder, w.reading⟩ := by
    simp only [Writers.step] at hstep
    split at hstep
    · refine ⟨‹_›, ?_⟩
      split at hstep
      · split at hstep
        · obtain ⟨pool, hmove, rfl⟩ := Option.map_eq_some_iff.mp hstep
          exact ⟨_, hmove, rfl⟩
        · cases hstep
      · obtain ⟨pool, hmove, rfl⟩ := Option.map_eq_some_iff.mp hstep
        exact ⟨_, hmove, rfl⟩
      · obtain ⟨pool, hmove, rfl⟩ := Option.map_eq_some_iff.mp hstep
        exact ⟨_, hmove, rfl⟩
      · cases hstep
    · cases hstep
  obtain ⟨op, k, hleft, hpool⟩ := move_eq_some.mp hmove
  refine ⟨?_, ?_, hmove⟩
  · rw [hreading, hpool]
    exact h.rpc hi hleft (hclear op k hleft)
  · exact h.undisturbed hleft fun _ _ _ _ _ _ _ _ _ => hclear op k hleft

/-- The consumer's move disturbs nobody: it alone reads. -/
theorem Orderly.consumer_step (h : Orderly schema requests jobs w)
    (hshape : ObjectShapes requests jobs)
    (hstep : Writers.step Y schema requests w .consumer = some w') :
    ∃ j, Orderly schema requests jobs w' ∧ Undisturbed (Y.exec schema) jobs w.pool j ∧
      move (Y.exec schema) w.pool j = some w'.pool := by
  obtain ⟨j, hcur, hstep⟩ := Option.bind_eq_some_iff.mp hstep
  have halone : ∀ {op : Yikv.KvOp Y} {k : Yikv.KvOp.Res Y op → Apply Y},
      w.pool.left[j]? = some (.step op k) → Undisturbed (Y.exec schema) jobs w.pool j := by
    intro op k hleft
    refine h.undisturbed hleft fun i p q hij hi hp hq hfin hflight => ?_
    have hcur' := h.current i hi p q hp hq hfin hflight
    exact absurd (Option.some.inj (hcur'.symm.trans hcur)) hij
  cases hleft : w.pool.left[j]? with
  | none => rw [hleft] at hstep; cases hstep
  | some q =>
    cases q with
    | pure a => rw [hleft] at hstep; cases hstep
    | fail e => rw [hleft] at hstep; cases hstep
    | step op k =>
      rw [hleft] at hstep
      obtain ⟨reading, hmove, hw', hget, hother⟩ : ∃ reading,
          move (Y.exec schema) w.pool j = some w'.pool ∧ w' = ⟨w'.pool, w.holder, reading⟩ ∧
            ((k (Y.exec schema op w.pool.store).1).finished = false →
              ∀ pk, op = .get pk → reading = some pk) ∧
            ((∀ pk, op ≠ .get pk) → reading = none) := by
        cases op with
        | get pk =>
          obtain ⟨pool, hmove, rfl⟩ := Option.map_eq_some_iff.mp hstep
          refine ⟨_, hmove, rfl, ?_, fun hno => absurd rfl (hno pk)⟩
          intro hfin pk' hpk
          obtain rfl := Yikv.KvOp.get.inj hpk
          exact if_neg (Bool.eq_false_iff.mp hfin)
        | _ =>
          obtain ⟨pool, hmove, rfl⟩ := Option.map_eq_some_iff.mp hstep
          exact ⟨none, hmove, rfl, fun _ _ hpk => (nomatch hpk), fun _ => rfl⟩
      obtain ⟨op', k', hleft', hpool⟩ := move_eq_some.mp hmove
      obtain ⟨rfl, hk⟩ := Prog.step.inj (Option.some.inj (hleft.symm.trans hleft'))
      obtain rfl := eq_of_heq hk
      refine ⟨j, ?_, halone hleft, hmove⟩
      rw [hw', hpool]
      exact h.consumer hshape hcur hleft hget hother

section Jobs
variable {N : Nlohmann} {Y : Yikv} {schema : Schema} {table : String} {requests : List Request}
  {objects : List JsonObject}

theorem jobsOf_requests : ∀ i < requests.length, ∀ p,
    (jobsOf N Y schema table requests objects)[i]? = some p →
    Blind (Y.exec schema) p ∧ Prog.WritesLast (Y.exec schema) p := by
  intro i hi p hp
  rw [jobsOf, List.getElem?_append_left (by simpa using hi), List.getElem?_map] at hp
  obtain ⟨r, -, rfl⟩ := Option.map_eq_some_iff.mp hp
  exact request_unread table r

theorem jobsOf_shapes :
    ObjectShapes requests.length (jobsOf N Y schema table requests objects) := by
  intro j hj p hp
  rw [jobsOf, List.getElem?_append_right (by simpa using hj), List.getElem?_map] at hp
  obtain ⟨obj, -, rfl⟩ := Option.map_eq_some_iff.mp hp
  exact object_shape N Y schema obj

theorem OneWrite.writesLast {q : Apply Y} (h : OneWrite q) :
    Prog.WritesLast (Y.exec schema) q := by
  rcases h with hfin | ⟨op, rfl, -⟩
  · cases q with
    | step o k => cases hfin
    | _ => trivial
  · exact Or.inr fun _ => trivial

theorem jobsOf_writesLast : ∀ p ∈ jobsOf N Y schema table requests objects,
    Prog.WritesLast (Y.exec schema) p := by
  intro p hp
  rcases List.mem_append.mp hp with hp | hp
  · obtain ⟨r, -, rfl⟩ := List.mem_map.mp hp
    exact (request_unread table r).2
  · obtain ⟨obj, -, rfl⟩ := List.mem_map.mp hp
    rcases object_shape N Y schema obj with hone | ⟨pk, k, he, hone⟩
    · exact hone.writesLast
    · rw [he]
      exact Or.inl ⟨fun _ => rfl, fun r => (hone r).writesLast⟩

end Jobs

/-- A run in which no put writes the row that the consumer is working on ends with the
contents of a serial order. -/
theorem writers_serializable (N : Nlohmann) (Y : Yikv) (schema : Schema) (table : String)
    (requests : List Request) (objects : List JsonObject) (idx : Y.Contents)
    (movers : List Mover) (w : Writers Y)
    (hclear : Runs.Guarded (Writers.step Y schema requests.length) (Clear Y schema)
      (.begin Y idx (jobsOf N Y schema table requests objects)) movers)
    (hrun : Runs.exec (Writers.step Y schema requests.length)
      (.begin Y idx (jobsOf N Y schema table requests objects)) movers = some w)
    (hdone : ∀ q ∈ w.pool.left, q.finished = true) :
    ∃ order : List (Apply Y), order.Perm (jobsOf N Y schema table requests objects) ∧
      w.pool.store = serial (Y.exec schema) order idx := by
  have hmoves : ∀ w m w',
      Orderly schema requests.length (jobsOf N Y schema table requests objects) w →
      Clear Y schema w m → w.step Y schema requests.length m = some w' →
      Orderly schema requests.length (jobsOf N Y schema table requests objects) w' ∧ ∃ j,
        Undisturbed (Y.exec schema) (jobsOf N Y schema table requests objects) w.pool j ∧
        move (Y.exec schema) w.pool j = some w'.pool := by
    intro w m w' h hok hstep
    cases m with
    | rpc i =>
      obtain ⟨h', hund, hmove⟩ := h.rpc_step hok hstep
      exact ⟨h', i, hund, hmove⟩
    | consumer =>
      obtain ⟨j, h', hund, hmove⟩ := h.consumer_step jobsOf_shapes hstep
      exact ⟨h', j, hund, hmove⟩
  obtain ⟨sched, hsched, hguard⟩ :=
    Runs.guarded_simulation hmoves hclear hrun (Orderly.start jobsOf_requests)
  exact serializable jobsOf_writesLast hsched hguard hdone

/-- A table of two counters. -/
def pairSchema : Schema where
  fields := [⟨"id", 1, .int64, false⟩, ⟨"a", 2, .int32, false⟩, ⟨"b", 3, .int32, false⟩]
  pk := "id"
  names := by decide
  ids := by decide

/-- `Put` of the row (1, 1, 1). -/
def pairPut : Request := .put
  { row := some { fields := some [some { fieldId := 1, vtype := .i64, i64 := 1 },
      some { fieldId := 2, vtype := .i32, i32 := 1 },
      some { fieldId := 3, vtype := .i32, i32 := 1 }] }
    tableName := some "pairs" }

/-- A patch of `a` in row 1. -/
def pairPatch : JsonObject := .ofMembers [("id", .integer 1), ("a", .integer 5)]

/-- The table is empty. -/
def pairStart : Writers .plain :=
  .begin .plain (fun _ => none)
    (jobsOf (plainJson []) .plain pairSchema "pairs" [pairPut] [pairPatch])

/-- The put runs inside its lock after the patch is done. -/
theorem pairPut_after_patch : ∃ movers w,
    Runs.Guarded (Writers.step .plain pairSchema 1) (Clear .plain pairSchema) pairStart movers ∧
      Runs.exec (Writers.step .plain pairSchema 1) pairStart movers = some w ∧
      (∀ q ∈ w.pool.left, q.finished = true) ∧
      ∃ order : List (Apply .plain),
        order.Perm (jobsOf (plainJson []) .plain pairSchema "pairs" [pairPut] [pairPatch]) ∧
          w.pool.store = serial (Yikv.plain.exec pairSchema) order fun _ => none := by
  have hfree : ∀ (w : Writers .plain) (m : Mover), w.reading = none →
      Clear .plain pairSchema w m := by
    intro w m hnone
    cases m with
    | rpc i => exact fun _ _ _ _ _ => by simp [hnone]
    | consumer => trivial
  have hclear : Runs.Guarded (Writers.step .plain pairSchema 1) (Clear .plain pairSchema)
      pairStart [.rpc 0, .consumer, .consumer, .rpc 0, .rpc 0] :=
    .cons (hfree _ _ rfl) rfl <| .cons (hfree _ _ rfl) rfl <| .cons trivial rfl <|
      .cons (hfree _ _ rfl) rfl <| .cons (hfree _ _ rfl) rfl trivial
  obtain ⟨w, hrun, hdone⟩ : ∃ w, Runs.exec (Writers.step .plain pairSchema 1) pairStart
      [.rpc 0, .consumer, .consumer, .rpc 0, .rpc 0] = some w ∧
        ∀ q ∈ w.pool.left, q.finished = true := by
    refine ⟨_, rfl, fun q hq => ?_⟩
    rcases List.mem_cons.mp hq with rfl | hq
    · rfl
    · obtain rfl := List.mem_singleton.mp hq
      rfl
  exact ⟨_, w, hclear, hrun, hdone, writers_serializable (plainJson []) .plain pairSchema "pairs"
    [pairPut] [pairPatch] (fun _ => none) _ w hclear hrun hdone⟩

/-- The put between the read and the write of the patch is lost on `b` alone: the row
is (1, 5, 0), and both serial orders keep `b = 1`. -/
theorem patch_loses_put :
    ¬ Serializable (plainJson []) .plain pairSchema "pairs" [pairPut] [pairPatch]
      fun _ => none := by
  intro h
  have hrun := h [.consumer, .rpc 0, .rpc 0, .rpc 0, .consumer] _ rfl (by
    intro q hq
    rcases List.mem_cons.mp hq with rfl | hq
    · rfl
    · obtain rfl := List.mem_singleton.mp hq
      rfl)
  obtain ⟨order, hperm, hstore⟩ := hrun
  have hb := congrArg (fun idx => (idx "1").map fun doc => doc 3 (.scalar .i32)) hstore
  rcases List.perm_pair.mp hperm with rfl | rfl
  · have hb : some (0 : Int32) = some 1 := hb
    exact absurd hb (by decide)
  · have hb : some (0 : Int32) = some 1 := hb
    exact absurd hb (by decide)

end YikvServer.Db
