import YikvServer.Kafka.HandOver
import YikvServer.Kafka.Recovery

/-!
# The rows of a table from its import on

A catch-up over the imported index, then the consumers of the server. Without crashes the
index is at every moment the imported one with the messages so far applied once each, in the
order of their offsets. With crashes and failed saves the rows still come to those of one
pass over the messages from the start position on, as long as no torn save sends a consumer
back before that position.
-/
namespace YikvServer.Kafka

open YikvServer.Theory YikvServer.Theory.Replay YikvServer.Index YikvServer.Stream

section Spec
variable (N : Nlohmann) (Y : Yikv) (schema : Schema) (log : Log) (start : Int) (idx : Y.Contents)

/-- The messages handled one after another, each to its end. -/
def appliedTo (messages : List Message) : Y.Contents :=
  ((handleEach N (messages.map Message.payload)).run (callExec N Y schema) idx).2

/-- The index holds these messages; in the middle of one, the calls to come complete it. -/
def Holds (done : List Message) (s : Source Y) : Prop :=
  match s.phase with
  | .applying m rest =>
    (rest.run (callExec N Y schema) s.idx).2 = appliedTo N Y schema idx (done ++ [m])
  | _ => s.idx = appliedTo N Y schema idx done

/-- The messages from the start position on are those that the index holds, and then the
pending ones. -/
def InStep (s : Source Y) : Prop :=
  ∃ done, log.since start = done ++ s.pending Y log ∧
    s.processed = done.map Message.offset ∧ Holds N Y schema idx done s

/-- Reading from `r` delivers no message before the start position. -/
def NoneBefore (r : Int) : Prop := ∀ m ∈ log.since r, start ≤ m.offset

/-- What a torn save leaves does not send a consumer back before the start position. -/
def KeepsStart (s : Source Y) (e : Event) : Prop :=
  match e, s.phase with
  | .torn n, .saving o => NoneBefore log start (loadOffset (some ((offsetText o).take n)))
  | _, _ => True

instance (r : Int) : Decidable (NoneBefore log start r) :=
  inferInstanceAs (Decidable (∀ m ∈ log.since r, start ≤ m.offset))

instance (s : Source Y) (e : Event) : Decidable (KeepsStart Y log start s e) := by
  unfold KeepsStart
  split <;> infer_instance

end Spec

variable {N : Nlohmann} {Y : Yikv} {schema : Schema} {log : Log} {start : Int} {idx : Y.Contents}
  {done : List Message} {m : Message} {s s' : Source Y} {e : Event} {opt : CatchupOptions}

/-! ## Without crashes -/

theorem handleEach_concat (payloads : List String) (payload : String) (idx : Y.Contents) :
    ((handleEach N (payloads ++ [payload])).run (callExec N Y schema) idx).2 =
      ((handlePayload N payload).run (callExec N Y schema)
        ((handleEach N payloads).run (callExec N Y schema) idx).2).2 := by
  induction payloads generalizing idx with
  | nil =>
    simp only [List.nil_append, handleEach, Prog.run_bind, Prog.run_pure]
    rcases (handlePayload N payload).run (callExec N Y schema) idx with ⟨e | u, t⟩
    · exact e.elim
    · rfl
  | cons first payloads ih =>
    simp only [List.cons_append, handleEach, Prog.run_bind]
    rcases (handlePayload N first).run (callExec N Y schema) idx with ⟨e | u, t⟩
    · exact e.elim
    · exact ih t

theorem appliedTo_concat : appliedTo N Y schema idx (done ++ [m]) =
    ((handlePayload N m.payload).run (callExec N Y schema) (appliedTo N Y schema idx done)).2 := by
  unfold appliedTo
  rw [List.map_append]
  exact handleEach_concat _ _ _

/-- What the loop has taken, and what it has left. -/
def Loop.InStep (N : Nlohmann) (Y : Yikv) (schema : Schema) (log : Log) (start : Int)
    (idx : Y.Contents) (l : Loop Y) : Prop :=
  ∃ done, log.since start = done ++ log.since l.next ∧
    l.processed = done.map Message.offset ∧ l.idx = appliedTo N Y schema idx done

theorem Loop.InStep.take {l : Loop Y} {rest : List Message} (h : l.InStep N Y schema log start idx)
    (hm : log.since l.next = m :: rest) :
    (l.take N Y schema m).InStep N Y schema log start idx := by
  obtain ⟨done, hsplit, hprocessed, hidx⟩ := h
  refine ⟨done ++ [m], ?_, ?_, ?_⟩
  · rw [hsplit, hm]
    show done ++ m :: rest = done ++ [m] ++ log.since (m.offset + 1)
    rw [Log.since_cons hm, List.append_assoc]
    rfl
  · show l.processed ++ [m.offset] = _
    rw [hprocessed, List.map_append]
    rfl
  · rw [appliedTo_concat, ← hidx]
    rfl

/-- Wherever the catch-up stands, it has applied a first part of the messages. -/
theorem consumeLoop_inStep {l l' : Loop Y} {ticks : List Tick}
    {ended : Option (Except String Unit)} (h : l.InStep N Y schema log start idx)
    (hr : consumeLoop N Y schema log opt l ticks = (l', ended)) :
    l'.InStep N Y schema log start idx := by
  have hlast := consumeLoop_invariant N schema log opt
    (P := Loop.InStep N Y schema log start idx) ticks (fun _ _ _ h hm => h.take hm)
    (fun _ _ _ _ h => h) h
  rwa [hr] at hlast

theorem InStep.step {all : List Int} (h : InStep N Y schema log start idx s)
    (hcovers : Covers log all s) (hg : e.graceful = true)
    (hs : s.step N Y schema log e = some s') : InStep N Y schema log start idx s' := by
  obtain ⟨idx', file, phase, processed⟩ := s
  obtain ⟨done, hsplit, hprocessed, hholds⟩ := h
  have hsaved := hcovers.saved
  cases e with
  | start =>
    cases phase with
    | down => obtain rfl := Option.some.inj hs; exact ⟨done, hsplit, hprocessed, hholds⟩
    | _ => cases hs
  | stop =>
    cases phase with
    | polling next =>
      obtain rfl := Option.some.inj hs
      change log.since (loadOffset file) = log.since next at hsaved
      refine ⟨done, ?_, hprocessed, hholds⟩
      simpa only [Source.pending, hsaved] using hsplit
    | _ => cases hs
  | quiet =>
    cases phase with
    | polling next => obtain rfl := Option.some.inj hs; exact ⟨done, hsplit, hprocessed, hholds⟩
    | _ => cases hs
  | fetch =>
    cases phase with
    | polling next =>
      cases hlog : log.since next with
      | nil => simp [Source.step, hlog] at hs
      | cons m rest =>
        simp only [Source.step, hlog, List.head?_cons, Option.map_some] at hs
        obtain rfl := Option.some.inj hs
        have hfrom := (Log.mem_since.mp (hlog ▸ List.mem_cons_self)).2
        refine ⟨done, ?_, hprocessed, ?_⟩
        · simpa only [Source.pending, hlog, Log.since_upto hlog hfrom (Int.le_refl _)] using hsplit
        · show ((handlePayload N m.payload).run (callExec N Y schema) idx').2 = _
          rw [appliedTo_concat]
          exact congrArg (fun i => ((handlePayload N m.payload).run (callExec N Y schema) i).2) hholds
    | _ => cases hs
  | call =>
    cases phase with
    | applying m rest =>
      cases rest with
      | step obj k => obtain rfl := Option.some.inj hs; exact ⟨done, hsplit, hprocessed, hholds⟩
      | _ => cases hs
    | _ => cases hs
  | finish =>
    cases phase with
    | applying m rest =>
      cases rest with
      | pure u =>
        obtain rfl := Option.some.inj hs
        have hmem : m ∈ log.messages := hsaved
        refine ⟨done ++ [m], ?_, ?_, hholds⟩
        · rw [hsplit]
          show done ++ log.since m.offset = done ++ [m] ++ log.since (m.offset + 1)
          rw [Log.since_self hmem, List.append_assoc]
          rfl
        · show processed ++ [m.offset] = _
          rw [List.map_append]
          exact congrArg (· ++ [m.offset]) hprocessed
      | _ => cases hs
    | _ => cases hs
  | save =>
    cases phase with
    | saving o => obtain rfl := Option.some.inj hs; exact ⟨done, hsplit, hprocessed, hholds⟩
    | _ => cases hs
  | torn n => cases hg
  | saveFails => cases hg
  | crash => cases hg

theorem handOver_covers {l : Loop Y} {ticks : List Tick}
    (hs : start = offsetBeginning ∨ 0 ≤ start ∧ start ≤ int64Max)
    (hl : consumeLoop N Y schema log opt (Loop.begin Y idx start) ticks =
      (l, some (.ok ()))) :
    Covers log ((log.since start).map Message.offset) l.handOver := by
  have hadv := consumeLoop_advanced (Loop.Advanced.begin idx start) hl
  refine ⟨?_, trivial⟩
  show l.processed ++ (log.since (loadOffset l.file)).map Message.offset = _
  rw [hadv.resumes hs, hadv.covers]

theorem handOver_inStep {l : Loop Y} {ticks : List Tick}
    (hs : start = offsetBeginning ∨ 0 ≤ start ∧ start ≤ int64Max)
    (hl : consumeLoop N Y schema log opt (Loop.begin Y idx start) ticks =
      (l, some (.ok ()))) :
    InStep N Y schema log start idx l.handOver := by
  have hadv := consumeLoop_advanced (Loop.Advanced.begin idx start) hl
  have hfirst : (Loop.begin Y idx start).InStep N Y schema log start idx := ⟨[], rfl, rfl, rfl⟩
  obtain ⟨done, hsplit, hprocessed, hidx⟩ := consumeLoop_inStep hfirst hl
  refine ⟨done, ?_, hprocessed, hidx⟩
  show log.since start = done ++ log.since (loadOffset l.file)
  rw [hadv.resumes hs, hsplit]

/-- Catch-up and then consumers, gracefully restarted any number of times: at every moment the
index is the one the catch-up began with and the messages processed so far, each applied once
and in the order of the log; in the middle of a message the calls to come complete it. -/
theorem contents_inStep (N : Nlohmann) (Y : Yikv) (schema : Schema) (log : Log)
    (opt : CatchupOptions) (idx : Y.Contents) (start : Int) (ticks : List Tick) (l : Loop Y)
    (events : List Event) (s : Source Y)
    (hs : start = offsetBeginning ∨ 0 ≤ start ∧ start ≤ int64Max)
    (hl : consumeLoop N Y schema log opt (Loop.begin Y idx start) ticks =
      (l, some (.ok ())))
    (hg : ∀ e ∈ events, e.graceful = true)
    (hr : Runs.exec (Source.step N Y schema log) l.handOver events = some s) :
    ∃ done, log.since start = done ++ s.pending Y log ∧
      s.processed = done.map Message.offset ∧ Holds N Y schema idx done s := by
  let all := (log.since start).map Message.offset
  have hlast : Covers log all s ∧ InStep N Y schema log start idx s := by
    refine Runs.guarded_invariant (P := fun s => Covers log all s ∧
      InStep N Y schema log start idx s) ?_ (Runs.guarded_of_forall hg) hr
      ⟨handOver_covers hs hl, handOver_inStep hs hl⟩
    intro s e s' h hok hstep
    exact ⟨h.1.step hok hstep, h.2.step h.1 hok hstep⟩
  exact hlast.2

/-- The catch-up applies the insertion, the server the patch, after one restart. -/
def twoStarts : List Event :=
  [.start, .quiet, .stop, .start, .fetch, .call, .finish, .save, .quiet, .stop]

theorem patchLog_inStep : ∃ l s,
    consumeLoop patchTexts .plain userSchema patchLog (quietOptions 0)
      (Loop.begin .plain (fun _ => none) 3) [.message, .deadline] = (l, some (.ok ())) ∧
    Runs.exec (Source.step patchTexts .plain userSchema patchLog) l.handOver twoStarts = some s ∧
    s.processed = [3, 5] ∧
    ∃ done, patchLog.since 3 = done ++ s.pending .plain patchLog ∧
      s.processed = done.map Message.offset ∧
      Holds patchTexts .plain userSchema (fun _ => none) done s :=
  ⟨_, _, rfl, rfl, rfl, contents_inStep patchTexts .plain userSchema patchLog (quietOptions 0)
    (fun _ => none) 3 [.message, .deadline] _ twoStarts _ (by decide) rfl (by decide) rfl⟩

/-! ## With crashes -/

/-- The messages from a position on, as a log of their own. -/
def Log.from (log : Log) (start : Int) : Log where
  messages := log.since start
  increasing := log.since_sorted start
  bounded m hm := log.bounded m (Log.mem_since.mp hm).1

theorem Log.from_since {r : Int} (h : NoneBefore log start r) :
    (log.from start).since r = log.since r := by
  unfold Log.from Log.since
  rw [List.filter_comm]
  refine List.filter_eq_self.mpr fun m hm => ?_
  exact decide_eq_true (h m hm)

/-- No consumer stands before the start position, or would restart there. -/
def Within (log : Log) (start : Int) (s : Source Y) : Prop :=
  NoneBefore log start (loadOffset s.file) ∧
    match s.phase with
    | .down => True
    | .polling next => NoneBefore log start next
    | .applying m _ => m ∈ log.messages ∧ start ≤ m.offset
    | .saving o => (0 ≤ o ∧ o < int64Max) ∧ start ≤ o

theorem NoneBefore.of_le {r : Int} (h : start ≤ r) : NoneBefore log start r :=
  fun _ hm => h.trans (Log.mem_since.mp hm).2

theorem Within.step (h : Within log start s) (hk : KeepsStart Y log start s e)
    (hs : s.step N Y schema log e = some s') :
    Within log start s' ∧ s.step N Y schema (log.from start) e = some s' := by
  obtain ⟨idx', file, phase, processed⟩ := s
  obtain ⟨hfile, hphase⟩ := h
  cases e with
  | start =>
    cases phase with
    | down => obtain rfl := Option.some.inj hs; exact ⟨⟨hfile, hfile⟩, rfl⟩
    | _ => cases hs
  | stop =>
    cases phase with
    | polling next => obtain rfl := Option.some.inj hs; exact ⟨⟨hfile, trivial⟩, rfl⟩
    | _ => cases hs
  | quiet =>
    cases phase with
    | polling next => obtain rfl := Option.some.inj hs; exact ⟨⟨hfile, hphase⟩, rfl⟩
    | _ => cases hs
  | fetch =>
    cases phase with
    | polling next =>
      have hsame : (log.from start).since next = log.since next := Log.from_since hphase
      have hstep := hs
      simp only [Source.step] at hs ⊢
      rw [hsame]
      refine ⟨?_, hs⟩
      obtain ⟨m, hm, rfl⟩ := Option.map_eq_some_iff.mp hs
      have hmem : m ∈ log.since next := List.mem_of_mem_head? hm
      exact ⟨hfile, (Log.mem_since.mp hmem).1, hphase m hmem⟩
    | _ => cases hs
  | call =>
    cases phase with
    | applying m rest =>
      cases rest with
      | step obj k => obtain rfl := Option.some.inj hs; exact ⟨⟨hfile, hphase⟩, rfl⟩
      | _ => cases hs
    | _ => cases hs
  | finish =>
    cases phase with
    | applying m rest =>
      cases rest with
      | pure u =>
        obtain rfl := Option.some.inj hs
        exact ⟨⟨hfile, log.bounded m hphase.1, hphase.2⟩, rfl⟩
      | _ => cases hs
    | _ => cases hs
  | torn n =>
    cases phase with
    | saving o => obtain rfl := Option.some.inj hs; exact ⟨⟨hk, hphase⟩, rfl⟩
    | _ => cases hs
  | save =>
    cases phase with
    | saving o =>
      obtain rfl := Option.some.inj hs
      obtain ⟨hrange, hle⟩ := hphase
      refine ⟨⟨?_, NoneBefore.of_le (by omega)⟩, rfl⟩
      show NoneBefore log start (loadOffset (some (offsetText o)))
      rw [loadOffset_saved hrange.1 hrange.2.le]
      exact NoneBefore.of_le (by omega)
    | _ => cases hs
  | saveFails =>
    cases phase with
    | saving o =>
      obtain rfl := Option.some.inj hs
      exact ⟨⟨hfile, NoneBefore.of_le (by have := hphase.2; omega)⟩, rfl⟩
    | _ => cases hs
  | crash =>
    obtain rfl := Option.some.inj hs
    exact ⟨⟨hfile, trivial⟩, by cases phase <;> rfl⟩

/-- Reading later delivers an end of what reading earlier does. -/
theorem Log.since_suffix {r r' : Int} (h : r ≤ r') : ∃ pre, log.since r = pre ++ log.since r' := by
  cases hlater : log.since r' with
  | nil => exact ⟨log.since r, (List.append_nil _).symm⟩
  | cons m rest =>
    obtain ⟨hm, hr'⟩ := Log.mem_since.mp (hlater ▸ List.mem_cons_self)
    obtain ⟨pre, hsplit⟩ := Log.since_split hm (h.trans hr')
    exact ⟨pre, by rw [hsplit, Log.since_cons hlater]⟩

/-- The changes of these messages, in order. -/
def changesIn (N : Nlohmann) (Y : Yikv) (schema : Schema) (messages : List Message) :
    List (Op String (FieldVal schema)) :=
  messages.flatMap fun m => (callsOf N Y schema m.payload).map (changeOf N schema)

theorem changesIn_append (first rest : List Message) : changesIn N Y schema (first ++ rest) =
    changesIn N Y schema first ++ changesIn N Y schema rest :=
  List.flatMap_append

theorem view_appliedTo (hpk : schema.pk ∉ metaFields) {messages : List Message}
    (h : ∀ m ∈ messages, Replayable N Y schema m.payload) (idx : Y.Contents) :
    view Y schema (appliedTo N Y schema idx messages) =
      applyOps (defaultRow schema) (changesIn N Y schema messages) (view Y schema idx) := by
  unfold appliedTo changesIn
  rw [view_handleEach hpk (by simpa using h), List.flatMap_map]

/-- After the catch-up every restart point that is not before the start position leads to the
rows of one pass. -/
theorem handOver_recovers {l : Loop Y} {ticks : List Tick} (hpk : schema.pk ∉ metaFields)
    (hlog : ∀ m ∈ log.since start, Replayable N Y schema m.payload)
    (hs : start = offsetBeginning ∨ 0 ≤ start ∧ start ≤ int64Max)
    (hl : consumeLoop N Y schema log opt (Loop.begin Y idx start) ticks =
      (l, some (.ok ()))) :
    Within log start l.handOver ∧
      Recovers N Y schema (log.from start)
        (view Y schema (appliedTo N Y schema idx (log.since start))) l.handOver := by
  obtain ⟨done, hsplit, -, hidx⟩ := handOver_inStep hs hl
  change log.since start = done ++ log.since (loadOffset l.file) at hsplit
  change l.idx = appliedTo N Y schema idx done at hidx
  have hfile : NoneBefore log start (loadOffset l.file) := by
    intro m hm
    have hmem : m ∈ log.since start := hsplit ▸ List.mem_append_right _ hm
    exact (Log.mem_since.mp hmem).2
  refine ⟨⟨hfile, trivial⟩, fun r hr => ?_⟩
  obtain ⟨mid, hmid⟩ : ∃ mid, (log.from start).since r =
      mid ++ (log.from start).since (loadOffset l.file) := Log.since_suffix hr
  obtain ⟨pre, hpre⟩ : ∃ pre, (log.from start).since (min 0 r) =
      pre ++ (log.from start).since r := Log.since_suffix (min_le_right 0 r)
  rw [Log.from_since hfile] at hmid
  rw [Log.since_nonpos (min_le_left 0 r)] at hpre
  change log.since start = pre ++ (log.from start).since r at hpre
  have hdone : done = pre ++ mid := by
    rw [hsplit, hmid, ← List.append_assoc] at hpre
    exact List.append_cancel_right hpre
  have hmem : ∀ m ∈ done, Replayable N Y schema m.payload :=
    fun m hm => hlog m (hsplit ▸ List.mem_append_left _ hm)
  -- What the catch-up has applied from `r` on is applied again.
  have hagain : changesIn N Y schema mid <+: changesIn N Y schema ((log.from start).since r) := by
    rw [hmid, changesIn_append]
    exact List.prefix_append _ _
  show applyOps (defaultRow schema) (changesIn N Y schema ((log.from start).since r))
    (view Y schema l.idx) = _
  rw [hidx, view_appliedTo hpk hmem, view_appliedTo hpk hlog, hpre, hdone]
  rw [changesIn_append, changesIn_append, applyOps_append, applyOps_append]
  exact applyOps_prefix hagain _

/-- A catch-up and then a server that crashes, restarts and loses saves: once the log is
consumed the rows are those of the imported index after one pass over the messages from the
start position on, unless a torn save has sent a consumer back before that position. -/
theorem table_converges (N : Nlohmann) (Y : Yikv) (schema : Schema) (log : Log)
    (opt : CatchupOptions) (idx : Y.Contents) (start : Int) (ticks : List Tick) (l : Loop Y)
    (events : List Event) (s : Source Y) (hpk : schema.pk ∉ metaFields)
    (hlog : ∀ m ∈ log.since start, Replayable N Y schema m.payload)
    (hs : start = offsetBeginning ∨ 0 ≤ start ∧ start ≤ int64Max)
    (hl : consumeLoop N Y schema log opt (Loop.begin Y idx start) ticks =
      (l, some (.ok ())))
    (hkeep : Runs.Guarded (Source.step N Y schema log) (KeepsStart Y log start) l.handOver events)
    (hr : Runs.exec (Source.step N Y schema log) l.handOver events = some s)
    (hdrained : Drained Y log s) :
    view Y schema s.idx = view Y schema (appliedTo N Y schema idx (log.since start)) := by
  let final := view Y schema (appliedTo N Y schema idx (log.since start))
  have hlast : Within log start s ∧ Recovers N Y schema (log.from start) final s := by
    refine Runs.guarded_invariant (P := fun s => Within log start s ∧
      Recovers N Y schema (log.from start) final s) ?_ hkeep hr (handOver_recovers hpk hlog hs hl)
    intro s e s' h hk hstep
    obtain ⟨hwithin, hsame⟩ := h.1.step hk hstep
    exact ⟨hwithin, h.2.step hpk hlog hsame⟩
  obtain ⟨next, hphase, hend⟩ := hdrained
  obtain ⟨idx', file, phase, processed⟩ := s
  obtain rfl : phase = .polling next := hphase
  have hsettled := hlast.2.2 next (Int.le_refl _)
  unfold Settles changesSince at hsettled
  rw [Log.from_since hlast.1.2, hend] at hsettled
  exact hsettled

/-- A crash in the message, another one after a save that lacks only its newline. -/
def patchEvents : List Event :=
  [.start, .fetch, .call, .crash, .start, .fetch, .call, .finish, .torn 1, .crash, .start]

theorem patchLog_tableConverges : ∃ l s,
    consumeLoop patchTexts .plain userSchema patchLog (quietOptions 0)
      (Loop.begin .plain (fun _ => none) 5) [.deadline] = (l, some (.ok ())) ∧
    Runs.exec (Source.step patchTexts .plain userSchema patchLog) l.handOver patchEvents =
      some s ∧
    s.processed = [5] ∧
    view .plain userSchema s.idx = view .plain userSchema
      (appliedTo patchTexts .plain userSchema (fun _ => none) (patchLog.since 5)) := by
  refine ⟨_, _, rfl, rfl, rfl, ?_⟩
  refine table_converges patchTexts .plain userSchema patchLog (quietOptions 0) (fun _ => none) 5
    [.deadline] _ patchEvents _ (by decide) (fun m hm => ?_) (by decide) rfl (by decide) rfl
    ⟨6, rfl, rfl⟩
  exact patchLog_replayable m (Log.mem_since.mp hm).1

/-- A deletion from before the export, and a patch from after it. -/
def staleLog : Log where
  messages := [⟨3, 0, "\x7b\"_op\":\"DELETE\",\"user_id\":1\x7d"⟩,
    ⟨5, 0, "\x7b\"age\":2,\"user_id\":1\x7d"⟩]
  increasing := by decide
  bounded := by decide

def staleTexts : Nlohmann := plainJson
  [("\x7b\"_op\":\"DELETE\",\"user_id\":1\x7d",
      .object [("_op", .string "DELETE"), ("user_id", .integer 1)]),
    ("\x7b\"age\":2,\"user_id\":1\x7d", .object [("age", .integer 2), ("user_id", .integer 1)])]

/-- The imported user. -/
def taggedIndex : Yikv.plain.Contents := fun k =>
  if k = "1" then some (Yikv.plain.put Yikv.plain.newDoc 4 (.array .str) ["a"]) else none

/-- A save torn at its first character replays the deletion, and what was imported is lost. -/
theorem tornSave_diverges : ∃ l s,
    consumeLoop staleTexts .plain userSchema staleLog (quietOptions 0)
      (Loop.begin .plain taggedIndex 5) [.deadline] = (l, some (.ok ())) ∧
    Runs.exec (Source.step staleTexts .plain userSchema staleLog) l.handOver
      [.start, .fetch, .call, .finish, .torn 0, .crash, .start, .fetch, .call, .finish, .save,
        .fetch, .call, .finish, .save] = some s ∧
    Drained .plain staleLog s ∧
    view .plain userSchema s.idx ≠ view .plain userSchema
      (appliedTo staleTexts .plain userSchema taggedIndex (staleLog.since 5)) := by
  refine ⟨_, _, rfl, rfl, ⟨6, rfl, rfl⟩, fun h => ?_⟩
  have htags : some [] = some ["a"] :=
    congrArg (fun rows => (rows "1").map fun row => row ⟨⟨"tags", 4, .string, true⟩, by decide⟩) h
  exact absurd htags (by decide)

end YikvServer.Kafka
