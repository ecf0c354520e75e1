import YikvServer.Kafka.Catchup

/-!
# Handing offsets from the catch-up to the consumers

The offset file is the only thing the two share. Whatever the point at which the
catch-up returns, and through any graceful starts and stops after it, the offsets
processed and those still to come make up the log from the start position on.
-/
namespace YikvServer.Kafka

open YikvServer.Theory YikvServer.Index YikvServer.Stream

variable {N : Nlohmann} {Y : Yikv} {schema : Schema} {log : Log} {all : List Int}
  {s s' : Source Y} {e : Event}

/-- A stop at the head of the loop would resume at the current position. -/
def Saved (log : Log) (s : Source Y) : Prop :=
  match s.phase with
  | .down => True
  | .polling next => log.since (loadOffset s.file) = log.since next
  | .applying m _ => m ∈ log.messages
  | .saving o => 0 ≤ o ∧ o < int64Max

/-- The processed offsets and the pending ones are `all`. -/
structure Covers (log : Log) (all : List Int) (s : Source Y) : Prop where
  split : s.processed ++ (s.pending Y log).map Message.offset = all
  saved : Saved log s

theorem Covers.step (h : Covers log all s) (hg : e.graceful = true)
    (hs : s.step N Y schema log e = some s') : Covers log all s' := by
  obtain ⟨idx, file, phase, processed⟩ := s
  obtain ⟨hsplit, hsaved⟩ := h
  cases e with
  | start =>
    cases phase with
    | down => obtain rfl := Option.some.inj hs; exact ⟨hsplit, rfl⟩
    | _ => cases hs
  | stop =>
    cases phase with
    | polling next =>
      obtain rfl := Option.some.inj hs
      refine ⟨?_, trivial⟩
      change log.since (loadOffset file) = log.since next at hsaved
      simpa only [Source.pending, hsaved] using hsplit
    | _ => cases hs
  | quiet =>
    cases phase with
    | polling next => obtain rfl := Option.some.inj hs; exact ⟨hsplit, hsaved⟩
    | _ => cases hs
  | fetch =>
    cases phase with
    | polling next =>
      cases hlog : log.since next with
      | nil => simp [Source.step, hlog] at hs
      | cons m rest =>
        simp only [Source.step, hlog, List.head?_cons, Option.map_some] at hs
        obtain rfl := Option.some.inj hs
        refine ⟨?_, (Log.mem_since.mp (hlog ▸ List.mem_cons_self)).1⟩
        have hstart := (Log.mem_since.mp (hlog ▸ List.mem_cons_self)).2
        simpa only [Source.pending, hlog, Log.since_upto hlog hstart (Int.le_refl _)] using hsplit
    | _ => cases hs
  | call =>
    cases phase with
    | applying m rest =>
      cases rest with
      | step obj k => obtain rfl := Option.some.inj hs; exact ⟨hsplit, hsaved⟩
      | _ => cases hs
    | _ => cases hs
  | finish =>
    cases phase with
    | applying m rest =>
      cases rest with
      | pure u =>
        obtain rfl := Option.some.inj hs
        have hmem : m ∈ log.messages := hsaved
        refine ⟨?_, log.bounded m hmem⟩
        simp only [Source.pending, Log.since_self hmem, List.map_cons] at hsplit
        simp only [Source.pending, List.append_assoc, List.singleton_append]
        exact hsplit
      | _ => cases hs
    | _ => cases hs
  | save =>
    cases phase with
    | saving o =>
      obtain rfl := Option.some.inj hs
      refine ⟨hsplit, ?_⟩
      change log.since (loadOffset (some (offsetText o))) = log.since (o + 1)
      rw [loadOffset_saved hsaved.1 hsaved.2.le]
    | _ => cases hs
  | torn n => cases hg
  | saveFails => cases hg
  | crash => cases hg

/-- The server's source on the files and the index a catch-up leaves. -/
def Loop.handOver {Y : Yikv} (l : Loop Y) : Source Y where
  idx := l.idx
  file := l.file
  phase := .down
  processed := l.processed

/-- Catch-up and then consumers, gracefully restarted any number of times: what was
processed, in time, and what is still to come are together the log from the start
position on. -/
theorem handOver_gapless (N : Nlohmann) (Y : Yikv) (schema : Schema) (log : Log)
    (opt : CatchupOptions) (idx : Y.Contents) (start : Int) (ticks : List Tick) (l : Loop Y)
    (events : List Event) (s : Source Y)
    (hs : start = offsetBeginning ∨ 0 ≤ start ∧ start ≤ int64Max)
    (hl : consumeLoop N Y schema log opt (Loop.begin Y idx start) ticks =
      (l, some (.ok ())))
    (hg : ∀ e ∈ events, e.graceful = true)
    (hr : Runs.exec (Source.step N Y schema log) l.handOver events = some s) :
    s.processed ++ (s.pending Y log).map Message.offset = (log.since start).map Message.offset ∧
      (s.processed ++ (s.pending Y log).map Message.offset).Pairwise (· < ·) := by
  have hadv := consumeLoop_advanced (Loop.Advanced.begin idx start) hl
  have hfirst : Covers log ((log.since start).map Message.offset) l.handOver := by
    refine ⟨?_, trivial⟩
    show l.processed ++ (log.since (loadOffset l.file)).map Message.offset = _
    rw [hadv.resumes hs, hadv.covers]
  have hstep : ∀ s e s', Covers log ((log.since start).map Message.offset) s →
      e.graceful = true → Source.step N Y schema log s e = some s' →
      Covers log ((log.since start).map Message.offset) s' :=
    fun _ _ _ hc hok hs => hc.step hok hs
  have hlast : Covers log ((log.since start).map Message.offset) s :=
    Runs.guarded_invariant hstep (Runs.guarded_of_forall hg) hr hfirst
  rw [hlast.split]
  exact ⟨rfl, List.pairwise_map.mpr (log.since_sorted start)⟩

/-- A catch-up cut off by the deadline after one message, and a server restarted once. -/
def quietEvents : List Event :=
  [.start, .quiet, .stop, .start, .fetch, .finish, .save, .quiet, .stop]

theorem quietLog_handOver :
    ((0 : Int) = offsetBeginning ∨ (0 : Int) ≤ 0 ∧ (0 : Int) ≤ int64Max) ∧
    ∃ l s, consumeLoop (plainJson []) .plain userSchema quietLog (quietOptions 0)
        (Loop.begin .plain (fun _ => none) 0) [.message, .deadline] = (l, some (.ok ())) ∧
      (∀ e ∈ quietEvents, e.graceful = true) ∧
      Runs.exec (Source.step (plainJson []) .plain userSchema quietLog) l.handOver quietEvents =
        some s ∧
      s.processed = [0, 1] ∧
      s.processed ++ (s.pending .plain quietLog).map Message.offset =
        (quietLog.since 0).map Message.offset ∧
      (s.processed ++ (s.pending .plain quietLog).map Message.offset).Pairwise (· < ·) :=
  ⟨by decide, _, _, rfl, by decide, rfl, rfl,
    handOver_gapless (plainJson []) .plain userSchema quietLog (quietOptions 0) (fun _ => none) 0
      [.message, .deadline] _ quietEvents _ (by decide) rfl (by decide) rfl⟩

end YikvServer.Kafka
