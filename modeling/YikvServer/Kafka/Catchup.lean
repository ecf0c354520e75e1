import YikvServer.Kafka.Source

/-!
# `RunKafkaImportCatchup`

The one-shot consumer after a bulk import: a start offset by timestamp, a poll
loop that ends after the end of the partition and some silence, or at the wall
clock, and the offset file it leaves for the server.
-/
namespace YikvServer.Kafka

open YikvServer.Theory YikvServer.Index YikvServer.Stream

structure CatchupOptions where
  brokers : String
  topic : String
  offlineWatermarkSec : Int
  rewindMinutes : Nat
  maxSilenceLoops : Int
  deriving DecidableEq, Repr

/-- Two's complement reduction to `int64_t`. -/
def toInt64 (v : Int) : Int := v.bmod (2 ^ 64)

/-- What an `int64_t` holds. -/
def InInt64 (v : Int) : Prop := int64Min ≤ v ∧ v ≤ int64Max

theorem toInt64_inInt64 (v : Int) : InInt64 (toInt64 v) := by
  have hle : -(2 ^ 64 / 2 : Int) ≤ toInt64 v := Int.le_bmod (by decide)
  have hlt : toInt64 v < (2 ^ 64 + 1) / 2 := Int.bmod_lt (by decide)
  simp only [InInt64, int64Min, int64Max]
  omega

/-- The reduction keeps what fits. -/
theorem toInt64_eq_self {v : Int} (h : InInt64 v) : toInt64 v = v := by
  obtain ⟨hmin, hmax⟩ := h
  simp only [int64Min, int64Max] at hmin hmax
  exact Int.bmod_eq_of_le (by omega) (by omega)

/-- The reduction takes a multiple of `2 ^ 64` away. -/
theorem exists_toInt64 (v : Int) : ∃ k : Int, toInt64 v = v - 2 ^ 64 * k :=
  ⟨_, Int.bmod_eq_self_sub_mul_bdiv v (2 ^ 64)⟩

/-- `ts_ms`, clamped at 0. -/
def startTsMs (opt : CatchupOptions) : Int :=
  let ts := toInt64 (toInt64 (opt.offlineWatermarkSec - toInt64 (opt.rewindMinutes * 60)) * 1000)
  if ts < 0 then 0 else ts

/-- `rd_kafka_offsets_for_times`: the earliest offset present with this timestamp
or a later one, `RD_KAFKA_OFFSET_END` when there is none. -/
def offsetsForTimes (present : List Message) (ts : Int) : Int :=
  match present.find? fun m => decide (ts ≤ m.timestamp) with
  | some m => m.offset
  | none => offsetEnd

/-- `if (start_offset < 0) start_offset = RD_KAFKA_OFFSET_BEGINNING`. -/
def seek (offset : Int) : Int := if offset < 0 then offsetBeginning else offset

/-- What one turn of the loop meets: the deadline, or the outcome of a poll. -/
inductive Tick where
  | deadline
  | silent
  | eof
  | failed (text : String)
  | message
  deriving DecidableEq, Repr

structure Loop (Y : Yikv) where
  idx : Y.Contents
  /-- The consumer's position. -/
  next : Int
  lastOffset : Int
  silence : Int
  sawEof : Bool
  idlePolls : Nat
  processed : List Int

/-- `max_loops`. -/
def maxLoops (opt : CatchupOptions) : Int :=
  if opt.maxSilenceLoops > 0 then opt.maxSilenceLoops else 3

variable (N : Nlohmann) (Y : Yikv) (schema : Schema) (log : Log) (opt : CatchupOptions)

def Loop.begin (idx : Y.Contents) (start : Int) : Loop Y where
  idx := idx
  next := start
  lastOffset := start - 1
  silence := 0
  sawEof := false
  idlePolls := 0
  processed := []

/-- One message, handled to its end. -/
def Loop.take (l : Loop Y) (m : Message) : Loop Y :=
  { l with
    idx := ((handlePayload N m.payload).run (callExec N Y schema) l.idx).2
    next := m.offset + 1
    lastOffset := m.offset
    silence := 0
    idlePolls := 0
    processed := l.processed ++ [m.offset] }

/-- The loop over what its turns meet: where it stands, and how it has ended, if it has. An
error is a false return. -/
def consumeLoop (l : Loop Y) : List Tick → Loop Y × Option (Except String Unit)
  | [] => (l, none)
  | .deadline :: _ => (l, some (.ok ()))
  | .silent :: ticks =>
    if l.sawEof then
      if l.silence + 1 ≥ maxLoops opt then ({ l with silence := l.silence + 1 }, some (.ok ()))
      else consumeLoop { l with silence := l.silence + 1 } ticks
    else if l.idlePolls + 1 > 50000 then
      ({ l with idlePolls := l.idlePolls + 1 },
        some (.error "catch-up idle timeout (no EOF, aborting)"))
    else consumeLoop { l with idlePolls := l.idlePolls + 1 } ticks
  | .eof :: ticks => consumeLoop { l with idlePolls := 0, sawEof := true } ticks
  | .failed text :: _ => ({ l with idlePolls := 0 }, some (.error ("consume error: " ++ text)))
  | .message :: ticks =>
    match log.since l.next with
    | [] => (l, none)
    | m :: _ => consumeLoop (l.take N Y schema m) ticks

/-- The whole call up to the files: the lookup's answer, then the loop. An error is a false
return before the loop. -/
def runKafkaImportCatchup (lookup : Except String Int) (idx : Y.Contents) (ticks : List Tick) :
    Except String (Loop Y × Option (Except String Unit)) :=
  if opt.brokers = "" then .error "brokers empty"
  else if opt.topic = "" then .error "topic empty"
  else
    match lookup with
    | .error text => .error text
    | .ok offset => .ok (consumeLoop N Y schema log opt (Loop.begin Y idx (seek offset)) ticks)

/-- `SaveOffsetFile`: the offset file a true return leaves. -/
def Loop.file {Y : Yikv} (l : Loop Y) : Option (List Char) := some (offsetText l.lastOffset)

variable {N Y schema log opt}

/-- Where a loop begun at `start` stands. -/
structure Loop.Advanced (log : Log) (start : Int) (l : Loop Y) : Prop where
  covers : l.processed ++ (log.since l.next).map Message.offset =
    (log.since start).map Message.offset
  cursor : (l.processed = [] ∧ l.next = start ∧ l.lastOffset = start - 1) ∨
    (0 ≤ l.lastOffset ∧ l.lastOffset < int64Max ∧ l.next = l.lastOffset + 1)

theorem Loop.Advanced.begin (idx : Y.Contents) (start : Int) :
    (Loop.begin Y idx start).Advanced log start :=
  ⟨rfl, Or.inl ⟨rfl, rfl, rfl⟩⟩

theorem Loop.Advanced.take {l : Loop Y} {start : Int} {m : Message} {rest : List Message}
    (h : l.Advanced log start) (hm : log.since l.next = m :: rest) :
    (l.take N Y schema m).Advanced log start where
  covers := by
    rw [← h.covers, hm]
    simp [Loop.take, Log.since_cons hm]
  cursor := by
    have hmem := (Log.mem_since.mp (hm ▸ List.mem_cons_self)).1
    exact Or.inr ⟨(log.bounded m hmem).1, (log.bounded m hmem).2, rfl⟩

variable (N schema log opt) in
/-- What every message that is handled keeps, and what does not look at the counters, the
loop keeps, wherever it stands. -/
theorem consumeLoop_invariant {P : Loop Y → Prop} {l : Loop Y} (ticks : List Tick)
    (htake : ∀ l m rest, P l → log.since l.next = m :: rest → P (l.take N Y schema m))
    (hcount : ∀ l silence sawEof idlePolls, P l →
      P { l with silence := silence, sawEof := sawEof, idlePolls := idlePolls })
    (h : P l) : P (consumeLoop N Y schema log opt l ticks).1 := by
  induction ticks generalizing l with
  | nil => exact h
  | cons t ticks ih =>
    cases t with
    | deadline => exact h
    | silent =>
      simp only [consumeLoop]
      split
      · split
        · exact hcount l _ _ _ h
        · exact ih (hcount l _ _ _ h)
      · split
        · exact hcount l _ _ _ h
        · exact ih (hcount l _ _ _ h)
    | eof => exact ih (hcount l _ _ _ h)
    | failed text => exact hcount l _ _ _ h
    | message =>
      simp only [consumeLoop]
      split
      · exact h
      · next m rest hm => exact ih (htake l m rest h hm)

/-- Wherever the loop stands, it has covered a prefix of the log. -/
theorem consumeLoop_advanced {l l' : Loop Y} {start : Int} {ticks : List Tick}
    {ended : Option (Except String Unit)} (h : l.Advanced log start)
    (hr : consumeLoop N Y schema log opt l ticks = (l', ended)) : l'.Advanced log start := by
  have hlast := consumeLoop_invariant N schema log opt
    (P := Loop.Advanced log start) ticks (fun _ _ _ h hm => h.take hm)
    (fun _ _ _ _ h => ⟨h.covers, h.cursor⟩) h
  rwa [hr] at hlast

/-- What the server reads next is where the loop stood. -/
theorem Loop.Advanced.resumes {l : Loop Y} {start : Int} (h : l.Advanced log start)
    (hs : start = offsetBeginning ∨ 0 ≤ start ∧ start ≤ int64Max) :
    log.since (loadOffset l.file) = log.since l.next := by
  have hbegin : offsetBeginning = -2 := rfl
  have hmin : int64Min = -9223372036854775808 := rfl
  rcases h.cursor with ⟨-, hnext, hlast⟩ | ⟨h0, hmax, hnext⟩
  · by_cases hpos : 0 ≤ l.lastOffset
    · rw [Loop.file, loadOffset_saved hpos (by omega), hnext, hlast]
      congr 1
      omega
    · rw [Loop.file, loadOffset_negative (by omega) (by omega), hnext,
        Log.since_nonpos (by omega), Log.since_nonpos (by omega)]
  · rw [Loop.file, loadOffset_saved h0 (by omega), hnext]

/-! ## The start offset -/

/-- The messages there at the lookup, below the high watermark. -/
def present (log : Log) (high : Int) : List Message :=
  log.messages.filter fun m => decide (m.offset < high)

/-- Nothing before the earliest message of the lookup is applied; without one, the
catch-up and then the server take the log from the high watermark on. -/
def NoOlder (log : Log) (high ts : Int) (l : Loop Y) : Prop :=
  match (present log high).find? fun m => decide (ts ≤ m.timestamp) with
  | some m => ∀ o ∈ l.processed, m.offset ≤ o
  | none => l.processed ++ (log.since (loadOffset l.file)).map Message.offset =
      (log.since high).map Message.offset

theorem map_offset_since (log : Log) (start : Int) : (log.since start).map Message.offset =
    (log.messages.map Message.offset).filter fun o => decide (start ≤ o) := by
  rw [Log.since, List.filter_map]
  rfl

/-- The loop that is run has begun at the offset of the lookup. -/
theorem catchup_advanced {lookup : Except String Int} {idx : Y.Contents} {ticks : List Tick}
    {l : Loop Y} {ended : Option (Except String Unit)}
    (h : runKafkaImportCatchup N Y schema log opt lookup idx ticks = .ok (l, ended)) :
    ∃ offset, lookup = .ok offset ∧ l.Advanced log (seek offset) := by
  unfold runKafkaImportCatchup at h
  split at h
  · cases h
  split at h
  · cases h
  cases lookup with
  | error text => cases h
  | ok offset =>
    exact ⟨offset, rfl, consumeLoop_advanced (Loop.Advanced.begin idx _) (Except.ok.inj h)⟩

/-- Where the lookup finds a message, or there is none, no older message is applied, however the
call ends and wherever it is. -/
theorem catchup_processed (idx : Y.Contents) (high : Int) (ticks : List Tick) (l : Loop Y)
    (ended : Option (Except String Unit))
    (h : runKafkaImportCatchup N Y schema log opt
      (.ok (offsetsForTimes (present log high) (startTsMs opt))) idx ticks = .ok (l, ended))
    (hlookup : (∃ m ∈ present log high, startTsMs opt ≤ m.timestamp) ∨ present log high = []) :
    match (present log high).find? fun m => decide (startTsMs opt ≤ m.timestamp) with
    | some m => ∀ o ∈ l.processed, m.offset ≤ o
    | none => ∀ o ∈ l.processed, high ≤ o := by
  obtain ⟨offset, hoffset, hadv⟩ := catchup_advanced h
  obtain rfl := Except.ok.inj hoffset
  have hcovered : ∀ o ∈ l.processed, o ∈ (log.since
      (seek (offsetsForTimes (present log high) (startTsMs opt)))).map Message.offset :=
    fun o ho => hadv.covers ▸ List.mem_append_left _ ho
  unfold offsetsForTimes at hcovered
  cases hfind : (present log high).find? fun m => decide (startTsMs opt ≤ m.timestamp) with
  | some m =>
    have hb := log.bounded m (List.mem_filter.mp (List.mem_of_find?_eq_some hfind)).1
    simp only [hfind, seek, if_neg (not_lt.mpr hb.1)] at hcovered
    intro o ho
    obtain ⟨m', hm', rfl⟩ := List.mem_map.mp (hcovered o ho)
    exact (Log.mem_since.mp hm').2
  | none =>
    have hnil : present log high = [] := by
      refine hlookup.resolve_left ?_
      rintro ⟨m, hm, hts⟩
      exact List.find?_eq_none.mp hfind m hm (decide_eq_true hts)
    intro o ho
    obtain ⟨m, hm, rfl⟩ := List.mem_map.mp (hcovered o ho)
    have hge := List.filter_eq_nil_iff.mp hnil m (Log.mem_since.mp hm).1
    simpa using hge

/-- A successful catch-up starts where its contract says exactly when the lookup
finds a message, or there was none at all. -/
theorem catchup_noOlder_iff (N : Nlohmann) (Y : Yikv) (schema : Schema) (log : Log)
    (opt : CatchupOptions) (idx : Y.Contents) (high : Int) (ticks : List Tick) (l : Loop Y)
    (h : runKafkaImportCatchup N Y schema log opt
      (.ok (offsetsForTimes (present log high) (startTsMs opt))) idx ticks =
        .ok (l, some (.ok ()))) :
    NoOlder log high (startTsMs opt) l ↔
      (∃ m ∈ present log high, startTsMs opt ≤ m.timestamp) ∨ present log high = [] := by
  obtain ⟨offset, hoffset, hadv⟩ := catchup_advanced h
  obtain rfl := Except.ok.inj hoffset
  have hprocessed := catchup_processed idx high ticks l _ h
  unfold NoOlder
  unfold offsetsForTimes at hadv
  cases hfind : (present log high).find? fun m => decide (startTsMs opt ≤ m.timestamp) with
  | some m =>
    have hmem : m ∈ present log high := List.mem_of_find?_eq_some hfind
    rw [hfind] at hprocessed
    exact ⟨fun _ => Or.inl ⟨m, hmem, by simpa using List.find?_some hfind⟩, hprocessed⟩
  | none =>
    rw [hfind] at hadv
    change l.Advanced log offsetBeginning at hadv
    have hcovers : l.processed ++ (log.since (loadOffset l.file)).map Message.offset =
        log.messages.map Message.offset := by
      rw [hadv.resumes (Or.inl rfl), hadv.covers, Log.since_nonpos (by decide)]
    rw [hcovers]
    have hno : ¬ ∃ m ∈ present log high, startTsMs opt ≤ m.timestamp := by
      rintro ⟨m, hm, hts⟩
      simpa [hts] using List.find?_eq_none.mp hfind m hm
    constructor
    · intro hall
      right
      rw [map_offset_since, eq_comm, List.filter_eq_self] at hall
      refine List.filter_eq_nil_iff.mpr fun m hm hlt => ?_
      have hge := hall m.offset (List.mem_map_of_mem hm)
      simp only [decide_eq_true_eq] at hge hlt
      omega
    · rintro (hex | hnil)
      · exact absurd hex hno
      · rw [map_offset_since, eq_comm, List.filter_eq_self]
        intro o ho
        obtain ⟨m, hm, rfl⟩ := List.mem_map.mp ho
        have hge := List.filter_eq_nil_iff.mp hnil m hm
        simp only [decide_eq_true_eq] at hge ⊢
        omega

/-- Two old messages and nothing after the bulk export. -/
def quietLog : Log where
  messages := [⟨0, 100, "\x7b\"user_id\":1\x7d"⟩, ⟨1, 200, "\x7b\"user_id\":2\x7d"⟩]
  increasing := by decide
  bounded := by decide

def quietOptions (watermark : Int) : CatchupOptions where
  brokers := "localhost:9092"
  topic := "user"
  offlineWatermarkSec := watermark
  rewindMinutes := 0
  maxSilenceLoops := 3

def quietTicks : List Tick := [.message, .message, .eof, .silent, .silent, .silent]

def quietEnd : Loop .plain where
  idx := fun _ => none
  next := 2
  lastOffset := 1
  silence := 3
  sawEof := true
  idlePolls := 0
  processed := [0, 1]

theorem quietLog_watermark_zero :
    runKafkaImportCatchup (plainJson []) .plain userSchema quietLog (quietOptions 0)
      (.ok (offsetsForTimes (present quietLog 2) (startTsMs (quietOptions 0)))) (fun _ => none)
      quietTicks = .ok (quietEnd, some (.ok ())) ∧
    (NoOlder quietLog 2 (startTsMs (quietOptions 0)) quietEnd ↔
      (∃ m ∈ present quietLog 2, startTsMs (quietOptions 0) ≤ m.timestamp) ∨
        present quietLog 2 = []) :=
  ⟨rfl, catchup_noOlder_iff (plainJson []) .plain userSchema quietLog (quietOptions 0)
    (fun _ => none) 2 quietTicks quietEnd rfl⟩

/-- With a watermark after both messages the lookup finds none, and both are applied. -/
theorem quietLog_replayed :
    runKafkaImportCatchup (plainJson []) .plain userSchema quietLog (quietOptions 1)
      (.ok (offsetsForTimes (present quietLog 2) (startTsMs (quietOptions 1)))) (fun _ => none)
      quietTicks = .ok (quietEnd, some (.ok ())) ∧
    ¬ NoOlder quietLog 2 (startTsMs (quietOptions 1)) quietEnd := by
  refine ⟨rfl, ?_⟩
  show ¬ ([0, 1] ++ (quietLog.since (loadOffset quietEnd.file)).map Message.offset =
    (quietLog.since 2).map Message.offset)
  decide

end YikvServer.Kafka
