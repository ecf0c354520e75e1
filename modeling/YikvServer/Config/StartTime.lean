import YikvServer.Config.ImportFlags
import YikvServer.Kafka.Catchup

/-!
# Where a catch-up starts

The importer reads a watermark and a rewind from its command line, as `int64_t` and, with
no check, as `uint32_t`; `RunKafkaImportCatchup` makes milliseconds from them in `int64_t`.
The time is the one asked for exactly when the rewind and the milliseconds fit these types.
-/
namespace YikvServer.Config

open YikvServer.Theory YikvServer.Kafka

/-! ## The options of a catch-up -/

/-- The block `kafka` of `table.json`, without the partition. -/
structure TableKafkaConfig where
  topic : String
  brokers : String
  deriving DecidableEq, Repr

/-- `main` after the import: none without `--kafka_catchup`, or the line on `stderr` after its
time, or the options of the catch-up. -/
def importCatchup (f : Flags) (kafka : Option TableKafkaConfig) :
    Option (Except String CatchupOptions) :=
  if f.kafkaCatchup = false then none
  else
    match kafka with
    | none => some (.error " kafka_catchup: table.json has no \"kafka\" block\n")
    | some kc =>
      let brokers := if kc.brokers = "" then f.kafkaDefaultBrokers else kc.brokers
      if brokers = "" then
        some (.error (" kafka_catchup: missing brokers (table.json kafka.brokers or config " ++
          "kafka.default_brokers)\n"))
      else
        some (.ok
          { brokers := brokers
            topic := kc.topic
            offlineWatermarkSec := f.kafkaOfflineWatermarkSec.toInt
            rewindMinutes := f.kafkaRewindMinutes.toNat
            maxSilenceLoops := 3 })

section Spec

/-- A command line whose two texts denote `w` seconds and `r` minutes, and the catch-up that
the importer makes for it. -/
structure CatchupCommand (w r : Int) where
  R : ConfigReader
  host : ImportHost
  argv : List String
  kafka : Option TableKafkaConfig
  flags : Flags
  db : DBOptions
  opt : CatchupOptions
  init : importInit R host argv = .ok (flags, db)
  start : importCatchup flags kafka = some (.ok opt)
  watermark : ∃ text ∈ given "--kafka_offline_watermark_sec" argv, StrTo.Denotes text.toList w
  rewind : ∃ text ∈ given "--kafka_rewind_minutes" argv, StrTo.Denotes text.toList r

/-- The time is what was asked for, and no step on the way to it loses anything. -/
structure StartsExactly (w r : Int) (opt : CatchupOptions) : Prop where
  rewind : (opt.rewindMinutes : Int) = r
  difference : InInt64 (opt.offlineWatermarkSec - opt.rewindMinutes * 60)
  product : InInt64 ((opt.offlineWatermarkSec - opt.rewindMinutes * 60) * 1000)
  value : startTsMs opt = max 0 ((w - 60 * r) * 1000)

/-- The rewind is a `uint32_t`, and the milliseconds are an `int64_t`. -/
structure StartInRange (w r : Int) : Prop where
  nonneg : 0 ≤ r
  lt : r < 2 ^ 32
  millis : InInt64 ((w - 60 * r) * 1000)

end Spec

variable {host : ImportHost} {R : ConfigReader} {arg value : String} {argv : List String}
  {f f' : Flags} {db : DBOptions} {opt : CatchupOptions} {v w r w' r' : Int}

/-! ## What reaches the options -/

/-- The flags that the time is made from. -/
def Flags.times (f : Flags) : Int64 × UInt32 := (f.kafkaOfflineWatermarkSec, f.kafkaRewindMinutes)

/-- Each of the two has its own flag. -/
theorem setFlag_times (h : setFlag host arg value f = some (.ok f')) :
    f'.times =
      (if arg = "--kafka_offline_watermark_sec" then strtoll value else f.times.1,
        if arg = "--kafka_rewind_minutes" then (strtoull value).toUInt32 else f.times.2) := by
  unfold setFlag at h
  split at h
  case h_5 =>
    split at h
    · cases h
    · cases h
      rfl
  case h_6 =>
    split at h
    · cases h
    · cases h
      rfl
  case h_22 => cases h
  all_goals
    cases h
    rfl

theorem setSwitch_times (h : setSwitch arg f = .ok f') : f'.times = f.times := by
  unfold setSwitch at h
  split at h <;> cases h <;> rfl

theorem readMysqlQuery_times (h : readMysqlQuery host f = .ok f') : f'.times = f.times := by
  unfold readMysqlQuery at h
  split at h
  · cases h
    rfl
  split at h
  · cases h
  split at h
  · cases h
  · cases h
    rfl

theorem checkMysqlMode_times (h : checkMysqlMode host f = .ok f') : f'.times = f.times := by
  unfold checkMysqlMode at h
  split at h
  · cases h
  obtain ⟨read, hread, h⟩ := bind_eq_ok.mp h
  have hkeep := readMysqlQuery_times hread
  split at h
  · cases h
  dsimp only at h
  split at h
  · cases h
  · cases h
    exact hkeep

theorem checkFlags_times (h : checkFlags host f = .ok f') : f'.times = f.times := by
  unfold checkFlags at h
  split at h
  · cases h
  split at h
  · cases h
  dsimp only at h
  split at h
  · cases h
  obtain ⟨checked, hchecked, h⟩ := bind_eq_ok.mp h
  have hkeep : checked.times = f.times := by
    split at hchecked
    · exact checkMysqlMode_times hchecked
    · cases hchecked
      rfl
  split at h
  · cases h
  split at h
  · cases h
  · cases h
    exact hkeep

theorem applyConfigFile_times (h : applyConfigFile R host f = .ok f') : f'.times = f.times := by
  unfold applyConfigFile at h
  split at h
  · cases h
  · cases h
    rfl

/-- The times of a whole command line. -/
theorem importInit_times (h : importInit R host argv = .ok (f, db)) :
    f.times =
      (((given "--kafka_offline_watermark_sec" argv).map strtoll).getD 0,
        ((given "--kafka_rewind_minutes" argv).map fun text => (strtoull text).toUInt32).getD
          0) := by
  unfold importInit at h
  obtain ⟨parsed, hparsed, h⟩ := bind_eq_ok.mp h
  obtain ⟨applied, happlied, h⟩ := bind_eq_ok.mp h
  cases h
  unfold parseFlags at hparsed
  obtain ⟨looped, hlooped, hchecked⟩ := bind_eq_ok.mp hparsed
  rw [applyConfigFile_times happlied, checkFlags_times hchecked]
  refine Prod.ext ?_ ?_
  · exact parseArgs_given (by decide)
      (fun arg value f f' hset => congrArg Prod.fst (setFlag_times hset))
      (fun arg f f' hset => congrArg Prod.fst (setSwitch_times hset)) hlooped
  · exact parseArgs_given (by decide)
      (fun arg value f f' hset => congrArg Prod.snd (setFlag_times hset))
      (fun arg f f' hset => congrArg Prod.snd (setSwitch_times hset)) hlooped

theorem importCatchup_ok {kafka : Option TableKafkaConfig}
    (h : importCatchup f kafka = some (.ok opt)) :
    opt.offlineWatermarkSec = f.times.1.toInt ∧ opt.rewindMinutes = f.times.2.toNat := by
  unfold importCatchup at h
  split at h
  · cases h
  cases kafka with
  | none => cases h
  | some kc =>
    dsimp only at h
    generalize (if kc.brokers = "" then f.kafkaDefaultBrokers else kc.brokers) = brokers at h
    split at h
    · cases h
    · cases h
      exact ⟨rfl, rfl⟩

theorem strtoll_denotes (h : StrTo.Denotes value.toList w) :
    (strtoll value).toInt = max int64Min (min int64Max w) := by
  unfold strtoll
  rw [StrTo.strtol_denotes h]
  exact Int64.toInt_ofInt_of_le (by omega) (by omega)

theorem strtoull_denotes (h : StrTo.Denotes value.toList r) (h0 : 0 ≤ r) (hlt : r < 2 ^ 32) :
    ((strtoull value).toUInt32.toNat : Int) = r := by
  unfold strtoull
  rw [StrTo.strtoul_denotes h h0 (by omega), UInt64.toNat_toUInt32, UInt64.toNat_ofNat']
  omega

/-- The watermark saturates, and the rewind is what it should be if it fits. -/
theorem CatchupCommand.opt_times (c : CatchupCommand w r) :
    c.opt.offlineWatermarkSec = max int64Min (min int64Max w) ∧ c.opt.rewindMinutes < 2 ^ 32 ∧
      (0 ≤ r → r < 2 ^ 32 → (c.opt.rewindMinutes : Int) = r) := by
  obtain ⟨watermarkText, hgivenW, hw⟩ := c.watermark
  obtain ⟨rewindText, hgivenR, hr⟩ := c.rewind
  have htimes := importInit_times c.init
  rw [Option.mem_def.mp hgivenW, Option.mem_def.mp hgivenR] at htimes
  obtain ⟨hwatermark, hrewind⟩ := importCatchup_ok c.start
  rw [htimes] at hwatermark hrewind
  refine ⟨hwatermark.trans (strtoll_denotes hw), ?_, fun h0 hlt => ?_⟩
  · rw [hrewind]
    exact UInt32.toNat_lt _
  · rw [hrewind]
    exact strtoull_denotes hr h0 hlt

/-! ## The arithmetic -/

/-- If the milliseconds fit, so do the seconds, and the time is right. -/
theorem startTsMs_of_fits (hrewind : opt.rewindMinutes < 2 ^ 32)
    (hproduct : InInt64 ((opt.offlineWatermarkSec - opt.rewindMinutes * 60) * 1000)) :
    InInt64 (opt.offlineWatermarkSec - opt.rewindMinutes * 60) ∧
      startTsMs opt = max 0 ((opt.offlineWatermarkSec - opt.rewindMinutes * 60) * 1000) := by
  have hseconds : InInt64 ((opt.rewindMinutes : Int) * 60) := by
    simp only [InInt64, int64Min, int64Max]
    omega
  have hdifference : InInt64 (opt.offlineWatermarkSec - opt.rewindMinutes * 60) := by
    simp only [InInt64, int64Min, int64Max] at hproduct ⊢
    omega
  refine ⟨hdifference, ?_⟩
  unfold startTsMs
  rw [toInt64_eq_self hseconds, toInt64_eq_self hdifference, toInt64_eq_self hproduct]
  dsimp only
  split <;> omega

/-- A watermark that has been saturated is too far out for any rewind to bring the milliseconds
back. -/
theorem watermark_of_fits {watermark rewind : Int}
    (hwatermark : watermark = max int64Min (min int64Max w)) (h0 : 0 ≤ rewind)
    (hlt : rewind < 2 ^ 32) (hproduct : InInt64 ((watermark - rewind * 60) * 1000)) :
    watermark = w := by
  simp only [InInt64, int64Min, int64Max] at hwatermark hproduct
  omega

/-- The cases of the watermark. -/
theorem saturated_cases {watermark : Int} (h : watermark = max int64Min (min int64Max w)) :
    watermark = w ∧ InInt64 w ∨ watermark = int64Max ∨ watermark = int64Min := by
  simp only [InInt64, int64Min, int64Max] at h ⊢
  omega

/-- Modulo `2 ^ 61` a positive time leaves only the right number of seconds. -/
theorem seconds_of_startTsMs (hrewind : opt.rewindMinutes < 2 ^ 32) (hpos : 0 < v)
    (h : startTsMs opt = v * 1000) :
    InInt64 (v * 1000) ∧
      ∃ k : Int, opt.offlineWatermarkSec - opt.rewindMinutes * 60 = v + 2 ^ 61 * k := by
  have hseconds : InInt64 ((opt.rewindMinutes : Int) * 60) := by
    simp only [InInt64, int64Min, int64Max]
    omega
  unfold startTsMs at h
  rw [toInt64_eq_self hseconds] at h
  obtain ⟨i, hi⟩ := exists_toInt64 (opt.offlineWatermarkSec - opt.rewindMinutes * 60)
  generalize toInt64 (opt.offlineWatermarkSec - opt.rewindMinutes * 60) = seconds at h hi
  obtain ⟨j, hj⟩ := exists_toInt64 (seconds * 1000)
  have hmillis := toInt64_inInt64 (seconds * 1000)
  generalize toInt64 (seconds * 1000) = millis at h hj hmillis
  dsimp only at h
  have hexact : millis = v * 1000 := by
    split at h <;> omega
  refine ⟨hexact ▸ hmillis, ?_⟩
  -- 1000 is 8 times an odd number.
  have hdvd : (2 ^ 61 : Int) ∣ seconds - v := by grind
  obtain ⟨k, hk⟩ := hdvd
  exact ⟨k + 8 * i, by grind⟩

/-- A positive time comes about in the right way only: a wrong rewind or a saturated watermark is
less than `2 ^ 61` seconds off. -/
theorem fits_of_startTsMs (hwatermark : opt.offlineWatermarkSec = max int64Min (min int64Max w))
    (hrewind : opt.rewindMinutes < 2 ^ 32) (hpos : 0 < w - 60 * r)
    (h : startTsMs opt = (w - 60 * r) * 1000) :
    (opt.rewindMinutes : Int) = r ∧ InInt64 ((w - 60 * r) * 1000) := by
  obtain ⟨hmillis, k, hk⟩ := seconds_of_startTsMs hrewind hpos h
  refine ⟨?_, hmillis⟩
  have hcases := saturated_cases hwatermark
  simp only [InInt64, int64Min, int64Max] at hmillis hcases
  rcases hcases with ⟨hw, hmin, hmax⟩ | hmax | hmin
  · -- 60 is 4 times an odd number, and both rewinds are below `2 ^ 59`.
    rw [hw] at hk
    grind
  · grind
  · grind

/-! ## The start of a catch-up -/

theorem CatchupCommand.startsExactly (c : CatchupCommand w r) (h : StartInRange w r) :
    StartsExactly w r c.opt := by
  obtain ⟨hwatermark, hrewind, hexact⟩ := c.opt_times
  have hr := hexact h.nonneg h.lt
  have hw : c.opt.offlineWatermarkSec = w := by
    have hmillis := h.millis
    have hnonneg := h.nonneg
    have hlt := h.lt
    simp only [InInt64, int64Min, int64Max] at hmillis hwatermark
    omega
  have hmul : (c.opt.offlineWatermarkSec - c.opt.rewindMinutes * 60) * 1000 =
      (w - 60 * r) * 1000 := by
    rw [hw, hr, mul_comm r]
  have hproduct : InInt64 ((c.opt.offlineWatermarkSec - c.opt.rewindMinutes * 60) * 1000) :=
    hmul ▸ h.millis
  obtain ⟨hdifference, hvalue⟩ := startTsMs_of_fits hrewind hproduct
  exact ⟨hr, hdifference, hproduct, hvalue.trans (congrArg (max 0) hmul)⟩

theorem CatchupCommand.inRange (c : CatchupCommand w r) (h : StartsExactly w r c.opt) :
    StartInRange w r := by
  obtain ⟨hwatermark, hlt, -⟩ := c.opt_times
  have hrewind := h.rewind
  have hproduct := h.product
  have hw : c.opt.offlineWatermarkSec = w :=
    watermark_of_fits hwatermark (by omega) (by omega) hproduct
  refine ⟨by omega, by omega, ?_⟩
  rw [hw, hrewind, mul_comm r] at hproduct
  exact hproduct

/-- For whatever command line is accepted, the time is exact if and only if the rewind fits 32
bits and the milliseconds fit 64; a positive time is also right by its value alone in no
other case. Among such command lines a later watermark or a shorter rewind is never an earlier
start. -/
theorem startTime_exact_iff (w r : Int) (c : CatchupCommand w r) :
    (StartsExactly w r c.opt ↔ StartInRange w r) ∧
    (0 < w - 60 * r → (startTsMs c.opt = (w - 60 * r) * 1000 ↔ StartInRange w r)) ∧
    ∀ w' r' (c' : CatchupCommand w' r'), StartInRange w r → StartInRange w' r' → w ≤ w' →
      r' ≤ r → startTsMs c.opt ≤ startTsMs c'.opt := by
  refine ⟨⟨c.inRange, c.startsExactly⟩, fun hpos => ⟨fun h => ?_, fun h => ?_⟩, ?_⟩
  · obtain ⟨hwatermark, hlt, -⟩ := c.opt_times
    obtain ⟨hr, hmillis⟩ := fits_of_startTsMs hwatermark hlt hpos h
    exact ⟨by omega, by omega, hmillis⟩
  · rw [(c.startsExactly h).value]
    exact max_eq_right (by omega)
  · intro w' r' c' h h' hw hr
    rw [(c.startsExactly h).value, (c'.startsExactly h').value]
    exact max_le_max le_rfl (by omega)

/-! ## Times that are wrong -/

def catchupArgs (watermark rewind : String) : List String :=
  importArgs ++ ["--kafka_catchup", "--kafka_offline_watermark_sec", watermark,
    "--kafka_rewind_minutes", rewind]

def catchupFlags (watermark rewind : String) : Flags where
  configPath := "config.json"
  dbPath := "/data/yikv/mydb"
  indexName := "users"
  arenaSegGb := 1
  arenaMaxGb := 512
  inputFiles := ["users.parquet"]
  kafkaCatchup := true
  kafkaWatermarkSet := true
  kafkaOfflineWatermarkSec := strtoll watermark
  kafkaRewindMinutes := (strtoull rewind).toUInt32
  kafkaDefaultBrokers := "broker1:9092,broker2:9092"

/-- Every two texts that denote integers are accepted. -/
def catchupCommand {watermark rewind : String} (hw : StrTo.Denotes watermark.toList w)
    (hr : StrTo.Denotes rewind.toList r) : CatchupCommand w r where
  R := exampleReader 1 512
  host := exampleHost
  argv := catchupArgs watermark rewind
  kafka := some { topic := "users", brokers := "" }
  flags := catchupFlags watermark rewind
  db := importDbOptions (catchupFlags watermark rewind)
  opt :=
    { brokers := "broker1:9092,broker2:9092"
      topic := "users"
      offlineWatermarkSec := (strtoll watermark).toInt
      rewindMinutes := (strtoull rewind).toUInt32.toNat
      maxSilenceLoops := 3 }
  init := rfl
  start := rfl
  watermark := ⟨watermark, rfl, hw⟩
  rewind := ⟨rewind, rfl, hr⟩

/-- 1700000000 seconds and 5 minutes. -/
theorem fiveMinutes_exact :
    StartInRange 1700000000 5 ∧
      ∃ c : CatchupCommand 1700000000 5, StartsExactly 1700000000 5 c.opt ∧
        startTsMs c.opt = 1699999700000 := by
  have hw : StrTo.Denotes "1700000000".toList 1700000000 := StrTo.scan_eq_whole.mp (by decide)
  have hr : StrTo.Denotes "5".toList 5 := StrTo.scan_eq_whole.mp (by decide)
  have hrange : StartInRange 1700000000 5 := ⟨by decide, by decide, by decide, by decide⟩
  obtain ⟨hexact, hvalue, -⟩ := startTime_exact_iff 1700000000 5 (catchupCommand hw hr)
  exact ⟨hrange, catchupCommand hw hr, hexact.mpr hrange, (hvalue (by decide)).mpr hrange⟩

/-- A rewind of `2 ^ 32` minutes is none, while one of a minute less goes back to 0; and a
watermark in nanoseconds has a negative product, and the whole topic is replayed. -/
theorem startTime_wraps :
    (∃ c : CatchupCommand 1700000000 4294967296, ∃ c' : CatchupCommand 1700000000 4294967295,
      startTsMs c.opt = 1700000000000 ∧ startTsMs c'.opt = 0 ∧
        ¬ StartsExactly 1700000000 4294967296 c.opt) ∧
    ∃ c : CatchupCommand 1750000000000000000 5,
      startTsMs c.opt = 0 ∧ ¬ StartsExactly 1750000000000000000 5 c.opt := by
  have hw : StrTo.Denotes "1700000000".toList 1700000000 := StrTo.scan_eq_whole.mp (by decide)
  have hr : StrTo.Denotes "4294967296".toList 4294967296 := StrTo.scan_eq_whole.mp (by decide)
  have hr' : StrTo.Denotes "4294967295".toList 4294967295 := StrTo.scan_eq_whole.mp (by decide)
  have hnanos : StrTo.Denotes "1750000000000000000".toList 1750000000000000000 :=
    StrTo.scan_eq_whole.mp (by decide)
  have hfive : StrTo.Denotes "5".toList 5 := StrTo.scan_eq_whole.mp (by decide)
  have hrange : StartInRange 1700000000 4294967295 := ⟨by decide, by decide, by decide, by decide⟩
  have hzero := ((catchupCommand hw hr').startsExactly hrange).value
  have hnone : (catchupCommand hw hr).opt =
      ⟨"broker1:9092,broker2:9092", "users", 1700000000, 0, 3⟩ := rfl
  have hlate : (catchupCommand hnanos hfive).opt =
      ⟨"broker1:9092,broker2:9092", "users", 1750000000000000000, 5, 3⟩ := rfl
  refine ⟨⟨catchupCommand hw hr, catchupCommand hw hr', ?_, hzero, fun h => ?_⟩,
    catchupCommand hnanos hfive, ?_, fun h => ?_⟩
  · rw [hnone]
    decide
  · rw [hnone] at h
    exact absurd h.rewind (by decide)
  · rw [hlate]
    decide
  · rw [hlate] at h
    exact absurd h.value (by decide)

end YikvServer.Config
