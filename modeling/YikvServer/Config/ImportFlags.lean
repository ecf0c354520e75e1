import YikvServer.Config.ServerConfig
import YikvServer.Import.BucketBits

/-!
# The command line of `import_pipeline_main.cc`

`ParseFlags` walks over the arguments: a flag with a value takes the argument after it,
whatever that is. Numbers are read by the `strtol` family and cast without a check, the
port apart. `ApplyConfigFile` adds what the server's config says.
-/
namespace YikvServer.Config

open YikvServer.Theory YikvServer.Stream

/-- A 64-bit `long`. -/
def strtoll (text : String) : Int64 :=
  Int64.ofInt (StrTo.strtol (-9223372036854775808) 9223372036854775807 text.toList).1

/-- `strtoul` and `strtoull`. -/
def strtoull (text : String) : UInt64 := UInt64.ofNat (StrTo.strtoul 64 text.toList)

structure Flags where
  configPath : String := ""
  dbPath : String := ""
  indexName : String := ""
  schemaJsonPath : String := ""
  createIfMissing : Bool := false
  recreate : Bool := false
  noArenaLock : Bool := false
  exclusiveArenaLockFromCfg : Bool := true
  arenaSegGb : UInt64 := 0
  arenaMaxGb : UInt64 := 0
  inputFiles : List String := []
  importIoWorkers : UInt32 := 4
  importQueueBatches : UInt64 := 32
  mysqlHost : String := ""
  mysqlPort : UInt16 := 3306
  mysqlUser : String := ""
  mysqlPassword : String := ""
  mysqlDatabase : String := ""
  mysqlQuery : String := ""
  mysqlQueryFile : String := ""
  mysqlInitSqlFile : String := ""
  mysqlBatchRows : UInt64 := 4096
  sqlEstRows : UInt64 := 0
  mysqlPortFromCli : Bool := false
  kafkaCatchup : Bool := false
  kafkaWatermarkSet : Bool := false
  kafkaOfflineWatermarkSec : Int64 := 0
  kafkaRewindMinutes : UInt32 := 0
  kafkaCatchupWallSec : Int32 := 0
  kafkaDefaultBrokers : String := ""
  deriving DecidableEq, Repr

/-- What the importer finds outside: files, data files below a directory, and variables. -/
structure ImportHost where
  files : Files
  collectDataFilesUnderDir : String → Except String (List String)
  getenv : String → Option String

/-- Why the importer ends with status 2: the usage, or a line on `stderr`. -/
inductive Refusal where
  | usage
  | message (text : String)
  deriving DecidableEq, Repr

/-! ## One argument -/

/-- The lines of `--input_list`, without blanks at their ends. -/
def inputList (text : String) : List String :=
  ((text.toList.splitOn '\n').map (List.rdropWhile fun c => c = '\r' ∨ c = ' ' ∨ c = '\t')).filterMap
    fun line => if line = [] then none else some (String.ofList line)

/-- The flags with a value. -/
def setFlag (host : ImportHost) (arg value : String) (f : Flags) : Option (Except Refusal Flags) :=
  match arg with
  | "--config" => some (.ok { f with configPath := value })
  | "--index" => some (.ok { f with indexName := value })
  | "--schema_json" => some (.ok { f with schemaJsonPath := value })
  | "--input" => some (.ok { f with inputFiles := f.inputFiles ++ [value] })
  | "--input_list" =>
    match host.files value with
    | none => some (.error (.message "cannot open --input_list\n"))
    | some text => some (.ok { f with inputFiles := f.inputFiles ++ inputList text })
  | "--input_dir" =>
    match host.collectDataFilesUnderDir value with
    | .error err => some (.error (.message ("--input_dir: " ++ err ++ "\n")))
    | .ok found => some (.ok { f with inputFiles := f.inputFiles ++ found })
  | "--import_io_workers" =>
    let n := (strtoull value).toUInt32
    some (.ok { f with importIoWorkers := if n < 1 then 1 else n })
  | "--import_queue_batches" =>
    let n := strtoull value
    some (.ok { f with importQueueBatches := if n < 1 then 1 else n })
  | "--mysql_host" => some (.ok { f with mysqlHost := value })
  | "--mysql_user" => some (.ok { f with mysqlUser := value })
  | "--mysql_password" => some (.ok { f with mysqlPassword := value })
  | "--mysql_database" => some (.ok { f with mysqlDatabase := value })
  | "--mysql_query_file" => some (.ok { f with mysqlQueryFile := value })
  | "--mysql_query" => some (.ok { f with mysqlQuery := value })
  | "--mysql_port" =>
    let p := strtoull value
    some (.ok { f with
      mysqlPortFromCli := true
      mysqlPort := if p > 65535 then 3306 else p.toUInt16 })
  | "--mysql_batch_rows" =>
    let n := strtoull value
    some (.ok { f with mysqlBatchRows := if n < 1 then 1 else n })
  | "--mysql_init_sql" => some (.ok { f with mysqlInitSqlFile := value })
  | "--sql_est_rows" => some (.ok { f with sqlEstRows := Import.sqlEstRows value.toList })
  | "--kafka_offline_watermark_sec" =>
    some (.ok { f with kafkaWatermarkSet := true, kafkaOfflineWatermarkSec := strtoll value })
  | "--kafka_rewind_minutes" =>
    some (.ok { f with kafkaRewindMinutes := (strtoull value).toUInt32 })
  | "--kafka_catchup_wall_sec" =>
    some (.ok { f with kafkaCatchupWallSec := (strtoll value).toInt32 })
  | _ => none

/-- The flags without one, and what is no flag. -/
def setSwitch (arg : String) (f : Flags) : Except Refusal Flags :=
  match arg with
  | "--create_if_missing" => .ok { f with createIfMissing := true }
  | "--recreate" => .ok { f with recreate := true }
  | "--no_arena_lock" => .ok { f with noArenaLock := true }
  | "--kafka_catchup" => .ok { f with kafkaCatchup := true }
  | "-h" => .error .usage
  | "--help" => .error .usage
  | _ => .error (.message ("Unknown arg: " ++ arg ++ "\n"))

/-- The loop over the arguments. A flag with a value that has none is an unknown argument. -/
def parseArgs (host : ImportHost) : List String → Flags → Except Refusal Flags
  | [], f => .ok f
  | [arg], f => setSwitch arg f
  | arg :: value :: rest, f =>
    match setFlag host arg value f with
    | some (.ok f) => parseArgs host rest f
    | some (.error e) => .error e
    | none =>
      match setSwitch arg f with
      | .ok f => parseArgs host (value :: rest) f
      | .error e => .error e

/-! ## After the loop -/

section Environment
variable (host : ImportHost)

/-- `EnvNonEmpty`. -/
def envNonEmpty (key : String) : Option String := (host.getenv key).filter (· ≠ "")

/-- A field that is empty is filled from the first of the variables that is not. -/
def fromEnv (keys : List String) (field : String) : String :=
  if field = "" then (keys.findSome? (envNonEmpty host)).getD "" else field

/-- `MYSQL_PWD` counts even when it is empty, which is what the field is then. -/
def mysqlPasswordFromEnv (field : String) : String :=
  if field = "" then
    ((envNonEmpty host "MYSQL_PASSWORD").or
      ((envNonEmpty host "YIKV_MYSQL_PASSWORD").or (host.getenv "MYSQL_PWD"))).getD ""
  else field

def mysqlPortFromEnv (port : UInt16) : UInt16 :=
  match ["MYSQL_TCP_PORT", "MYSQL_PORT", "YIKV_MYSQL_PORT"].findSome? (envNonEmpty host) with
  | none => port
  | some text =>
    let n := strtoull text
    if n > 0 ∧ n ≤ 65535 then n.toUInt16 else port

/-- `FillMysqlFlagsFromEnv`. -/
def fillMysqlFlagsFromEnv (f : Flags) : Flags :=
  { f with
    mysqlHost := fromEnv host ["MYSQL_HOST", "YIKV_MYSQL_HOST"] f.mysqlHost
    mysqlUser := fromEnv host ["MYSQL_USER", "YIKV_MYSQL_USER"] f.mysqlUser
    mysqlPassword := mysqlPasswordFromEnv host f.mysqlPassword
    mysqlDatabase := fromEnv host ["MYSQL_DATABASE", "YIKV_MYSQL_DATABASE"] f.mysqlDatabase
    mysqlPort := if f.mysqlPortFromCli then f.mysqlPort else mysqlPortFromEnv host f.mysqlPort }

/-- The query, from its file if that is how it is given. -/
def readMysqlQuery (f : Flags) : Except Refusal Flags :=
  if f.mysqlQueryFile = "" then .ok f
  else
    match host.files f.mysqlQueryFile with
    | none => .error (.message ("cannot read file: " ++ f.mysqlQueryFile ++ "\n"))
    | some text =>
      if text = "" then .error (.message "--mysql_query_file is empty.\n")
      else .ok { f with mysqlQuery := text }

def checkMysqlMode (f : Flags) : Except Refusal Flags :=
  if f.mysqlQuery ≠ "" ∧ f.mysqlQueryFile ≠ "" then
    .error (.message "Use only one of --mysql_query or --mysql_query_file.\n")
  else do
    let f ← readMysqlQuery host f
    if f.mysqlQuery = "" then
      .error (.message "MySQL mode requires --mysql_query or --mysql_query_file.\n")
    else
      let f := fillMysqlFlagsFromEnv host f
      if f.mysqlHost = "" ∨ f.mysqlUser = "" ∨ f.mysqlDatabase = "" then
        .error (.message ("MySQL mode requires --mysql_host, --mysql_user, and " ++
          "--mysql_database (or MYSQL_HOST / MYSQL_USER / MYSQL_DATABASE env, or " ++
          "YIKV_MYSQL_*).\n"))
      else .ok f

/-- The checks of `ParseFlags` after its loop. -/
def checkFlags (f : Flags) : Except Refusal Flags :=
  if f.configPath = "" then .error (.message "Required: --config FILE\n")
  else if f.indexName = "" then .error (.message "Required: --index\n")
  else
    let mysqlMode : Prop := f.mysqlQuery ≠ "" ∨ f.mysqlQueryFile ≠ ""
    if ¬ mysqlMode ∧ f.inputFiles = [] then
      .error (.message ("Required: file inputs (--input | --input_list | --input_dir) or MySQL " ++
        "mode (--mysql_query / --mysql_query_file).\n"))
    else do
      let f ← (if mysqlMode then checkMysqlMode host f else .ok f)
      if f.createIfMissing = true ∧ f.schemaJsonPath = "" then
        .error (.message "--create_if_missing requires --schema_json\n")
      else if f.kafkaCatchup = true ∧ f.kafkaWatermarkSet = false then
        .error (.message
          "--kafka_catchup requires --kafka_offline_watermark_sec SEC (epoch seconds).\n")
      else .ok f

/-- `ParseFlags` on the arguments after the program's name. -/
def parseFlags (argv : List String) : Except Refusal Flags := do
  checkFlags host (← parseArgs host argv {})

end Environment

/-! ## The config file and the DB -/

section Init
variable (R : ConfigReader) (host : ImportHost)

def applyConfigFile (f : Flags) : Except Refusal Flags :=
  match loadServerConfig R host.files f.configPath with
  | .error what => .error (.message ("--config: " ++ what ++ "\n"))
  | .ok cfg =>
    .ok
      { f with
        dbPath := cfg.dbPath
        arenaSegGb := cfg.arenaSegGb
        arenaMaxGb := cfg.arenaMaxGb
        exclusiveArenaLockFromCfg := cfg.exclusiveArenaLock
        kafkaDefaultBrokers := cfg.kafkaDefaultBrokers }

def importDbOptions (f : Flags) : DBOptions where
  dbPath := f.dbPath
  allocDefaults :=
    { mode := .singleWriter
      arenaSize := arenaBytes f.arenaSegGb
      segmentSize := arenaBytes f.arenaSegGb
      maxArenaSize := arenaBytes f.arenaMaxGb
      reclaimDelayNs := some 0 }
  exclusiveArenaLock := f.exclusiveArenaLockFromCfg && !f.noArenaLock

/-- `main` of the importer: the flags and the options that it has for `DB::Init`. -/
def importInit (argv : List String) : Except Refusal (Flags × DBOptions) := do
  let f ← applyConfigFile R host (← parseFlags host argv)
  .ok (f, importDbOptions f)

end Init

/-! ## What a flag is given -/

/-- The flags that take the argument after them, as a list. -/
def valueFlags : List String :=
  ["--config", "--index", "--schema_json", "--input", "--input_list", "--input_dir",
    "--import_io_workers", "--import_queue_batches", "--mysql_host", "--mysql_user",
    "--mysql_password", "--mysql_database", "--mysql_query_file", "--mysql_query",
    "--mysql_port", "--mysql_batch_rows", "--mysql_init_sql", "--sql_est_rows",
    "--kafka_offline_watermark_sec", "--kafka_rewind_minutes", "--kafka_catchup_wall_sec"]

/-- The arguments in groups, each flag with its value. -/
def settings : List String → List (String × Option String)
  | [] => []
  | [arg] => [(arg, none)]
  | arg :: value :: rest =>
    if arg ∈ valueFlags then (arg, some value) :: settings rest
    else (arg, none) :: settings (value :: rest)

/-- The value of the flag; the last one counts. -/
def given (flag : String) (argv : List String) : Option String :=
  ((settings argv).filterMap fun s => if s.1 = flag then s.2 else none).getLast?

variable {host : ImportHost} {arg value flag : String} {argv : List String} {f f' : Flags}

theorem setFlag_isSome : (setFlag host arg value f).isSome ↔ arg ∈ valueFlags := by
  unfold setFlag
  split
  case h_5 =>
    cases host.files value with
    | none => exact iff_of_true rfl (by decide)
    | some text => exact iff_of_true rfl (by decide)
  case h_6 =>
    cases host.collectDataFilesUnderDir value with
    | error err => exact iff_of_true rfl (by decide)
    | ok found => exact iff_of_true rfl (by decide)
  case h_22 => simp_all [valueFlags]
  all_goals exact iff_of_true rfl (by decide)

theorem setFlag_eq_none : setFlag host arg value f = none ↔ arg ∉ valueFlags :=
  Option.not_isSome_iff_eq_none.symm.trans (not_congr setFlag_isSome)

/-- One group of arguments. -/
def Flags.set (host : ImportHost) (f : Flags) (s : String × Option String) :
    Except Refusal Flags :=
  match s.2.bind fun value => setFlag host s.1 value f with
  | some r => r
  | none => setSwitch s.1 f

/-- The loop goes over the groups. -/
theorem parseArgs_eq_foldlM : parseArgs host argv f = (settings argv).foldlM (Flags.set host) f := by
  fun_induction settings argv generalizing f with
  | case1 => rfl
  | case2 arg =>
    show setSwitch arg f = setSwitch arg f >>= Except.ok
    cases setSwitch arg f with
    | error e => rfl
    | ok f' => rfl
  | case3 arg value rest hmem ih =>
    have hsome : (setFlag host arg value f).isSome := setFlag_isSome.mpr hmem
    obtain ⟨r, hr⟩ := Option.isSome_iff_exists.mp hsome
    have hset : f.set host (arg, some value) = r := by simp [Flags.set, hr]
    rw [parseArgs, hr, List.foldlM_cons, hset]
    cases r with
    | error e => rfl
    | ok f' => exact ih
  | case4 arg value rest hmem ih =>
    have hnone : setFlag host arg value f = none := setFlag_eq_none.mpr hmem
    rw [parseArgs, hnone, List.foldlM_cons]
    show _ = setSwitch arg f >>= _
    cases setSwitch arg f with
    | error e => rfl
    | ok f' => exact ih

/-- A field that one flag alone decides is as the flag says, or as it was. -/
theorem parseArgs_given {β : Type} {observe : Flags → β} {conv : String → β}
    (hmem : flag ∈ valueFlags)
    (hflag : ∀ arg value f f', setFlag host arg value f = some (.ok f') →
      observe f' = if arg = flag then conv value else observe f)
    (hswitch : ∀ arg f f', setSwitch arg f = .ok f' → observe f' = observe f)
    (h : parseArgs host argv f = .ok f') :
    observe f' = ((given flag argv).map conv).getD (observe f) := by
  have hstep : ∀ (f : Flags) (s : String × Option String) (f' : Flags), f.set host s = .ok f' →
        observe f' = ((if s.1 = flag then s.2 else none).map conv).getD (observe f) := by
    rintro f ⟨arg, value?⟩ f' hset
    unfold Flags.set at hset
    cases value? with
    | none =>
      rw [ite_self]
      exact hswitch arg f f' hset
    | some value =>
      dsimp only [Option.bind_some] at hset
      cases hr : setFlag host arg value f with
      | some r =>
        rw [hr] at hset
        rw [hflag arg value f f' (hr.trans (congrArg some hset))]
        split <;> rfl
      | none =>
        rw [hr] at hset
        have hne : arg ≠ flag := fun he => setFlag_eq_none.mp hr (he ▸ hmem)
        rw [if_neg hne]
        exact hswitch arg f f' hset
  rw [parseArgs_eq_foldlM] at h
  rw [foldlM_observe hstep h, given, ← List.getLast?_map, List.map_filterMap]

/-! ## One file on `config.example.json` -/

/-- `config.example.json` with these sizes. -/
def exampleJson (seg max : Int) : Json :=
  .object
    [("db_path", .string "/data/yikv/mydb"), ("listen", .string "0.0.0.0:9000"),
      ("arena_seg_gb", .integer seg), ("arena_max_gb", .integer max),
      ("exclusive_arena_lock", .boolean true),
      ("kafka", .object [("default_brokers", .string "broker1:9092,broker2:9092")]),
      ("admin_unix_socket", .string "/var/run/yikv-admin.sock")]

def exampleReader (seg max : Int) : ConfigReader := plainReader [("example", exampleJson seg max)]

/-- One file, an empty directory and no variable. -/
def exampleHost : ImportHost where
  files path := if path = "config.json" then some "example" else none
  collectDataFilesUnderDir _ := .ok []
  getenv _ := none

/-- The arguments of an import of one file. -/
def importArgs : List String :=
  ["--config", "config.json", "--index", "users", "--input", "users.parquet"]

end YikvServer.Config
