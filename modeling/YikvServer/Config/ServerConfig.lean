import YikvServer.Stream.Json
import YikvServer.Theory.DecimalText
import YikvServer.Theory.Fallible
import YikvServer.Theory.PathText

/-!
# `server_config.h`

`LoadServerConfig` with every member that it reads. What it returns has passed its checks.
The server makes the options for its DB from it.
-/
namespace YikvServer.Config

open YikvServer.Theory YikvServer.Theory.PathText YikvServer.Stream

/-- What of nlohmann::json only the loaders of configs use: `operator>>`, which stops after
the first value of a stream, and `get<uint64_t>`. -/
structure ConfigReader extends Nlohmann where
  readStream : String → Except JsonException Json
  getUint64 : Json → Except JsonException UInt64
  get_null : ∀ s, get .str .null ≠ .ok s

/-- The library on integers, strings and booleans, and on the listed files. -/
def plainReader (texts : List (String × Json)) : ConfigReader where
  toNlohmann := plainJson texts
  readStream := (plainJson texts).parse
  getUint64
    | .integer v => .ok (UInt64.ofInt v)
    | _ => .error ⟨"type must be number"⟩
  get_null _ h := nomatch h

/-- The contents of the files that can be opened. -/
abbrev Files := String → Option String

/-- A config that has been accepted. -/
structure ServerConfig where
  dbPath : String
  listen : String
  arenaSegGb : UInt64
  arenaMaxGb : UInt64
  exclusiveArenaLock : Bool
  kafkaDefaultBrokers : String
  adminUnixSocket : List Char
  dbPath_ne : dbPath ≠ ""
  arenaSegGb_pos : 0 < arenaSegGb
  arenaSegGb_le : arenaSegGb ≤ arenaMaxGb

/-- `j.contains(key)` and `j[key]` in one; the last value of a repeated key counts. -/
def memberOf (key : String) : Json → Option Json
  | .object members => members.reverse.lookup key
  | _ => none

/-- `if (j.contains(key)) x = j[key].get<T>()`. -/
def getOr {α : Type} (get : Json → Except JsonException α) (key : String) (x : α) (j : Json) :
    Except String α :=
  match memberOf key j with
  | none => .ok x
  | some v => (get v).mapError JsonException.what

/-- The whitespace around the socket's path is erased. -/
def eraseSpace (s : List Char) : List Char :=
  (s.dropWhile DecimalText.isSpace).rdropWhile DecimalText.isSpace

/-- The socket next to the database. -/
def defaultAdminSocket (dbPath : List Char) : List Char :=
  let dbp := FsPath.ofText dbPath
  let parent := if dbp.hasParentPath then dbp.parentPath else FsPath.ofText ['.']
  (parent.append "admin.sock").lexicallyNormal.string

/-- What `admin_unix_socket` of the config comes to. -/
def effectiveAdminSocket (dbPath adminUnixSocket : List Char) : List Char :=
  let socket := eraseSpace adminUnixSocket
  if socket = [] then defaultAdminSocket dbPath else socket

section Load
variable (R : ConfigReader)

/-- `j["kafka"]["default_brokers"]`. -/
def kafkaDefaultBrokers (j : Json) : Except String String :=
  match memberOf "kafka" j with
  | none => .ok ""
  | some kafka => getOr (R.get .str) "default_brokers" "" kafka

/-- `LoadServerConfig` from the parsed file on. -/
def readServerConfig (j : Json) : Except String ServerConfig := do
  let dbPath ← getOr (R.get .str) "db_path" "" j
  if hdb : dbPath = "" then .error "config missing required key: db_path"
  else
    let listen ← getOr (R.get .str) "listen" "0.0.0.0:9000" j
    let arenaSegGb ← getOr R.getUint64 "arena_seg_gb" 1 j
    let arenaMaxGb ← getOr R.getUint64 "arena_max_gb" 512 j
    let exclusiveArenaLock ← getOr R.getBool "exclusive_arena_lock" true j
    let brokers ← kafkaDefaultBrokers R j
    let adminUnixSocket ← getOr (R.get .str) "admin_unix_socket" "" j
    if hne : arenaSegGb = 0 ∨ arenaMaxGb = 0 then
      .error "arena_seg_gb and arena_max_gb must be positive"
    else if hle : arenaMaxGb < arenaSegGb then
      .error "arena_max_gb must be >= arena_seg_gb"
    else
      .ok
        { dbPath := dbPath
          listen := listen
          arenaSegGb := arenaSegGb
          arenaMaxGb := arenaMaxGb
          exclusiveArenaLock := exclusiveArenaLock
          kafkaDefaultBrokers := brokers
          adminUnixSocket := effectiveAdminSocket dbPath.toList adminUnixSocket.toList
          dbPath_ne := hdb
          arenaSegGb_pos := UInt64.pos_iff_ne_zero.mpr fun h => hne (Or.inl h)
          arenaSegGb_le := UInt64.not_lt.mp hle }

def loadServerConfig (files : Files) (path : String) : Except String ServerConfig :=
  match files path with
  | none => .error ("cannot open config file: " ++ path)
  | some text =>
    match R.readStream text with
    | .error e => .error ("config JSON parse error: " ++ e.what)
    | .ok j => readServerConfig R j

end Load

/-! ## The options of the DB -/

inductive AllocatorMode where
  | concurrent
  | singleWriter
  deriving DecidableEq, Repr

/-- `reclaimDelayNs` is none where `main` leaves the library's own. -/
structure AllocDefaults where
  mode : AllocatorMode
  arenaSize : UInt64
  segmentSize : UInt64
  maxArenaSize : UInt64
  reclaimDelayNs : Option UInt64
  deriving DecidableEq, Repr

structure DBOptions where
  dbPath : String
  allocDefaults : AllocDefaults
  exclusiveArenaLock : Bool
  deriving DecidableEq, Repr

/-- `gb * 1024ull * 1024ull * 1024ull`. -/
def arenaBytes (gb : UInt64) : UInt64 := gb * 1024 * 1024 * 1024

def serverDbOptions (cfg : ServerConfig) : DBOptions where
  dbPath := cfg.dbPath
  allocDefaults :=
    { mode := .concurrent
      arenaSize := arenaBytes cfg.arenaSegGb
      segmentSize := arenaBytes cfg.arenaSegGb
      maxArenaSize := arenaBytes cfg.arenaMaxGb
      reclaimDelayNs := none }
  exclusiveArenaLock := cfg.exclusiveArenaLock

/-- `main` of the server up to `DB::Init`. -/
def serverInit (R : ConfigReader) (files : Files) : List String → Except String DBOptions
  | [] => .error "Usage: yikv_server config.json\n"
  | path :: _ =>
    match loadServerConfig R files path with
    | .error what => .error ("config error: " ++ what ++ "\n")
    | .ok cfg => .ok (serverDbOptions cfg)

/-! ## What is accepted -/

/-- The members besides `db_path` and `admin_unix_socket` have the types that are asked for, and
the sizes of the arena pass their checks. -/
structure RestLoads (R : ConfigReader) (j : Json) : Prop where
  listen : ∃ v, getOr (R.get .str) "listen" "0.0.0.0:9000" j = .ok v
  arena : ∃ seg max, getOr R.getUint64 "arena_seg_gb" 1 j = .ok seg ∧
    getOr R.getUint64 "arena_max_gb" 512 j = .ok max ∧ 0 < seg ∧ seg ≤ max
  exclusive : ∃ v, getOr R.getBool "exclusive_arena_lock" true j = .ok v
  brokers : ∃ v, kafkaDefaultBrokers R j = .ok v

variable {R : ConfigReader} {j : Json} {path : List Char}

/-- The config is accepted when all its members are, and its socket comes from two of them. -/
theorem readServerConfig_iff :
    (∃ cfg, readServerConfig R j = .ok cfg ∧ cfg.adminUnixSocket = path) ↔
      RestLoads R j ∧ ∃ dbPath socket, getOr (R.get .str) "db_path" "" j = .ok dbPath ∧
        dbPath ≠ "" ∧ getOr (R.get .str) "admin_unix_socket" "" j = .ok socket ∧
        effectiveAdminSocket dbPath.toList socket.toList = path := by
  constructor
  · rintro ⟨cfg, h, rfl⟩
    unfold readServerConfig at h
    obtain ⟨dbPath, hdb, h⟩ := bind_eq_ok.mp h
    split at h
    · cases h
    rename_i hne
    obtain ⟨listen, hlisten, h⟩ := bind_eq_ok.mp h
    obtain ⟨seg, hseg, h⟩ := bind_eq_ok.mp h
    obtain ⟨max, hmax, h⟩ := bind_eq_ok.mp h
    obtain ⟨exclusive, hexclusive, h⟩ := bind_eq_ok.mp h
    obtain ⟨brokers, hbrokers, h⟩ := bind_eq_ok.mp h
    obtain ⟨socket, hsocket, h⟩ := bind_eq_ok.mp h
    split at h
    · cases h
    rename_i hpos
    split at h
    · cases h
    rename_i hle
    obtain rfl := Except.ok.inj h
    have harena : 0 < seg ∧ seg ≤ max :=
      ⟨UInt64.pos_iff_ne_zero.mpr fun h => hpos (Or.inl h), UInt64.not_lt.mp hle⟩
    exact ⟨⟨⟨listen, hlisten⟩, ⟨seg, max, hseg, hmax, harena⟩, ⟨exclusive, hexclusive⟩,
      ⟨brokers, hbrokers⟩⟩, dbPath, socket, hdb, hne, hsocket, rfl⟩
  · rintro ⟨⟨⟨listen, hlisten⟩, ⟨seg, max, hseg, hmax, hpos, hle⟩, ⟨exclusive, hexclusive⟩,
      ⟨brokers, hbrokers⟩⟩, dbPath, socket, hdb, hne, hsocket, rfl⟩
    have hzero : ¬ (seg = 0 ∨ max = 0) := by
      rintro (h | h)
      · exact UInt64.pos_iff_ne_zero.mp hpos h
      · exact UInt64.pos_iff_ne_zero.mp (UInt64.lt_of_lt_of_le hpos hle) h
    refine ⟨⟨dbPath, listen, seg, max, exclusive, brokers, _, hne, hpos, hle⟩, ?_, rfl⟩
    unfold readServerConfig
    rw [hdb, ok_bind, dif_neg hne, hlisten, ok_bind, hseg, ok_bind, hmax, ok_bind, hexclusive,
      ok_bind, hbrokers, ok_bind, hsocket, ok_bind, dif_neg hzero, dif_neg (UInt64.not_lt.mpr hle)]
    rfl

end YikvServer.Config
