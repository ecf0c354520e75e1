import YikvServer.Registry.Names
import Mathlib.Logic.Function.Basic

/-!
# `table_registry.cc`

The registry as a transition system. The holder of `load_table_mu_` and, for each
table, the holder of `reload_serial` are frames with their local variables; calls
that hold neither lock wait in a list. One action runs one frame or one waiting
call up to its next access to shared state, so a list of actions is any
interleaving. The outcome of each call into the filesystem or the DB that can fail
is chosen by the action.
-/
namespace YikvServer.Registry

/-- A canonical directory path. -/
abbrev Dir := String

/-- What lies outside the process, at each moment. -/
structure World where
  dbPath : String
  /-- What `db_path_ / path` resolves to. -/
  resolve : Nat → String → Dir
  /-- `table.json` in the directory configures a Kafka source with brokers. -/
  kafka : Nat → Dir → Bool

/-- `(db_path_ / path).string()`. -/
def World.path (W : World) (path : String) : String :=
  if path.toList.head? = some '/' then path
  else if W.dbPath.toList.getLast?.getD '/' = '/' then W.dbPath ++ path
  else W.dbPath ++ "/" ++ path

/-- One `OpenIndex`: its number tells the mappings of one key apart. -/
structure KVIndex where
  opening : Nat
  key : String
  dir : Dir
  deriving DecidableEq, Repr

/-- `kafka_src` is bound to `configDir / "kafka.offset"`. -/
structure TableSlot where
  kv : KVIndex
  configDir : Dir
  kafka : Bool
  deriving DecidableEq, Repr

structure TableHead where
  slot : Option TableSlot
  stagingIsLive : Bool
  deriving DecidableEq, Repr

/-- Who called `LoadTable`, with what remains to be done. -/
inductive Caller where
  | scan (rest : List String)
  | hotOpen (since : Nat)
  deriving DecidableEq, Repr

/-- The next statement of `LoadTable`. -/
inductive LoadPc where
  | check
  | openIndex
  | canonical
  | build (cfgDir : Dir)
  | insert (slot : TableSlot)
  deriving DecidableEq, Repr

/-- A `LoadTable(db_path_ / tableDir)` that holds `load_table_mu_`. -/
structure LoadFrame where
  tableDir : String
  caller : Caller
  pc : LoadPc
  deriving DecidableEq, Repr

def LoadFrame.name (f : LoadFrame) : String := filename f.tableDir

/-- The next statement of `ReloadTable` under `reload_serial`, with its locals:
`live` is `live_on_staging`, `dir` is `table_config_dir`. -/
inductive ReloadPc where
  | read
  | canonical (live : Bool)
  | link (live : Bool) (dir : Dir)
  | closeNext (live : Bool) (dir : Dir)
  | openNext (live : Bool) (dir : Dir)
  | build (live : Bool) (dir : Dir)
  | swap (live : Bool) (newSlot : TableSlot)
  | stop (live : Bool) (oldSp : Option TableSlot)
  | drain (live : Bool) (oldSp : Option TableSlot)
  | closePrev (live : Bool)
  | unlinkPrev (live : Bool)
  deriving DecidableEq, Repr

structure ReloadFrame where
  since : Nat
  pc : ReloadPc
  deriving DecidableEq, Repr

/-- A call that holds no lock; `since` is when `ReloadTable` began. -/
inductive Call where
  | scan (rest : List String)
  | find (table : String) (since : Nat)
  | isDirectory (table : String) (since : Nat)
  | load (tableDir : String) (caller : Caller)
  | lookup (table : String) (since : Nat)
  | serial (table : String) (since : Nat)
  deriving DecidableEq, Repr

/-- How a `ReloadTable` call ended: normally, or with the text of its exception. -/
structure Answer where
  table : String
  since : Nat
  result : Except String Unit
  deriving DecidableEq

structure State where
  clock : Nat
  heads : String → Option TableHead
  /-- The registrations of the DB. -/
  db : String → Option KVIndex
  openings : Nat
  /-- The links that `ReloadTable` keeps under `db_path_`. -/
  links : String → Option Dir
  load : Option LoadFrame
  reload : String → Option ReloadFrame
  calls : List Call
  /-- The slots that `TableHandle`s in flight pin. -/
  handles : List TableSlot
  /-- The slots of each table whose `KafkaSource` has been started and not stopped. -/
  consumers : String → List TableSlot
  answers : List Answer
  /-- A null index has been dereferenced. -/
  crashed : Bool

def State.init : State where
  clock := 0
  heads := fun _ => none
  db := fun _ => none
  openings := 0
  links := fun _ => none
  load := none
  reload := fun _ => none
  calls := []
  handles := []
  consumers := fun _ => []
  answers := []
  crashed := false

/-- A failure outside: an error with its text, or `GetKVIndex` returning null. -/
inductive Fault where
  | failed (what : String)
  | noIndex
  deriving DecidableEq, Repr

def Fault.what : Fault → String
  | .failed what => what
  | .noIndex => ""

inductive Action where
  /-- Time passes; `active` may have been switched. -/
  | tick
  | acquire (table : String)
  | release (handle : Nat)
  | scanAndLoad (entries : List String)
  | reloadTable (table : String)
  /-- A waiting call goes on. -/
  | call (i : Nat) (fault : Option Fault)
  /-- The holder of `load_table_mu_` goes on. -/
  | load (fault : Option Fault)
  /-- The holder of the table's `reload_serial` goes on. -/
  | reload (table : String) (fault : Option Fault)
  deriving DecidableEq, Repr

end YikvServer.Registry
