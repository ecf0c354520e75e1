import YikvServer.Artifact.InHand

/-!
# `/buildIndex`, `/pushIndex` and `/publishIndex`

What `pipeline_agent.py` does on the build host for one table: any number of requests,
whose statements interleave, on one `BUILD_DB/<table>`, one artifact store and one
`_import_lock`. The import is a process of its own, which changes the directory in any way
until it exits.
-/
namespace YikvServer.Agent

open YikvServer.Theory.FileTree YikvServer.Artifact

/-- What stands at `BUILD_DB/<table>`; a link leads to a directory elsewhere, or to none. A
special file is a socket or a FIFO, for instance. -/
inductive IndexEntry (β : Type) where
  | dir (t : DirTree β)
  | file
  | link (target : Option (DirTree β))
  | special

section Source
variable {β : Type}

/-- The directory at `BUILD_DB/<table>` itself. -/
def directory : Option (IndexEntry β) → Option (DirTree β)
  | some (.dir t) => some t
  | _ => none

/-- The directory that a link leads to. -/
def linked : Option (IndexEntry β) → Option (DirTree β)
  | some (.link target) => target
  | _ => none

/-- The directory at `(BUILD_DB / table).resolve()`. -/
def sourceTree (index : Option (IndexEntry β)) : Option (DirTree β) :=
  (linked index).or (directory index)

/-- What the agent finds at `BUILD_DB/<table>` when it starts. -/
structure FoundIndex (β : Type) where
  entry : Option (IndexEntry β)
  closed : Closed (sourceTree entry)

end Source

section Bodies

/-- Python's `str.isspace` of a character. -/
def isSpace (c : Char) : Bool :=
  let n := c.toNat
  (9 ≤ n && n ≤ 13) || (28 ≤ n && n ≤ 32) || n = 0x85 || n = 0xa0 || n = 0x1680 ||
    (0x2000 ≤ n && n ≤ 0x200a) || n = 0x2028 || n = 0x2029 || n = 0x202f || n = 0x205f ||
    n = 0x3000

/-- `value is not None and str(value).strip() != ""`. -/
def isSet (value : Option String) : Bool :=
  match value with
  | none => false
  | some s => s.toList.any fun c => !isSpace c

/-- A body that the validator accepts. -/
structure BuildIndexBody where
  input : Option String
  dataDir : Option String
  schemaJson : Option String
  exactlyOneInputSource : isSet input ≠ isSet dataDir

inductive BuildRequest where
  | buildIndex (body : BuildIndexBody)
  | pushIndex (buildId : Option String)
  | publishIndex (body : BuildIndexBody) (buildId : Option String)

/-- What `HTTPException` is raised with. -/
structure HttpError where
  status : Nat
  detail : String
  deriving DecidableEq

/-- What the agent is started with, and `BUILD_DB / table`. -/
structure Settings where
  schemaJsonDefault : String
  importBin : String
  indexDir : String

/-- What a request sees of the host's other files. -/
structure HostFiles where
  resolve : String → String
  isFile : String → Bool
  isDir : String → Bool
  executable : String → Bool

namespace BuildIndexBody

/-- `Path(body.schema_json or SCHEMA_JSON_DEFAULT).resolve()`. -/
def schema (body : BuildIndexBody) (settings : Settings) (files : HostFiles) : String :=
  match body.schemaJson with
  | none => files.resolve settings.schemaJsonDefault
  | some path => files.resolve (if path = "" then settings.schemaJsonDefault else path)

def checkSchema (body : BuildIndexBody) (settings : Settings) (files : HostFiles) :
    Option HttpError :=
  let schema := body.schema settings files
  if files.isFile schema then none else some ⟨400, "schema_json not found: " ++ schema⟩

/-- The checks before the import is started. -/
def checkInput (body : BuildIndexBody) (files : HostFiles) : Option HttpError :=
  match body.dataDir with
  | some dir =>
    let dpath := files.resolve dir
    if files.isDir dpath then none else some ⟨400, "data_dir not a directory: " ++ dpath⟩
  | none =>
    let inp := files.resolve (body.input.getD "")
    if files.isFile inp then none else some ⟨400, "input not found: " ++ inp⟩

end BuildIndexBody

/-- `_ensure_executable(IMPORT_BIN, ..)`. -/
def ensureExecutable (settings : Settings) (files : HostFiles) : Option HttpError :=
  let hint := " (bazel build //:yikv_import_pipeline)"
  if files.isFile settings.importBin = false then
    some ⟨500, "missing binary " ++ settings.importBin ++ hint⟩
  else if files.executable settings.importBin then none
  else some ⟨500, "not executable: " ++ settings.importBin ++ hint⟩

/-- The check before a push. -/
def checkSource {β : Type} (settings : Settings) (files : HostFiles)
    (index : Option (IndexEntry β)) : Option HttpError :=
  if (sourceTree index).isSome then none
  else some ⟨400, "index directory missing (run buildIndex first): " ++
    files.resolve settings.indexDir⟩

end Bodies

section Jobs
variable {β : Type}

/-- The next statement of a request; `result` is the answer, with the build id of a push. -/
inductive JobPc (St : Type) where
  | acquire
  | schema (body : BuildIndexBody)
  | executable (body : BuildIndexBody)
  | remove (body : BuildIndexBody)
  | removing (body : BuildIndexBody)
  | input (body : BuildIndexBody)
  | running
  | isDir
  | push (pc : PushPc St)
  | release (result : Except HttpError (Option String))
  | ended (result : Except HttpError (Option String))

/-- A request being served. `source` is where its push reads, when that is elsewhere; `got`
is what the push had brought into the store when its copy ended. -/
structure Job {β : Type} (P : Provider β) where
  request : BuildRequest
  pc : JobPc P.up.St
  source : Option (DirTree β)
  got : Option (DirTree β)

namespace BuildRequest

/-- The requests that take `_import_lock`. -/
def locks : BuildRequest → Bool
  | buildIndex _ => true
  | pushIndex _ => false
  | publishIndex _ _ => true

def start {St : Type} (request : BuildRequest) : JobPc St :=
  if request.locks then .acquire else .isDir

/-- A request ends, and leaves the `with` block first if it is in one. -/
def conclude {St : Type} (request : BuildRequest) (result : Except HttpError (Option String)) :
    JobPc St :=
  if request.locks then .release result else .ended result

/-- The first statement of the `with` block. -/
def enter {St : Type} : BuildRequest → JobPc St
  | buildIndex body => .schema body
  | pushIndex _ => .isDir
  | publishIndex body _ => .schema body

/-- What follows a build that has succeeded. -/
def afterBuild {St : Type} : BuildRequest → JobPc St
  | buildIndex _ => .release (.ok none)
  | pushIndex _ => .isDir
  | publishIndex _ _ => .isDir

def buildId : BuildRequest → Option String
  | buildIndex _ => none
  | pushIndex buildId => buildId
  | publishIndex _ buildId => buildId

end BuildRequest

/-- What the requests share. As history, the trees that finished imports have left, and
whether the directory is as the last of them left it. -/
structure Shared (β : Type) where
  index : Option (IndexEntry β)
  lock : Option Nat
  store : Store β
  finished : List (DirTree β)
  whole : Bool

/-- What a copy leaves in the store when it has ended. -/
def copied (store : Store β) (got : Option (DirTree β)) : Effect β → Option (DirTree β)
  | .complete b => store.lookup b
  | _ => got

namespace Job
variable {P : Provider β}

/-- What a push reads. -/
def reads (s : Shared β) (job : Job P) : Option (DirTree β) := job.source.or (directory s.index)

/-- The request goes on at `pc`. -/
def goto (job : Job P) (pc : JobPc P.up.St) : Job P := { job with pc }

/-- The request goes on at `next` when the check has found nothing. -/
def goOn (job : Job P) (failure : Option HttpError) (next : JobPc P.up.St) : Job P :=
  job.goto (match failure with
    | some e => job.request.conclude (.error e)
    | none => next)

/-- One statement of request `i`. -/
def turn (settings : Settings) (s : Shared β) (i : Nat) (job : Job P) (now : Nat)
    (files : HostFiles) (choice : List Path) : Option (Shared β × Job P) :=
  match job.pc with
  | .acquire =>
    if s.lock = none then some ({ s with lock := some i }, job.goto job.request.enter) else none
  | .schema body => some (s, job.goOn (body.checkSchema settings files) (.executable body))
  | .executable body => some (s, job.goOn (ensureExecutable settings files) (.remove body))
  | .remove body =>
    match s.index with
    | some (.dir _) => some ({ s with whole := false }, job.goto (.removing body))
    -- neither `is_file` nor `is_dir`: it stays
    | some .special => some ({ s with whole := false }, job.goto (.input body))
    | _ => some ({ s with index := none, whole := false }, job.goto (.input body))
  | .removing body =>
    match s.index with
    | some (.dir t) =>
      (rmtreeStep (some t) (choice.headD [])).map fun t' =>
        ({ s with index := t'.map .dir },
          job.goto (if t'.isSome then .removing body else .input body))
    | _ => none
  | .input body => some (s, job.goOn (body.checkInput files) .running)
  | .running => none
  | .isDir =>
    some (s, { job with source := linked s.index }.goOn (checkSource settings files s.index)
      (.push (.resolve 0)))
  | .push (.done b) =>
    some (s, job.goto (job.request.conclude
      (if b = "" then .error ⟨500, "push produced no build_id on stdout"⟩ else .ok (some b))))
  | .push .failed => some (s, job.goto (job.request.conclude (.error ⟨500, "push failed"⟩)))
  | .push pc =>
    (pushStep P job.request.buildId now (job.reads s) s.store choice pc).map
      fun (effect, pc') =>
        ({ s with store := effect.onStore s.store },
          { job with pc := .push pc', got := copied s.store job.got effect })
  | .release result => some ({ s with lock := none }, job.goto (.ended result))
  | .ended _ => none

/-- The import exits, with the text of the error if it has failed. -/
def importExit (s : Shared β) (job : Job P) (failure : Option String) :
    Option (Shared β × Job P) :=
  match job.pc, failure with
  | .running, none =>
    some ({ s with
      finished := (directory s.index).toList ++ s.finished
      whole := (directory s.index).isSome }, job.goto job.request.afterBuild)
  | .running, some detail => some (s, job.goto (job.request.conclude (.error ⟨500, detail⟩)))
  | _, _ => none

/-- The import changes the directory, which it cannot make where a special file stands. -/
def importWrite (s : Shared β) (job : Job P) (t : SourceTree β) : Option (Shared β × Job P) :=
  match job.pc with
  | .running =>
    match s.index with
    | some .special => none
    | _ => some ({ s with index := some (.dir t.tree) }, job)
  | _ => none

/-- A statement raises. -/
def raise (s : Shared β) (job : Job P) : Option (Shared β × Job P) :=
  match job.pc with
  | .acquire => none
  | .release _ => none
  | .ended _ => none
  | _ => some (s, job.goto (job.request.conclude (.error ⟨500, "Internal Server Error"⟩)))

end Job

/-- The build host. -/
structure BuildHost (P : Provider β) where
  shared : Shared β
  jobs : List (Job P)

inductive BuildMove (β : Type) where
  | start (request : BuildRequest)
  | turn (i now : Nat) (files : HostFiles) (choice : List Path)
  | importWrite (i : Nat) (t : SourceTree β)
  | importExit (i : Nat) (failure : Option String)
  | raise (i : Nat)

namespace BuildHost
variable {P : Provider β}

/-- The agent starts; what it finds at `BUILD_DB/<table>` has been left by an import. -/
def init (found : FoundIndex β) (store : Store β) : BuildHost P where
  shared := ⟨found.entry, none, store, (sourceTree found.entry).toList,
    (directory found.entry).isSome⟩
  jobs := []

/-- One request moves. -/
def moveJob (w : BuildHost P) (i : Nat)
    (f : Shared β → Job P → Option (Shared β × Job P)) : Option (BuildHost P) :=
  (w.jobs[i]?).bind fun job =>
    (f w.shared job).map fun (shared, job') => ⟨shared, w.jobs.set i job'⟩

def step (settings : Settings) (w : BuildHost P) : BuildMove β → Option (BuildHost P)
  | .start request => some { w with jobs := w.jobs ++ [⟨request, request.start, none, none⟩] }
  | .turn i now files choice =>
    w.moveJob i fun s job => job.turn settings s i now files choice
  | .importWrite i t => w.moveJob i fun s job => job.importWrite s t
  | .importExit i failure => w.moveJob i fun s job => job.importExit s failure
  | .raise i => w.moveJob i fun s job => job.raise s

end BuildHost

/-! ## Requests that keep out of each other's way -/

/-- A request deletes the directory or rebuilds it. -/
def JobPc.builds {St : Type} : JobPc St → Bool
  | .removing _ => true
  | .input _ => true
  | .running => true
  | _ => false

/-- A push copies its source. -/
def JobPc.copies {St : Type} : JobPc St → Bool
  | .push pc => pc.copies
  | _ => false

/-- A push has a build of the store in hand. -/
def JobPc.changes {St : Type} : JobPc St → String → Bool
  | .push pc, name => pc.changes name
  | _, _ => false

variable {P : Provider β}

/-- A build begins to remove the directory only while no `/pushIndex` copies it, and a
`/pushIndex` begins to copy it only when it is as the last import left it. In the store a
push replaces a build only while no other has it in hand, and uploads to an object store
only ids that are not there. -/
def Job.Careful (w : BuildHost P) (job : Job P) : Prop :=
  match job.pc with
  | .remove _ => ∀ other ∈ w.jobs, other.request.locks = false → other.source = none →
    other.pc.copies = false
  | .push (.isDir b) => IsName b
  | .push (.check b) => b ∈ w.shared.store → ∀ other ∈ w.jobs, other.pc.changes b = false
  | .push (.scan b) => (job.request.locks = false → job.source = none → w.shared.whole = true) ∧
    (P.isLocal = true ∨ b ∉ w.shared.store ∧ ∀ other ∈ w.jobs, other.pc.changes b = false)
  | _ => True

def BuildHost.Careful (w : BuildHost P) : BuildMove β → Prop
  | .turn i _ _ _ => ∀ job, w.jobs[i]? = some job → job.Careful w
  | _ => True

end Jobs

end YikvServer.Agent
