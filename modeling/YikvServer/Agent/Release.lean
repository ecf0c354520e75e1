import YikvServer.Agent.Build
import YikvServer.Agent.Deploy
import Mathlib.Logic.Function.Basic

/-!
# A table from its build host to its online host

The build host and the online host of one table and the artifact store between them: any
number of `/buildIndex`, `/pushIndex` and `/publishIndex` on the one, of `/pullIndex`,
`/deployIndex` and `/switchReloadIndex` on the other. All their statements interleave, and
every request can be cut off before each of its own.
-/
namespace YikvServer.Agent

open YikvServer.Theory.FileTree YikvServer.Artifact

variable {β : Type}

/-! ## The online host -/

/-- A request to the online host. -/
inductive OnlineRequest where
  | pullIndex (buildId : Option String) (forceRefresh : Bool) (maxLocalVersions : Nat)
      (switchActive : Bool)
  | release (request : Request)

namespace OnlineRequest

def start {St : Type} : OnlineRequest → RequestPc St
  | pullIndex buildId forceRefresh maxLocalVersions switchActive =>
    .pull { buildId, dest := "releases", maxLocalVersions, forceRefresh, switchActive } .resolve
  | release request => request.start

/-- `pull_index` answers when its pull has exited. -/
def step (P : Provider β) (store : Store β) (config : ServerConfig) (request : OnlineRequest)
    (s : Host β × RequestPc P.down.St) (choice : List Path) :
    Option (Host β × RequestPc P.down.St) :=
  match request, s with
  | pullIndex _ _ _ _, (host, .pull _ (.done b)) =>
    some (host, if b = "" then .failed (some b) else .answered b)
  | _, s => Request.step P store config s choice

end OnlineRequest

namespace RequestPc
variable {St : Type}

/-- The pull that a request is at. What is left to do after it is left to do for the build
that it has printed; a switch links as a pull does. -/
def pullPc : RequestPc St → PullPc St
  | pull _ (.done b) => .print b
  | pull _ pc => pc
  | switch _ => .resolve
  | link b pc => .link b pc
  | config b => .print b
  | unlink b => .print b
  | symlink b => .print b
  | reload b => .print b
  | answered b => .done b
  | failed _ => .failed

def args : RequestPc St → PullArgs
  | pull args _ => { args with dest := "releases" }
  | _ => ⟨none, "releases", 0, false, true⟩

/-- The statements at which a request takes up a build. -/
def takesUp : RequestPc St → Bool
  | switch _ => true
  | pc => pc.pullPc.takesUp

end RequestPc

/-- A request to the online host being served, with the pushes that had completed when it
took up a build. -/
structure OnlineJob {β : Type} (P : Provider β) where
  request : OnlineRequest
  pc : RequestPc P.down.St
  seen : List (String × DirTree β)

/-! ## Both hosts -/

/-- As history, the pushes completed with their sources, and the directories that a request
has begun to change and not brought to an end, in the store and on the online host. -/
structure Release (P : Provider β) where
  build : BuildHost P
  host : Host β
  jobs : List (OnlineJob P)
  completed : List (String × DirTree β)
  tornBuilds : List String
  torn : List String

inductive ReleaseMove (β : Type) where
  | build (m : BuildMove β)
  | arrive (request : OnlineRequest)
  | online (i : Nat) (config : ServerConfig) (choice : List Path)
  /-- A statement raises, or the agent is stopped. -/
  | cut (i : Nat)

variable {P : Provider β}

/-- What the next statement of a request changes in the store. -/
def Job.effect (s : Shared β) (job : Job P) (now : Nat) (choice : List Path) : Effect β :=
  match job.pc with
  | .push pc =>
    ((pushStep P job.request.buildId now (job.reads s) s.store choice pc).map Prod.fst).getD .quiet
  | _ => .quiet

/-- What the next statement of a request changes in the version directories. -/
def OnlineJob.effect (store : Store β) (dest : Dest β) (job : OnlineJob P)
    (choice : List Path) : Effect β :=
  match job.pc with
  | .pull args pc => ((pullStep P args store dest choice pc).map Prod.fst).getD .quiet
  | _ => .quiet

namespace Release

/-- Both agents start on new hosts; an import has left what is at `BUILD_DB/<table>`. -/
def init (found : FoundIndex β) : Release P where
  build := .init found ∅
  host := ⟨∅, none⟩
  jobs := []
  completed := []
  tornBuilds := []
  torn := []

/-- The history after a move of the build host. -/
def record (w : Release P) (build : BuildHost P) : BuildMove β → Release P
  | .turn i now _ choice =>
    match w.build.jobs[i]? with
    | some job =>
      let effect := job.effect w.build.shared now choice
      { w with
        build
        completed := effect.onCompleted ((job.reads w.build.shared).getD ∅) w.completed
        tornBuilds := effect.onTorn w.tornBuilds }
    | none => { w with build }
  | _ => { w with build }

def step (settings : Settings) (w : Release P) : ReleaseMove β → Option (Release P)
  | .build m => (w.build.step settings m).map fun build => w.record build m
  | .arrive request => some { w with jobs := w.jobs ++ [⟨request, request.start, []⟩] }
  | .online i config choice =>
    (w.jobs[i]?).bind fun job =>
      let store := w.build.shared.store
      (job.request.step P store config (w.host, job.pc) choice).map fun (host, pc) =>
        { w with
          host
          jobs := w.jobs.set i
            { job with pc, seen := if job.pc.takesUp then w.completed else job.seen }
          torn := (job.effect store w.host.dest choice).onTorn w.torn }
  | .cut i =>
    (w.jobs[i]?).map fun job => { w with jobs := w.jobs.set i { job with pc := .failed none } }

/-- The version that `active` links to. -/
def Active (w : Release P) (b : String) : Prop := w.host.dest.lookup "active" = some (.link b)

instance (dest : Dest β) (name b : String) : Decidable (dest.lookup name = some (.link b)) :=
  match h : dest.lookup name with
  | some (.link target) => decidable_of_iff (target = b) (by simp)
  | some (.dir t) => isFalse (by simp)
  | none => isFalse (by simp)

instance (w : Release P) (b : String) : Decidable (w.Active b) :=
  inferInstanceAs (Decidable (_ = _))

end Release

/-! ## Requests that keep out of each other's way -/

/-- No pull copies a build that a push replaces; to an object store no empty directories are
pushed. -/
def Job.Apart (w : Release P) (job : Job P) : Prop :=
  match job.pc with
  | .push (.check b) => b ∈ w.build.shared.store → ∀ other ∈ w.jobs, other.pc.pullPc.reads b = false
  | .push (.scan _) => P.isLocal = true ∨ NoEmptyDirs (job.reads w.build.shared)
  | _ => True

/-- No other request has a version in hand, or has still to answer for it. -/
def Release.Free (w : Release P) (b : String) : Prop :=
  ∀ other ∈ w.jobs, other.pc.pullPc.changes b = false ∧ other.pc.pullPc.relies b = false

/-- A version is whole and nobody changes it. -/
def Release.Settled (w : Release P) (b : String) : Prop :=
  b ∉ w.torn ∧ ∀ other ∈ w.jobs, other.pc.pullPc.changes b = false

/-- A request takes up a version only when it is whole, and a build of the store only when
it is there, whole and no push is at it. It refreshes and prunes only what is neither in
use nor served, and makes the link `active` only of its own `active.tmp`. It looks only for
single names. -/
def OnlineJob.Careful (w : Release P) (job : OnlineJob P) : Prop :=
  match job.pc with
  | .pull _ (.isDir b) => IsName b
  | .pull args (.skip b) => (IsName b ∧ b ≠ "active" ∧ b ≠ "active.tmp") ∧
    (isDirectory w.host.dest b = true → args.forceRefresh = false → w.Settled b)
  | .pull _ (.clear b) => isDirectory w.host.dest b = true → ¬ w.Active b ∧ w.Free b
  | .pull _ (.scan b) => b ∈ w.build.shared.store ∧ b ∉ w.tornBuilds ∧
    ∀ push ∈ w.build.jobs, push.pc.changes b = false
  | .pull args (.prune b) =>
    ∀ victim ∈ victims (versionDirs w.host.dest) args.maxLocalVersions b,
      ¬ w.Active victim ∧ w.Free victim
  | .switch buildId => (∀ b ∈ explicitId buildId, IsName b) ∧
    ∀ b ∈ Request.switchId w.host.dest buildId,
      (IsName b ∧ b ≠ "active" ∧ b ≠ "active.tmp") ∧ w.Settled b
  | .pull _ (.link b .replace) => w.host.dest.lookup "active.tmp" = some (.link b)
  | .link b .replace => w.host.dest.lookup "active.tmp" = some (.link b)
  | _ => True

def Release.Careful (w : Release P) : ReleaseMove β → Prop
  | .build m => w.build.Careful m ∧
    match m with
    | .turn i _ _ _ => ∀ job, w.build.jobs[i]? = some job → job.Apart w
    | _ => True
  | .online i _ _ => ∀ job, w.jobs[i]? = some job → job.Careful w
  | _ => True

end YikvServer.Agent
