import YikvServer.Artifact.Turns

/-!
# `/deployIndex` and `/switchReloadIndex`

What `pipeline_agent.py` does on the online host, one change of the file system at a time:
it runs `artifact_sync.py pull` or `switch`, and then `link_server_table`. The host is the
release directory of one table and its entry in `SERVER_DB`. A statement that raises has
no step, and a crash is a run that goes no further.
-/
namespace YikvServer.Agent

open YikvServer.Theory.FileTree YikvServer.Artifact

variable {β : Type}

/-- `SERVER_DB/<table>`: a link to a name in the release directory, which is `active` when
`link_server_table` has made it, a link to a directory elsewhere, or a directory. -/
inductive ServerTable where
  | release (name : String)
  | elsewhere
  | directory
  deriving DecidableEq

structure Host (β : Type) where
  dest : Dest β
  served : Option ServerTable

/-- What `link_server_table` finds `SERVER_CONFIG` to be; each but the last is answered
with a 503. -/
inductive ServerConfig where
  | missing
  | invalidJson
  | noDbPath
  | otherDbPath
  | matching
  deriving DecidableEq

inductive Request where
  | deployIndex (buildId : Option String) (forceRefresh : Bool) (maxLocalVersions : Nat)
  | switchReloadIndex (buildId : Option String)

/-- The next statement of a request. -/
inductive RequestPc (St : Type) where
  | pull (args : PullArgs) (pc : PullPc St)
  | switch (buildId : Option String)
  | link (b : String) (pc : LinkPc)
  | config (b : String)
  | unlink (b : String)
  | symlink (b : String)
  | reload (b : String)
  | answered (b : String)
  | failed (b : Option String)

namespace Request

/-- The first statement; a pull always gets `--switch-active`. -/
def start {St : Type} : Request → RequestPc St
  | deployIndex buildId forceRefresh maxLocalVersions =>
    .pull { buildId, dest := "releases", maxLocalVersions, forceRefresh, switchActive := true }
      .resolve
  | switchReloadIndex buildId => .switch buildId

/-- `resolve_build_id_for_switch`. -/
def switchId (dest : Dest β) (buildId : Option String) : Option String :=
  match explicitId buildId with
  | some b => if isDirectory dest b then some b else none
  | none => (versionDirs dest).max?

/-- One step of a request. -/
def step (P : Provider β) (store : Store β) (config : ServerConfig)
    (s : Host β × RequestPc P.down.St) (choice : List Path) :
    Option (Host β × RequestPc P.down.St) :=
  match s with
  | (host, .pull _ (.done b)) => some (host, if b = "" then .failed (some b) else .config b)
  | (host, .pull _ .failed) => some (host, .failed none)
  | (host, .pull args pc) =>
    (pullStep P args store host.dest choice pc).map fun (effect, pc') =>
      ({ host with dest := effect.onDest host.dest }, .pull args pc')
  | (host, .switch buildId) =>
    match switchId host.dest buildId with
    | some b => some (host, .link b .clear)
    | none => some (host, .failed none)
  | (host, .link b pc) =>
    (symlinkStep host.dest b pc).map fun (effect, next) =>
      ({ host with dest := effect.onDest host.dest }, (next.map (.link b)).getD (.config b))
  | (host, .config b) => some (host, if config = .matching then .unlink b else .failed (some b))
  | (host, .unlink b) =>
    if host.served = some .directory then none
    else some ({ host with served := none }, .symlink b)
  | (host, .symlink b) =>
    if host.served.isSome then none
    else some ({ host with served := some (.release "active") }, .reload b)
  | (host, .reload b) => some (host, .answered b)
  | (_, .answered _) => none
  | (_, .failed _) => none

/-- A step of the pull, or what follows when it has exited. -/
theorem step_pull {P : Provider β} {store : Store β} {config : ServerConfig} {host : Host β}
    {args : PullArgs} {pc : PullPc P.down.St} {choice : List Path}
    {s' : Host β × RequestPc P.down.St}
    (h : step P store config (host, .pull args pc) choice = some s') :
    (∃ effect pc', pullStep P args store host.dest choice pc = some (effect, pc') ∧
      s' = ({ host with dest := effect.onDest host.dest }, .pull args pc')) ∨
    (∃ b, pc = .done b ∧ (s' = (host, .failed (some b)) ∨ s' = (host, .config b))) ∨
    (pc = .failed ∧ s' = (host, .failed none)) := by
  have hmap : ((pullStep P args store host.dest choice pc).map fun (effect, pc') =>
      ({ host with dest := effect.onDest host.dest }, .pull args pc')) = some s' →
      ∃ effect pc', pullStep P args store host.dest choice pc = some (effect, pc') ∧
        s' = ({ host with dest := effect.onDest host.dest }, .pull args pc') := fun hmap => by
    obtain ⟨⟨effect, pc'⟩, hturn, rfl⟩ := Option.map_eq_some_iff.mp hmap
    exact ⟨effect, pc', hturn, rfl⟩
  cases pc with
  | done b =>
    refine Or.inr (Or.inl ⟨b, rfl, ?_⟩)
    by_cases hb : b = ""
    · left
      simpa [step, hb] using h.symm
    · right
      simpa [step, hb] using h.symm
  | failed => exact Or.inr (Or.inr ⟨rfl, (Option.some.inj h).symm⟩)
  | _ => exact Or.inl (hmap h)

end Request

/-! ## What is served -/

/-- The build that a pull has resolved. -/
def pulledBuild {St : Type} : PullPc St → Option String
  | .resolve => none
  | .isDir b => some b
  | .skip b => some b
  | .clear b => some b
  | .remove b => some b
  | .scan b => some b
  | .make b _ => some b
  | .copy b _ => some b
  | .prune b => some b
  | .pruning b _ => some b
  | .link b _ => some b
  | .print b => some b
  | .done b => some b
  | .failed => none

/-- The build that a request is to deploy. -/
def RequestPc.build {St : Type} : RequestPc St → Option String
  | .pull _ pc => pulledBuild pc
  | .switch _ => none
  | .link b _ => some b
  | .config b => some b
  | .unlink b => some b
  | .symlink b => some b
  | .reload b => some b
  | .answered b => some b
  | .failed b => b

namespace Host

/-- The names in the release directory that clients reach: `active`, and what
`SERVER_DB/<table>` links to. -/
def roots (host : Host β) : List String :=
  match host.served with
  | some (.release name) => ["active", name]
  | _ => ["active"]

/-- A version that is served. -/
def Serves (host : Host β) (v : String) : Prop :=
  ∃ name ∈ host.roots, resolve host.dest name = some v

/-- The table has been deployed. -/
structure Deployed (host : Host β) : Prop where
  served : host.served ≠ none
  resolves : ∀ name ∈ host.roots, (resolve host.dest name).isSome = true

/-- Both paths lead to an existing directory: a version that was served before, as it was,
or the build that is being deployed. -/
structure Live (old host : Host β) (build : Option String) : Prop where
  served : host.served ≠ none
  resolves : ∀ name ∈ host.roots, ∃ v, resolve host.dest name = some v ∧
    (build = some v ∨ old.Serves v ∧ treeAt host.dest v = treeAt old.dest v)

end Host

/-! ## Safe steps -/

/-- No link on the way to what is served is a leftover `active.tmp`. -/
def Host.Direct (host : Host β) : Prop :=
  ∀ name ∈ host.roots, resolve (host.dest.erase "active.tmp") name = resolve host.dest name

/-- A statement that takes nothing away from what is served. It does not refresh a version
that is served, prunes neither one nor the build just pulled, switches to a directory and
not to a link, and does not remove the link `SERVER_DB/<table>`. The ids that it looks for
are single names. -/
def Host.Safe {St : Type} (host : Host β) : RequestPc St → Prop
  | .pull _ (.isDir b) => IsName b
  | .pull _ (.skip b) =>
    IsName b ∧ (isDirectory host.dest b = true → (treeAt host.dest b).isSome = true)
  | .pull _ (.clear b) => isDirectory host.dest b = true → ¬ host.Serves b
  | .pull args (.prune b) =>
    ∀ victim ∈ victims (versionDirs host.dest) args.maxLocalVersions b,
      victim ≠ b ∧ ¬ host.Serves victim
  | .pull _ (.link _ .clear) => host.Direct
  | .switch buildId => (∀ b ∈ explicitId buildId, IsName b) ∧
    ∀ b ∈ Request.switchId host.dest buildId, IsName b ∧ (treeAt host.dest b).isSome = true
  | .link _ .clear => host.Direct
  | .unlink _ => host.served = some .directory
  | _ => True

end YikvServer.Agent
