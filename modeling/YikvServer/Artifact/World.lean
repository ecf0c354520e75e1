import YikvServer.Artifact.Sync
import Mathlib.Logic.Function.Basic

/-!
# Runs of pushes and pulls

Any number of `cmd_push` and `cmd_pull` of one table, whose steps interleave, with one
artifact store and any number of `--dest` directories. A run can be cut off, or fail, at
every step, and then leaves what it has written.
-/
namespace YikvServer.Artifact

open YikvServer.Theory.FileTree

/-- A source directory. -/
structure SourceTree (β : Type) where
  tree : DirTree β
  closed : Closed (some tree)

/-- A build of one file. -/
def oneFile (content : Nat) : SourceTree Nat where
  tree := AList.singleton ["table.json"] (.file [content])
  closed := closed_flat fun q hq => by
    obtain rfl := List.mem_singleton.mp hq
    exact Nat.le_refl 1

structure PushRun {β : Type} (P : Provider β) where
  buildId : Option String
  source : SourceTree β
  pc : PushPc P.up.St

/-- `seen` are the pushes that had completed when the pull took up a build. -/
structure PullRun {β : Type} (P : Provider β) where
  args : PullArgs
  pc : PullPc P.down.St
  seen : List (String × DirTree β)

/-- The directories, the runs, and as history the pushes completed, with their sources, and
the version directories that a run has begun to change and not brought to an end. -/
structure World {β : Type} (P : Provider β) where
  store : Store β
  dests : String → Dest β
  pushes : List (PushRun P)
  pulls : List (PullRun P)
  completed : List (String × DirTree β)
  tornBuilds : List String
  torn : String → List String

inductive Move (β : Type) where
  | startPush (buildId : Option String) (source : SourceTree β)
  | startPull (args : PullArgs)
  /-- A push goes on, when the clock shows `now`. -/
  | push (i now : Nat) (choice : List Path)
  | pull (i : Nat) (choice : List Path)
  /-- A run fails or is cut off. -/
  | cutPush (i : Nat)
  | cutPull (i : Nat)

namespace Effect
variable {β : Type}

/-- What is left half-done. -/
def onTorn : Effect β → List String → List String
  | write name (some _), torn => torn.insert name
  | write name none, torn => torn.filter (· ≠ name)
  | complete name, torn => torn.filter (· ≠ name)
  | _, torn => torn

/-- A push that has ended its copy. -/
def onCompleted (source : DirTree β) :
    Effect β → List (String × DirTree β) → List (String × DirTree β)
  | complete b, completed => (b, source) :: completed
  | _, completed => completed

end Effect

section World
variable {β : Type} {P : Provider β}

/-- The statements at which a pull takes up a build: from the store, or as it is in
`--dest`. -/
def PullPc.takesUp {St : Type} : PullPc St → Bool
  | .skip _ => true
  | .scan _ => true
  | _ => false

def World.init : World P where
  store := ∅
  dests := fun _ => ∅
  pushes := []
  pulls := []
  completed := []
  tornBuilds := []
  torn := fun _ => []

def World.step (w : World P) : Move β → Option (World P)
  | .startPush buildId source =>
    some { w with pushes := w.pushes ++ [⟨buildId, source, .resolve 0⟩] }
  | .startPull args => some { w with pulls := w.pulls ++ [⟨args, .resolve, []⟩] }
  | .push i now choice =>
    (w.pushes[i]?).bind fun run =>
      (pushStep P run.buildId now (some run.source.tree) w.store choice run.pc).map
        fun (effect, pc) =>
          { w with
            store := effect.onStore w.store
            pushes := w.pushes.set i { run with pc }
            completed := effect.onCompleted run.source.tree w.completed
            tornBuilds := effect.onTorn w.tornBuilds }
  | .pull i choice =>
    (w.pulls[i]?).bind fun run =>
      let d := run.args.dest
      (pullStep P run.args w.store (w.dests d) choice run.pc).map fun (effect, pc) =>
        { w with
          dests := Function.update w.dests d (effect.onDest (w.dests d))
          pulls := w.pulls.set i
            { run with pc, seen := if run.pc.takesUp then w.completed else run.seen }
          torn := Function.update w.torn d (effect.onTorn (w.torn d)) }
  | .cutPush i =>
    (w.pushes[i]?).map fun run => { w with pushes := w.pushes.set i { run with pc := .failed } }
  | .cutPull i =>
    (w.pulls[i]?).map fun run => { w with pulls := w.pulls.set i { run with pc := .failed } }

end World

/-! ## Runs that keep out of each other's way -/

section Careful
variable {β : Type} {St : Type}

/-- A push has a build of the store in hand. -/
def PushPc.changes : PushPc St → String → Bool
  | .remove b, name => b = name
  | .copy b _, name => b = name
  | _, _ => false

/-- A pull copies a build. -/
def PullPc.reads : PullPc St → String → Bool
  | .make b _, name => b = name
  | .copy b _, name => b = name
  | _, _ => false

/-- A pull has a version directory in hand. -/
def PullPc.changes : PullPc St → String → Bool
  | .remove b, name => b = name
  | .copy b _, name => b = name
  | .pruning _ rest, name => name ∈ rest
  | _, _ => false

/-- A pull is done with a version directory and has still to exit. -/
def PullPc.relies : PullPc St → String → Bool
  | .prune b, name => b = name
  | .pruning b _, name => b = name
  | .link b _, name => b = name
  | .print b, name => b = name
  | _, _ => false

/-- Every directory below the root holds a file somewhere. -/
def NoEmptyDirs (t : Option (DirTree β)) : Prop :=
  ∀ p, nodeAt t p = some .dir → p = [] ∨
    ∃ q content, nodeAt t q = some (.file content) ∧ p <+: q ∧ p ≠ q

variable {P : Provider β}

/-- A push replaces a build only while nobody copies it, to or from the store. To an object
store it uploads only ids that are not there, and no empty directories. -/
def PushRun.Careful (w : World P) (run : PushRun P) : Prop :=
  match run.pc with
  | .isDir b => IsName b
  | .check b => b ∈ w.store →
    (∀ other ∈ w.pushes, other.pc.changes b = false) ∧
      ∀ pull ∈ w.pulls, pull.pc.reads b = false
  | .scan b => P.isLocal = true ∨ NoEmptyDirs (some run.source.tree) ∧ b ∉ w.store ∧
    ∀ other ∈ w.pushes, other.pc.changes b = false
  | _ => True

/-- A pull takes a build from the store only when no push is at it or was cut off at it, and
from `--dest` only when no pull is at it or was cut off at it; it removes only directories
that no other pull is at or still has to answer for, and not the one it has just pulled. It
looks only for single names. -/
def PullRun.Careful (w : World P) (run : PullRun P) : Prop :=
  match run.pc with
  | .isDir b => IsName b
  | .skip b => (IsName b ∧ b ≠ "active" ∧ b ≠ "active.tmp") ∧
    (isDirectory (w.dests run.args.dest) b = true → run.args.forceRefresh = false →
      b ∉ w.torn run.args.dest ∧ ∀ other ∈ w.pulls, other.args.dest = run.args.dest →
        other.pc.changes b = false)
  | .clear b => isDirectory (w.dests run.args.dest) b = true →
    ∀ other ∈ w.pulls, other.args.dest = run.args.dest →
      other.pc.changes b = false ∧ other.pc.relies b = false
  | .scan b => b ∈ w.store ∧ b ∉ w.tornBuilds ∧ ∀ push ∈ w.pushes, push.pc.changes b = false
  | .prune b =>
    ∀ victim ∈ victims (versionDirs (w.dests run.args.dest)) run.args.maxLocalVersions b,
      ∀ other ∈ w.pulls, other.args.dest = run.args.dest →
        other.pc.changes victim = false ∧ other.pc.relies victim = false
  | _ => True

def World.Careful (w : World P) : Move β → Prop
  | .push i _ _ => ∀ run, w.pushes[i]? = some run → run.Careful w
  | .pull i _ => ∀ run, w.pulls[i]? = some run → run.Careful w
  | _ => True

end Careful

end YikvServer.Artifact
