import YikvServer.Artifact.Versions

/-!
# `artifact_sync.py`

`cmd_push` and `cmd_pull` of one table as step functions: a step is one look at the store
or at `--dest`, or one change of them. Uploads and downloads are those of `shutil`, or of
`rclone`, which is a parameter.
-/
namespace YikvServer.Artifact

open YikvServer.Theory.FileTree

variable {β : Type}

/-- `rclone copy`, to the bucket and from it. -/
structure Rclone (β : Type) where
  up : Copier β
  down : Copier β

inductive Provider (β : Type) where
  | localDir
  | s3Compatible (rclone : Rclone β)

namespace Provider

def isLocal : Provider β → Bool
  | localDir => true
  | s3Compatible _ => false

def up : Provider β → Copier β
  | localDir => copytree
  | s3Compatible rclone => rclone.up

def down : Provider β → Copier β
  | localDir => copytree
  | s3Compatible rclone => rclone.down

end Provider

/-- What a step changes in the store or in `--dest`: the tree under a name (`none` when it
is gone), the links, or nothing; `complete` marks the end of a copy. A statement that
raises has no step. -/
inductive Effect (β : Type) where
  | quiet
  | write (name : String) (t : Option (DirTree β))
  | complete (name : String)
  | link (name target : String)
  | unlink (name : String)
  | replace (source target : String)

namespace Effect

/-- The change in the store. -/
def onStore : Effect β → Store β → Store β
  | write name (some t), store => store.insert name t
  | write name none, store => store.erase name
  | _, store => store

/-- The change in `--dest`. -/
def onDest : Effect β → Dest β → Dest β
  | quiet, dest => dest
  | write name (some t), dest => dest.insert name (.dir t)
  | write name none, dest => dest.erase name
  | complete _, dest => dest
  | link name target, dest => dest.insert name (.link target)
  | unlink name, dest => dest.erase name
  | replace source target, dest =>
    match dest.lookup source with
    | some entry => (dest.erase source).insert target entry
    | none => dest

end Effect

/-- One more step of a copy under a name, or its end. -/
def copyStep {Pc : Type} (C : Copier β) (src dst : Option (DirTree β)) (choice : List Path)
    (name : String) (copying : C.St → Pc) (copied failed : Pc) (st : C.St) :
    Option (Effect β × Pc) :=
  match C.outcome st with
  | some true => some (.complete name, copied)
  | some false => some (.quiet, failed)
  | none => (C.step src dst st choice).map fun (t, st') => (.write name t, copying st')

/-- One more step of `shutil.rmtree`. -/
def removeStep {Pc : Type} (t : Option (DirTree β)) (choice : List Path) (name : String)
    (removing removed : Pc) : Option (Effect β × Pc) :=
  (rmtreeStep t (choice.headD [])).map fun t' =>
    (.write name t', if t'.isSome then removing else removed)

section Push

/-- The next statement of `cmd_push`. -/
inductive PushPc (St : Type) where
  | resolve (suffix : Nat)
  | isDir (b : String)
  | check (b : String)
  | remove (b : String)
  | scan (b : String)
  | make (b : String) (st : St)
  | copy (b : String) (st : St)
  | print (b : String)
  | done (b : String)
  | failed

/-- One step of `cmd_push`; `now` is the clock, `src` the source as it is now. -/
def pushStep (P : Provider β) (buildId : Option String) (now : Nat) (src : Option (DirTree β))
    (store : Store β) (choice : List Path) :
    PushPc P.up.St → Option (Effect β × PushPc P.up.St)
  | .resolve suffix =>
    match pushId buildId with
    | some b => some (.quiet, .isDir b)
    | none =>
      let b := timestampId now suffix
      if P.isLocal ∧ b ∈ store then
        some (.quiet, .resolve (if suffix + 1 > 99 then 0 else suffix + 1))
      else some (.quiet, .isDir b)
  | .isDir b =>
    some (.quiet, if isDir src [] then (if P.isLocal then .check b else .scan b) else .failed)
  | .check b => some (.quiet, if b ∈ store then .remove b else .scan b)
  | .remove b => removeStep (store.lookup b) choice b (.remove b) (.scan b)
  | .scan b =>
    (P.up.start src choice).map fun st => (.quiet, if P.isLocal then .make b st else .copy b st)
  | .make b st =>
    if b ∈ store then some (.quiet, .failed) else some (.write b (some ∅), .copy b st)
  | .copy b st => copyStep P.up src (store.lookup b) choice b (.copy b) (.print b) .failed st
  | .print b => some (.quiet, .done b)
  | .done _ => none
  | .failed => none

end Push

section Pull

structure PullArgs where
  buildId : Option String
  dest : String
  maxLocalVersions : Int
  forceRefresh : Bool
  switchActive : Bool

/-- The statements of `_atomic_symlink`. -/
inductive LinkPc where
  | clear
  | link
  | replace

/-- One step of `_atomic_symlink(dest_root / "active", target)`; the last has no next. -/
def symlinkStep (dest : Dest β) (target : String) : LinkPc → Option (Effect β × Option LinkPc)
  | .clear =>
    match dest.lookup "active.tmp" with
    | some (.link _) => some (.unlink "active.tmp", some .link)
    | some (.dir _) => none
    | none => some (.quiet, some .link)
  | .link =>
    if "active.tmp" ∈ dest then none else some (.link "active.tmp" target, some .replace)
  | .replace =>
    match dest.lookup "active.tmp", dest.lookup "active" with
    | some (.link _), some (.dir _) => none
    | some (.link _), _ => some (.replace "active.tmp" "active", none)
    | _, _ => none

/-- The next statement of `cmd_pull`. -/
inductive PullPc (St : Type) where
  | resolve
  | isDir (b : String)
  | skip (b : String)
  | clear (b : String)
  | remove (b : String)
  | scan (b : String)
  | make (b : String) (st : St)
  | copy (b : String) (st : St)
  | prune (b : String)
  | pruning (b : String) (rest : List String)
  | link (b : String) (pc : LinkPc)
  | print (b : String)
  | done (b : String)
  | failed

/-- One step of `cmd_pull`. -/
def pullStep (P : Provider β) (args : PullArgs) (store : Store β) (dest : Dest β)
    (choice : List Path) : PullPc P.down.St → Option (Effect β × PullPc P.down.St)
  | .resolve =>
    match (explicitId args.buildId).or store.keys.max? with
    | some b => some (.quiet, if P.isLocal then .isDir b else .skip b)
    | none => some (.quiet, .failed)
  | .isDir b => some (.quiet, if b ∈ store then .skip b else .failed)
  | .skip b =>
    some (.quiet, if isDirectory dest b ∧ args.forceRefresh = false then .prune b else .clear b)
  | .clear b => some (.quiet, if isDirectory dest b then .remove b else .scan b)
  | .remove b => removeStep (treeAt dest b) choice b (.remove b) (.scan b)
  | .scan b => (P.down.start (store.lookup b) choice).map fun st => (.quiet, .make b st)
  | .make b st =>
    if b ∈ dest then some (.quiet, .failed) else some (.write b (some ∅), .copy b st)
  | .copy b st =>
    copyStep P.down (store.lookup b) (treeAt dest b) choice b (.copy b) (.prune b) .failed st
  | .prune b =>
    some (.quiet, .pruning b (victims (versionDirs dest) args.maxLocalVersions b))
  | .pruning b [] => some (.quiet, if args.switchActive then .link b .clear else .print b)
  | .pruning b (victim :: rest) =>
    removeStep (treeAt dest victim) choice victim (.pruning b (victim :: rest)) (.pruning b rest)
  | .link b pc =>
    (symlinkStep dest b pc).map fun (effect, next) =>
      (effect, (next.map (PullPc.link b)).getD (.print b))
  | .print b => some (.quiet, .done b)
  | .done _ => none
  | .failed => none

end Pull

end YikvServer.Artifact
