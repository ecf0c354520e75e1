import YikvServer.Theory.CopyTree
import Mathlib.Data.List.Sort
import Mathlib.Data.String.Basic

/-!
# Version directories

The directory of a table in the artifact store and a `--dest` on a host, by the names of
their entries, with what `artifact_sync.py` reads off the names: build ids, the latest
build, the versions to prune. A name is one component of a path.
-/
namespace YikvServer.Artifact

open YikvServer.Theory.FileTree

/-- The builds of one table in the artifact store. -/
abbrev Store (β : Type) := AList fun _ : String => DirTree β

/-- An entry of `--dest`: a version, or a link to another entry. -/
inductive Entry (β : Type) where
  | dir (t : DirTree β)
  | link (target : String)

abbrev Dest (β : Type) := AList fun _ : String => Entry β

/-- One component of a path, other than the directory itself and its parent. -/
def IsName (name : String) : Prop :=
  name ≠ "" ∧ '/' ∉ name.toList ∧ name ≠ "." ∧ name ≠ ".."

instance (name : String) : Decidable (IsName name) := by unfold IsName; infer_instance

section Ids

/-- `explicit.strip("/")`, where an id is given. -/
def stripSlash (id : String) : String :=
  String.ofList ((id.toList.dropWhile (· = '/')).reverse.dropWhile (· = '/')).reverse

/-- `raw in _BUILD_ID_AUTO` for `None`, the empty text and `auto`. -/
def pushId (raw : Option String) : Option String :=
  match raw with
  | none => none
  | some id => if id = "" ∨ id = "auto" then none else some (stripSlash id)

/-- `if explicit:` of a pull or a switch. -/
def explicitId (raw : Option String) : Option String :=
  match raw with
  | none => none
  | some id => if id = "" then none else some (stripSlash id)

/-- `_build_id_timestamp_local`, the digits of the local time, with the suffix of
`_allocate_build_id`. -/
def timestampId (now suffix : Nat) : String :=
  if suffix = 0 then toString now else toString now ++ "-" ++ toString suffix

end Ids

section Entries
variable {β : Type}

def follow : Nat → Dest β → String → Option String
  | 0, _, _ => none
  | links + 1, dest, name =>
    match dest.lookup name with
    | some (.dir _) => some name
    | some (.link target) => follow links dest target
    | none => none

/-- The directory that a name leads to; the system gives up after 40 links. -/
def resolve (dest : Dest β) (name : String) : Option String := follow 41 dest name

/-- `is_dir`, and `exists`. -/
def isDirectory (dest : Dest β) (name : String) : Bool := (resolve dest name).isSome

/-- The tree of a version. -/
def treeAt (dest : Dest β) (name : String) : Option (DirTree β) :=
  match dest.lookup name with
  | some (.dir t) => some t
  | _ => none

/-- `version_dirs`, and `_local_version_names`. -/
def versionDirs (dest : Dest β) : List String :=
  dest.keys.filter fun name =>
    isDirectory dest name ∧ name ≠ "active" ∧ name.toList.head? ≠ some '.'

end Entries

section Prune

/-- The smallest names go while there are too many: `while len(keep) > keep_n`. -/
def evict : Nat → List String → List String
  | 0, keep => keep
  | excess + 1, keep => evict excess ((keep.min?.map keep.erase).getD keep)

/-- `keep` at the end of its loops. -/
def keepSet (versions : List String) (keepN : Nat) (mustKeep : String) : List String :=
  let combined := if mustKeep ∈ versions then versions else mustKeep :: versions
  let ordered := combined.insertionSort (· ≥ ·)
  let newest := ordered.take keepN
  let keep := if mustKeep ∈ newest then newest else mustKeep :: newest
  evict (keep.length - keepN) keep

/-- The directories that `_prune_local_versions` removes. -/
def victims (versions : List String) (keepN : Int) (mustKeep : String) : List String :=
  if keepN ≤ 0 then []
  else versions.filter (· ∉ keepSet versions keepN.toNat mustKeep)

end Prune

/-- The build pulled last is the first to go when enough newer ones are there. -/
example : victims ["20", "30"] 1 "20" = ["20"] := by decide

end YikvServer.Artifact
