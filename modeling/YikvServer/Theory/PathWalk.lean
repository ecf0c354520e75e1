import Mathlib.Data.List.AList
import Mathlib.Data.List.Infix
import Mathlib.Algebra.GroupWithZero.Nat

/-!
# Paths and symbolic links

A directory tree with symbolic links, the walk of a path through it as the kernel takes it,
and the calls that change it. A path is the list of its names from the root; a place is a
path on which no link is left.
-/
namespace YikvServer.Theory.PathWalk

/-- Names, from the root. -/
abbrev Path := List String

inductive Entry where
  | dir
  | file
  | link (target : String)
  | special
  deriving DecidableEq

/-- What may name an entry: neither `.` nor `..`, no slash, no NUL, at most `NAME_MAX` bytes. -/
def ValidName (name : String) : Prop :=
  name ≠ "" ∧ name ≠ "." ∧ name ≠ ".." ∧ '/' ∉ name.toList ∧ '\x00' ∉ name.toList ∧
    name.utf8ByteSize ≤ 255

instance (name : String) : Decidable (ValidName name) := by
  unfold ValidName
  infer_instance

abbrev Entries := AList fun _ : Path => Entry

/-- The root is a directory. -/
def Entries.entry (t : Entries) (p : Path) : Option Entry :=
  if p = [] then some .dir else t.lookup p

/-- Every entry has a name, and lies in a directory. -/
structure FileSystem where
  entries : Entries
  named : ∀ p ∈ entries.keys, ∃ name ∈ p.getLast?, ValidName name
  closed : ∀ p ∈ entries.keys, entries.entry p.dropLast = some .dir

variable {fs fs' : FileSystem} {p q d : Path} {name : String} {e : Entry}

def FileSystem.entry (fs : FileSystem) (p : Path) : Option Entry := fs.entries.entry p

/-! ## Walks -/

/-- The names between the slashes; a link's `.` stays, and a trailing slash is read as one. -/
def partsOf (path : List Char) : List String :=
  ((path.splitOn '/').map String.ofList).filter (· ≠ "")

def targetParts (target : String) : List String :=
  partsOf target.toList ++ if target.toList.getLast? = some '/' then ["."] else []

namespace FileSystem
variable (fs : FileSystem)

/-- From a directory along the names; `next` goes on where a link leads. -/
def walkWith (next : Path → List String → Option Path) : Path → List String → Option Path
  | dir, [] => some dir
  | dir, name :: rest =>
    if name = "." then walkWith next dir rest
    else if name = ".." then walkWith next dir.dropLast rest
    else
      match fs.entry (dir ++ [name]) with
      | some .dir => walkWith next (dir ++ [name]) rest
      | some (.link target) =>
        next (if target.toList.head? = some '/' then [] else dir) (targetParts target ++ rest)
      | some _ => if rest = [] then some (dir ++ [name]) else none
      | none => none

/-- A walk that follows at most so many links. -/
def walk : Nat → Path → List String → Option Path
  | 0 => fs.walkWith fun _ _ => none
  | links + 1 => fs.walkWith (walk links)

/-- `PATH_MAX`, with the NUL at the end. -/
def fits (path : List String) : Bool := (path.map (·.utf8ByteSize + 1)).sum < 4096

/-- `stat`: where the path leads, its last name followed too. The kernel follows 40 links. -/
def stat (path : List String) : Option Path :=
  if fits path then fs.walk 40 [] path else none

def isDir (path : List String) : Bool := (fs.stat path).bind fs.entry = some .dir

def isFile (path : List String) : Bool := (fs.stat path).bind fs.entry = some .file

/-- The directory to which a path leads. -/
def directory (path : List String) : Option Path :=
  (fs.stat path).filter fun p => fs.entry p = some .dir

/-- The place of a path's last name, whether or not something is there. -/
def place (path : List String) : Option Path :=
  match path.getLast? with
  | none => none
  | some name =>
    if ValidName name ∧ fits path then (fs.directory path.dropLast).map (· ++ [name]) else none

/-- `lstat`: the place of what is there, its last name not followed. -/
def lstat (path : List String) : Option Path :=
  if path.getLast? = none ∨ path.getLast? = some ".." then fs.directory path
  else (fs.place path).filter fun p => (fs.entry p).isSome

def isSymlink (path : List String) : Bool :=
  match (fs.lstat path).bind fs.entry with
  | some (.link _) => true
  | _ => false

end FileSystem

/-! ## Changes -/

namespace FileSystem

theorem ne_nil_of_mem (h : p ∈ fs.entries.keys) : p ≠ [] := by
  rintro rfl
  obtain ⟨name, hname, -⟩ := fs.named [] h
  cases hname

theorem entry_of_ne (h : p ≠ []) : fs.entry p = fs.entries.lookup p := if_neg h

theorem mem_keys (h : p ≠ []) : p ∈ fs.entries.keys ↔ fs.entry p ≠ none := by
  rw [entry_of_ne h, ← AList.mem_keys, ← AList.lookup_isSome, Option.isSome_iff_ne_none]

/-- What is not a directory has nothing in it. -/
theorem leaf_of_not_dir (h : fs.entry p ≠ some .dir) : ∀ q ∈ fs.entries.keys, q.dropLast ≠ p :=
  fun q hq hp => h (hp ▸ fs.closed q hq)

/-- A new entry in a directory. -/
def add (fs : FileSystem) (p : Path) (e : Entry) (hname : ∃ name ∈ p.getLast?, ValidName name)
    (hdir : fs.entry p.dropLast = some .dir) (hfree : fs.entry p = none) : FileSystem where
  entries := fs.entries.insert p e
  named q hq := by
    rcases (AList.mem_insert fs.entries).mp hq with rfl | hq
    · exact hname
    · exact fs.named q hq
  closed q hq := by
    have hparent : fs.entry q.dropLast = some .dir := by
      rcases (AList.mem_insert fs.entries).mp hq with rfl | hq
      · exact hdir
      · exact fs.closed q hq
    by_cases hroot : q.dropLast = []
    · simp [Entries.entry, hroot]
    · have hne : q.dropLast ≠ p := fun heq => by
        rw [heq, hfree] at hparent
        cases hparent
      rw [entry_of_ne hroot] at hparent
      rw [Entries.entry, if_neg hroot, AList.lookup_insert_ne hne, hparent]

/-- An entry without entries in it is taken away. -/
def remove (fs : FileSystem) (p : Path) (hleaf : ∀ q ∈ fs.entries.keys, q.dropLast ≠ p) :
    FileSystem where
  entries := fs.entries.erase p
  named q hq := fs.named q (AList.mem_erase.mp hq).2
  closed q hq := by
    have hmem : q ∈ fs.entries.keys := (AList.mem_erase.mp hq).2
    have hparent := fs.closed q hmem
    by_cases hroot : q.dropLast = []
    · simp [Entries.entry, hroot]
    · rw [Entries.entry, if_neg hroot] at hparent ⊢
      rw [AList.lookup_erase_ne (hleaf q hmem), hparent]

/-- What lies strictly below a place. -/
def below (fs : FileSystem) (p : Path) : List Path :=
  fs.entries.keys.filter fun q => p <+: q ∧ q ≠ p

theorem lookup_foldl_erase (gone : List Path) (t : Entries) (q : Path) :
    (gone.foldl (fun t p => t.erase p) t).lookup q = if q ∈ gone then none else t.lookup q := by
  induction gone generalizing t with
  | nil => rfl
  | cons p gone ih =>
    rw [List.foldl_cons, ih]
    by_cases hq : q = p
    · subst hq
      simp
    · simp [hq]

/-- What lies strictly below a place goes. -/
def empty (fs : FileSystem) (p : Path) : FileSystem where
  entries := (fs.below p).foldl (fun t q => t.erase q) fs.entries
  named q hq := by
    refine fs.named q ?_
    rw [← AList.mem_keys, ← AList.lookup_isSome, lookup_foldl_erase] at hq
    split at hq
    · cases hq
    · exact AList.lookup_isSome.mp hq
  closed q hq := by
    rw [← AList.mem_keys, ← AList.lookup_isSome, lookup_foldl_erase] at hq
    split at hq
    · cases hq
    next hstays =>
    have hmem : q ∈ fs.entries.keys := AList.lookup_isSome.mp hq
    have hparent := fs.closed q hmem
    by_cases hroot : q.dropLast = []
    · simp [Entries.entry, hroot]
    · rw [Entries.entry, if_neg hroot] at hparent ⊢
      rw [lookup_foldl_erase, if_neg, hparent]
      -- an entry in a directory below the place lies below it too
      intro hgone
      obtain ⟨-, hbelow⟩ := List.mem_filter.mp hgone
      obtain ⟨hlead, hne⟩ := of_decide_eq_true hbelow
      refine hstays (List.mem_filter.mpr ⟨hmem, decide_eq_true ⟨?_, ?_⟩⟩)
      · exact hlead.trans (List.dropLast_prefix q)
      · rintro rfl
        have hlen := hlead.length_le
        have hpos := List.length_pos_iff.mpr (ne_nil_of_mem hmem)
        simp at hlen
        omega

@[simp] theorem entry_root (fs : FileSystem) : fs.entry [] = some .dir := rfl

theorem entry_add {hname : ∃ name ∈ p.getLast?, ValidName name}
    {hdir : fs.entry p.dropLast = some .dir} {hfree : fs.entry p = none} (q : Path) :
    (fs.add p e hname hdir hfree).entry q = if q = p then some e else fs.entry q := by
  have hp : p ≠ [] := by
    rintro rfl
    cases hfree
  by_cases hq : q = p
  · subst hq
    rw [if_pos rfl, entry_of_ne hp]
    exact AList.lookup_insert fs.entries
  · rw [if_neg hq]
    by_cases hroot : q = []
    · subst hroot
      rfl
    · rw [entry_of_ne hroot, entry_of_ne hroot]
      exact AList.lookup_insert_ne hq

theorem entry_remove {hleaf : ∀ q ∈ fs.entries.keys, q.dropLast ≠ p} (hp : p ≠ []) (q : Path) :
    (fs.remove p hleaf).entry q = if q = p then none else fs.entry q := by
  by_cases hq : q = p
  · subst hq
    rw [if_pos rfl, entry_of_ne hp]
    exact AList.lookup_erase _ fs.entries
  · rw [if_neg hq]
    by_cases hroot : q = []
    · subst hroot
      rfl
    · rw [entry_of_ne hroot, entry_of_ne hroot]
      exact AList.lookup_erase_ne hq

theorem entry_empty (fs : FileSystem) (p q : Path) :
    (fs.empty p).entry q = if p <+: q ∧ q ≠ p then none else fs.entry q := by
  by_cases hroot : q = []
  · subst hroot
    rw [if_neg]
    · rfl
    · rintro ⟨hlead, hne⟩
      exact hne (List.prefix_nil.mp hlead).symm
  · rw [entry_of_ne hroot]
    refine (lookup_foldl_erase _ _ _).trans ?_
    by_cases hmem : q ∈ fs.entries.keys
    · simp [below, hmem, entry_of_ne hroot]
    · have hnone : fs.entries.lookup q = none := AList.lookup_eq_none.mpr hmem
      simp [entry_of_ne hroot, hnone]

end FileSystem

/-- Nothing in the one tree is missing or different in the other. -/
def Within (fs fs' : FileSystem) : Prop := ∀ p e, fs.entry p = some e → fs'.entry p = some e

/-! ## System calls -/

namespace FileSystem

theorem place_eq_some {path : List String} (h : fs.place path = some p) :
    ∃ name, path.getLast? = some name ∧ ValidName name ∧ fits path ∧
      fs.directory path.dropLast = some p.dropLast ∧ p = p.dropLast ++ [name] := by
  unfold place at h
  split at h
  · cases h
  next name hlast =>
  split at h
  · next hok =>
    obtain ⟨d, hd, rfl⟩ := Option.map_eq_some_iff.mp h
    refine ⟨name, hlast, hok.1, hok.2, ?_, ?_⟩
    · simpa using hd
    · simp
  · cases h

theorem directory_eq_some {path : List String} :
    fs.directory path = some d ↔ fs.stat path = some d ∧ fs.entry d = some .dir := by
  simp [directory, Option.filter_eq_some_iff]

theorem place_named {path : List String} (h : fs.place path = some p) :
    ∃ name ∈ p.getLast?, ValidName name := by
  obtain ⟨name, -, hvalid, -, -, hp⟩ := place_eq_some h
  refine ⟨name, ?_, hvalid⟩
  rw [hp]
  simp

theorem place_dir {path : List String} (h : fs.place path = some p) :
    fs.entry p.dropLast = some .dir := by
  obtain ⟨-, -, -, -, hdir, -⟩ := place_eq_some h
  exact (directory_eq_some.mp hdir).2

variable (fs)

/-- `mkdir`, and what `symlink` does: the place of the new entry, and the tree with it. -/
def create (path : List String) (e : Entry) : Option (Path × FileSystem) :=
  match hplace : fs.place path with
  | none => none
  | some p =>
    if hfree : fs.entry p = none then
      some (p, fs.add p e (place_named hplace) (place_dir hplace) hfree)
    else none

/-- What a link can hold. -/
def Linkable (target : String) : Prop := target ≠ "" ∧ target.utf8ByteSize < 4096

instance (target : String) : Decidable (Linkable target) := by
  unfold Linkable
  infer_instance

def symlink (path : List String) (target : String) : Option (Path × FileSystem) :=
  if Linkable target then fs.create path (.link target) else none

/-- `unlink`: `EISDIR` for a directory. -/
def unlink (path : List String) : Option (Path × FileSystem) :=
  match fs.lstat path with
  | none => none
  | some p =>
    if hfile : fs.entry p ≠ some .dir then some (p, fs.remove p (leaf_of_not_dir hfile)) else none

/-- `rmdir`: neither the root nor a path that ends in `..`. -/
def rmdir (path : List String) : Option (Path × FileSystem) :=
  match fs.place path with
  | none => none
  | some p =>
    if hempty : fs.entry p = some .dir ∧ ∀ q ∈ fs.entries.keys, q.dropLast ≠ p then
      some (p, fs.remove p hempty.2)
    else none

/-- `shutil.rmtree`: what the directory holds, and then `rmdir` of the path, which can find
that it leads nowhere any more. -/
def rmtree (path : List String) : Option (Path × FileSystem) :=
  match fs.lstat path with
  | none => none
  | some p =>
    if fs.entry p = some .dir then
      let emptied := fs.empty p
      some (p, ((emptied.rmdir path).map (·.2)).getD emptied)
    else none

/-- One turn of `Path.mkdir(parents=True, exist_ok=True)`; an error leaves the tree. -/
def makeDir (path : List String) : Except FileSystem FileSystem :=
  if fs.isDir path then .ok fs
  else
    match fs.create path .dir with
    | some (_, fs') => .ok fs'
    | none => .error fs

def makeDirs (path : List String) : Except FileSystem FileSystem :=
  path.inits.foldlM (fun fs => fs.makeDir) fs

end FileSystem

/-! ## Walks in a smaller tree -/

theorem walkWith_mono {next next' : Path → List String → Option Path} (hfs : Within fs fs')
    (hnext : ∀ d parts q, next d parts = some q → next' d parts = some q) (d : Path)
    (parts : List String) (h : fs.walkWith next d parts = some q) :
    fs'.walkWith next' d parts = some q := by
  induction parts generalizing d with
  | nil => exact h
  | cons name rest ih =>
    unfold FileSystem.walkWith at h ⊢
    split
    · next hdot =>
      rw [if_pos hdot] at h
      exact ih _ h
    next hdot =>
    rw [if_neg hdot] at h
    split
    · next hup =>
      rw [if_pos hup] at h
      exact ih _ h
    next hup =>
    rw [if_neg hup] at h
    cases hentry : fs.entry (d ++ [name]) with
    | none =>
      rw [hentry] at h
      cases h
    | some e =>
      rw [hentry] at h
      rw [hfs _ _ hentry]
      cases e with
      | dir => exact ih _ h
      | link target => exact hnext _ _ _ h
      | file => exact h
      | special => exact h

theorem walk_mono (hfs : Within fs fs') (links : Nat) (d : Path) (parts : List String) :
    ∀ q, fs.walk links d parts = some q → fs'.walk links d parts = some q := by
  induction links generalizing d parts with
  | zero => exact fun q => walkWith_mono hfs (fun _ _ _ h => by cases h) d parts
  | succ links ih => exact fun q => walkWith_mono hfs ih d parts

theorem directory_mono (hfs : Within fs fs') {path : List String}
    (h : fs.directory path = some d) : fs'.directory path = some d := by
  rw [FileSystem.directory_eq_some] at h ⊢
  refine ⟨?_, hfs _ _ h.2⟩
  unfold FileSystem.stat at h ⊢
  split at h
  · next hfits =>
    rw [if_pos hfits]
    exact walk_mono hfs _ _ _ _ h.1
  · cases h.1

theorem place_mono (hfs : Within fs fs') {path : List String} (h : fs.place path = some p) :
    fs'.place path = some p := by
  obtain ⟨name, hlast, hvalid, hfits, hdir, hp⟩ := FileSystem.place_eq_some h
  simp only [FileSystem.place, hlast, if_pos (And.intro hvalid hfits), directory_mono hfs hdir]
  exact congrArg some hp.symm

/-! ## The last name of a walk -/

theorem dir_dropLast (h : fs.entry d = some .dir) : fs.entry d.dropLast = some .dir := by
  by_cases hroot : d = []
  · subst hroot
    rfl
  · refine fs.closed d ((FileSystem.mem_keys hroot).mpr ?_)
    rw [h]
    exact Option.some_ne_none _

theorem walkWith_concat {next : Path → List String → Option Path} (hdot : name ≠ ".")
    (hup : name ≠ "..") (hq : fs.entry q = some .dir) (he : fs.entry (q ++ [name]) = some e)
    (hlink : ∀ target, e ≠ .link target)
    (hnext : ∀ d parts, next d parts = some q → next d (parts ++ [name]) = some (q ++ [name]))
    (parts : List String) (d : Path) (h : fs.walkWith next d parts = some q) :
    fs.walkWith next d (parts ++ [name]) = some (q ++ [name]) := by
  induction parts generalizing d with
  | nil =>
    obtain rfl := Option.some.inj h
    simp only [List.nil_append, FileSystem.walkWith, if_neg hdot, if_neg hup, he]
    cases e with
    | dir => rfl
    | file => rfl
    | link target => exact absurd rfl (hlink target)
    | special => rfl
  | cons n rest ih =>
    rw [List.cons_append]
    unfold FileSystem.walkWith at h ⊢
    by_cases hn : n = "."
    · rw [if_pos hn] at h ⊢
      exact ih _ h
    rw [if_neg hn] at h ⊢
    by_cases hn : n = ".."
    · rw [if_pos hn] at h ⊢
      exact ih _ h
    rw [if_neg hn] at h ⊢
    cases hentry : fs.entry (d ++ [n]) with
    | none =>
      rw [hentry] at h
      cases h
    | some e' =>
      rw [hentry] at h
      -- a walk that ends at what is no directory has nothing left to go along
      have hends : (if rest = [] then some (d ++ [n]) else none) = some q → e' = .dir := by
        intro hrest
        split at hrest
        · obtain rfl := Option.some.inj hrest
          exact Option.some.inj (hentry.symm.trans hq)
        · cases hrest
      cases e' with
      | dir => exact ih _ h
      | link target =>
        dsimp only at h ⊢
        rw [← List.append_assoc]
        exact hnext _ _ h
      | file => cases hends h
      | special => cases hends h

theorem walk_concat (hdot : name ≠ ".") (hup : name ≠ "..") (hq : fs.entry q = some .dir)
    (he : fs.entry (q ++ [name]) = some e) (hlink : ∀ target, e ≠ .link target) (links : Nat) :
    ∀ d parts, fs.walk links d parts = some q →
      fs.walk links d (parts ++ [name]) = some (q ++ [name]) := by
  induction links with
  | zero =>
    exact fun d parts =>
      walkWith_concat hdot hup hq he hlink (fun _ _ h => by cases h) parts d
  | succ links ih => exact fun d parts => walkWith_concat hdot hup hq he hlink ih parts d

/-- Where a walk along one more name must have been before it. -/
def Reached (fs : FileSystem) (name : String) (found : Option Path) : Prop :=
  ∃ q, found = some q ∧ fs.entry q = some .dir ∧ fs.entry (q ++ [name]) ≠ none

theorem walkWith_reached {next : Path → List String → Option Path} (hdot : name ≠ ".")
    (hup : name ≠ "..")
    (hnext : ∀ d parts, fs.entry d = some .dir → next d (parts ++ [name]) ≠ none →
      Reached fs name (next d parts))
    (parts : List String) (d : Path) (hd : fs.entry d = some .dir)
    (h : fs.walkWith next d (parts ++ [name]) ≠ none) :
    Reached fs name (fs.walkWith next d parts) := by
  induction parts generalizing d with
  | nil =>
    refine ⟨d, rfl, hd, fun hnone => h ?_⟩
    simp only [List.nil_append, FileSystem.walkWith, if_neg hdot, if_neg hup, hnone]
  | cons n rest ih =>
    rw [List.cons_append] at h
    unfold FileSystem.walkWith at h ⊢
    by_cases hn : n = "."
    · rw [if_pos hn] at h ⊢
      exact ih _ hd h
    rw [if_neg hn] at h ⊢
    by_cases hn : n = ".."
    · rw [if_pos hn] at h ⊢
      exact ih _ (dir_dropLast hd) h
    rw [if_neg hn] at h ⊢
    cases hentry : fs.entry (d ++ [n]) with
    | none =>
      rw [hentry] at h
      exact absurd rfl h
    | some e' =>
      rw [hentry] at h
      cases e' with
      | dir => exact ih _ hentry h
      | link target =>
        dsimp only at h ⊢
        rw [← List.append_assoc] at h
        refine hnext _ _ ?_ h
        split
        · rfl
        · exact hd
      | file => simp at h
      | special => simp at h

theorem walk_reached (hdot : name ≠ ".") (hup : name ≠ "..") (links : Nat) :
    ∀ d parts, fs.entry d = some .dir → fs.walk links d (parts ++ [name]) ≠ none →
      Reached fs name (fs.walk links d parts) := by
  induction links with
  | zero =>
    exact fun d parts => walkWith_reached hdot hup (fun _ _ _ h => absurd rfl h) parts d
  | succ links ih => exact fun d parts => walkWith_reached hdot hup ih parts d

/-! ## What a call reaches -/

namespace FileSystem
variable {path : List String}

theorem path_eq_of_getLast? (h : path.getLast? = some name) : path = path.dropLast ++ [name] :=
  (List.dropLast_append_getLast? name h).symm

theorem walk_of_directory (h : fs.directory path = some d) : fs.walk 40 [] path = some d := by
  obtain ⟨hstat, -⟩ := directory_eq_some.mp h
  unfold stat at hstat
  split at hstat
  · exact hstat
  · cases hstat

/-- What is no link is found whether or not the last name is followed. -/
theorem stat_of_place (h : fs.place path = some p) (he : fs.entry p = some e)
    (hlink : ∀ target, e ≠ .link target) : fs.stat path = some p := by
  obtain ⟨name, hlast, hvalid, hfits, hdir, hp⟩ := place_eq_some h
  rw [hp] at he ⊢
  rw [stat, if_pos hfits, path_eq_of_getLast? hlast]
  exact walk_concat hvalid.2.1 hvalid.2.2.1 (directory_eq_some.mp hdir).2 he hlink 40 _ _
    (walk_of_directory hdir)

/-- Nothing is found by way of a name that is not there. -/
theorem stat_eq_none (h : fs.place path = some p) (he : fs.entry p = none) :
    fs.stat path = none := by
  obtain ⟨name, hlast, hvalid, hfits, hdir, hp⟩ := place_eq_some h
  by_contra hfound
  rw [stat, if_pos hfits, path_eq_of_getLast? hlast] at hfound
  obtain ⟨q, hq, -, hthere⟩ := walk_reached hvalid.2.1 hvalid.2.2.1 40 _ _ (entry_root fs) hfound
  obtain rfl := Option.some.inj ((walk_of_directory hdir).symm.trans hq)
  rw [← hp] at hthere
  exact hthere he

theorem entry_of_lstat (h : fs.lstat path = some p) : fs.entry p ≠ none := by
  unfold lstat at h
  split at h
  · rw [(directory_eq_some.mp h).2]
    exact Option.some_ne_none _
  · exact Option.isSome_iff_ne_none.mp (Option.filter_eq_some_iff.mp h).2

theorem place_of_lstat (h : fs.lstat path = some p) (hdir : fs.entry p ≠ some .dir) :
    fs.place path = some p := by
  unfold lstat at h
  split at h
  · exact absurd (directory_eq_some.mp h).2 hdir
  · exact (Option.filter_eq_some_iff.mp h).1

theorem lstat_of_place (h : fs.place path = some p) (he : fs.entry p ≠ none) :
    fs.lstat path = some p := by
  obtain ⟨name, hlast, hvalid, -⟩ := place_eq_some h
  have hnormal : ¬ (path.getLast? = none ∨ path.getLast? = some "..") := by
    rw [hlast]
    simpa using hvalid.2.2.1
  rw [lstat, if_neg hnormal, h]
  exact Option.filter_eq_some_iff.mpr ⟨rfl, Option.isSome_iff_ne_none.mpr he⟩

theorem stat_of_lstat (h : fs.lstat path = some p) (he : fs.entry p = some e)
    (hlink : ∀ target, e ≠ .link target) : fs.stat path = some p := by
  by_cases hdir : fs.entry p = some .dir
  · unfold lstat at h
    split at h
    · exact (directory_eq_some.mp h).1
    · exact stat_of_place (Option.filter_eq_some_iff.mp h).1 he hlink
  · exact stat_of_place (place_of_lstat h hdir) he hlink

theorem isSymlink_iff : fs.isSymlink path = true ↔
    ∃ p target, fs.lstat path = some p ∧ fs.entry p = some (.link target) := by
  unfold isSymlink
  constructor
  · intro h
    split at h
    · next target hlink =>
      obtain ⟨p, hp, hentry⟩ := Option.bind_eq_some_iff.mp hlink
      exact ⟨p, target, hp, hentry⟩
    · cases h
  · rintro ⟨p, target, hp, hentry⟩
    rw [hp, Option.bind_some, hentry]

theorem create_eq_some (h : fs.create path e = some (p, fs')) :
    fs.place path = some p ∧ fs.entry p = none ∧
      ∀ q, fs'.entry q = if q = p then some e else fs.entry q := by
  unfold create at h
  split at h
  · cases h
  next r hplace =>
  split at h
  · next hfree =>
    obtain ⟨rfl, rfl⟩ := Prod.mk.inj (Option.some.inj h)
    exact ⟨hplace, hfree, entry_add⟩
  · cases h

theorem create_isSome (h : fs.place path = some p) (hfree : fs.entry p = none) (e : Entry) :
    ∃ fs', fs.create path e = some (p, fs') := by
  refine ⟨fs.add p e (place_named h) (place_dir h) hfree, ?_⟩
  unfold create
  split
  · next hnone => simp [h] at hnone
  next r hplace =>
  obtain rfl := Option.some.inj (h.symm.trans hplace)
  exact dif_pos hfree

theorem unlink_eq_some (h : fs.unlink path = some (p, fs')) :
    fs.lstat path = some p ∧ fs.entry p ≠ some .dir ∧
      ∀ q, fs'.entry q = if q = p then none else fs.entry q := by
  unfold unlink at h
  split at h
  · cases h
  next r hfound =>
  split at h
  · next hfile =>
    obtain ⟨rfl, rfl⟩ := Prod.mk.inj (Option.some.inj h)
    refine ⟨hfound, hfile, entry_remove ?_⟩
    rintro rfl
    exact hfile (entry_root fs)
  · cases h

theorem rmdir_eq_some (h : fs.rmdir path = some (p, fs')) :
    fs.place path = some p ∧ fs.entry p = some .dir ∧
      ∀ q, fs'.entry q = if q = p then none else fs.entry q := by
  unfold rmdir at h
  split at h
  · cases h
  next r hplace =>
  split at h
  · next hempty =>
    obtain ⟨rfl, rfl⟩ := Prod.mk.inj (Option.some.inj h)
    obtain ⟨name, -, -, -, -, hr⟩ := place_eq_some hplace
    refine ⟨hplace, hempty.1, entry_remove ?_⟩
    rw [hr]
    simp
  · cases h

theorem unlink_isSome (h : fs.lstat path = some p) (hfile : fs.entry p ≠ some .dir) :
    ∃ fs', fs.unlink path = some (p, fs') := by
  refine ⟨fs.remove p (leaf_of_not_dir hfile), ?_⟩
  unfold unlink
  split
  · next hnone => simp [h] at hnone
  next r hfound =>
  obtain rfl := Option.some.inj (h.symm.trans hfound)
  exact dif_pos hfile

theorem within_empty (fs : FileSystem) (p : Path) : Within (fs.empty p) fs := by
  intro q e hq
  rw [entry_empty] at hq
  split at hq
  · cases hq
  · exact hq

/-- `rmtree` changes nothing but the directory and what it holds. -/
theorem rmtree_eq_some (h : fs.rmtree path = some (p, fs')) :
    fs.lstat path = some p ∧ fs.entry p = some .dir ∧
      ∀ q, ¬ p <+: q → fs'.entry q = fs.entry q := by
  unfold rmtree at h
  split at h
  · cases h
  next r hfound =>
  split at h
  · next hdir =>
    obtain ⟨rfl, rfl⟩ := Prod.mk.inj (Option.some.inj h)
    refine ⟨hfound, hdir, fun q hq => ?_⟩
    have hkept : (fs.empty r).entry q = fs.entry q := by
      rw [entry_empty, if_neg fun h => hq h.1]
    cases hrmdir : (fs.empty r).rmdir path with
    | none => exact hkept
    | some result =>
      obtain ⟨s, fs'⟩ := result
      obtain ⟨hplace, hs, hentry⟩ := rmdir_eq_some hrmdir
      -- the path leads, if anywhere, where it led before
      have hsame : s = r := by
        have hbefore := place_mono (within_empty fs r) hplace
        have hthere : fs.entry s ≠ none := by
          rw [within_empty fs r _ _ hs]
          exact Option.some_ne_none _
        exact Option.some.inj ((lstat_of_place hbefore hthere).symm.trans hfound)
      refine (hentry q).trans ?_
      rw [if_neg, hkept]
      rintro rfl
      exact hq (hsame ▸ List.prefix_rfl)
  · cases h

theorem rmtree_isSome (h : fs.lstat path = some p) (hdir : fs.entry p = some .dir) :
    ∃ fs', fs.rmtree path = some (p, fs') := by
  unfold rmtree
  rw [h]
  exact ⟨_, if_pos hdir⟩

end FileSystem
end YikvServer.Theory.PathWalk
