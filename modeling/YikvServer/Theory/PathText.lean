import YikvServer.Theory.PathWalk
import Mathlib.Data.List.DropRight

/-!
# The text of a path

How `std::filesystem::path` and Python's `pathlib` take the text of a path apart without
looking at the files, and where a text leads when no link is on the way.
-/
namespace YikvServer.Theory.PathText

open PathWalk (Path FileSystem)

/-- What stands between the slashes. -/
def segments (text : List Char) : List String := (text.splitOn '/').map String.ofList

def isAbsolute (text : List Char) : Bool := text.head? = some '/'

/-- From a directory to what it has under a name. -/
def enter (dir : Path) (name : String) : Path :=
  if name = "" ∨ name = "." then dir
  else if name = ".." then dir.dropLast
  else dir ++ [name]

def follow (dir : Path) (names : List String) : Path := names.foldl enter dir

/-- Where a text leads. -/
def place (cwd : Path) (text : List Char) : Path :=
  follow (if isAbsolute text then [] else cwd) (segments text)

/-- A name of something in a directory. -/
def Plain (name : String) : Prop := name ≠ "" ∧ name ≠ "." ∧ name ≠ ".."

/-- `std::filesystem::path` of POSIX: whether the path has a root directory, and its names,
with an empty one at the end after a trailing slash. -/
structure FsPath where
  root : Bool
  names : List String

namespace FsPath

def ofText (text : List Char) : FsPath :=
  let kept := (segments text).dropLast.filter (· ≠ "")
  let last := (segments text).getLastD ""
  ⟨isAbsolute text, if kept = [] ∧ last = "" then [] else kept ++ [last]⟩

def empty (p : FsPath) : Bool := !p.root && p.names.isEmpty

def parentPath (p : FsPath) : FsPath := { p with names := p.names.dropLast }

def hasParentPath (p : FsPath) : Bool := !p.parentPath.empty

/-- `p / name`. -/
def append (p : FsPath) (name : String) : FsPath :=
  { p with names := p.names.filter (· ≠ "") ++ [name] }

/-- One name of a path that is being normalised. -/
def normalStep (root : Bool) (names : List String) (name : String) : List String :=
  if name = "" ∨ name = "." then names
  else if name = ".." then
    match names.getLast? with
    | none => if root then [] else [".."]
    | some last => if last = ".." then names ++ [".."] else names.dropLast
  else names ++ [name]

/-- `lexically_normal`: a path that ends at a directory keeps a slash at its end, unless
nothing or `..` is left before it. -/
def lexicallyNormal (p : FsPath) : FsPath :=
  let names := p.names.foldl (normalStep p.root) []
  let last := p.names.getLastD ""
  if names = [] then if p.root then ⟨true, []⟩ else ⟨false, ["."]⟩
  else if (last = "" ∨ last = "." ∨ last = "..") ∧ names.getLast? ≠ some ".." then
    ⟨p.root, names ++ [""]⟩
  else ⟨p.root, names⟩

def string (p : FsPath) : List Char :=
  (if p.root then ['/'] else []) ++ ['/'].intercalate (p.names.map String.toList)

end FsPath

/-- Python's `PurePosixPath`: two slashes at the start are kept apart from one there, but
lead to the same directory. -/
structure PurePath where
  root : Bool
  parts : List String

namespace PurePath

def ofText (text : List Char) : PurePath :=
  ⟨isAbsolute text, (segments text).filter fun name => name ≠ "" ∧ name ≠ "."⟩

def parent (p : PurePath) : PurePath := { p with parts := p.parts.dropLast }

/-- `p / name`. -/
def join (p : PurePath) (name : String) : PurePath := { p with parts := p.parts ++ [name] }

/-- `home` finds the home directory that `~` or `~user` stands for. -/
def expanduser (home : String → Option PurePath) (p : PurePath) : Option PurePath :=
  match p.parts with
  | first :: rest =>
    if p.root = false ∧ first.toList.head? = some '~' then
      (home first).map fun dir => { dir with parts := dir.parts ++ rest }
    else some p
  | [] => some p

/-- `resolve`, where no link is met. -/
def resolve (cwd : Path) (p : PurePath) : Path := follow (if p.root then [] else cwd) p.parts

end PurePath

variable {dir : Path} {name : String} {names : List String} {text : List Char}

/-! ## Names -/

theorem enter_plain (h : Plain name) : enter dir name = dir ++ [name] := by
  rw [enter, if_neg (not_or.mpr ⟨h.1, h.2.1⟩), if_neg h.2.2]

theorem enter_dotdot : enter dir ".." = dir.dropLast := by
  rw [enter, if_neg (by decide), if_pos rfl]

theorem enter_skip (h : ¬ (name ≠ "" ∧ name ≠ ".")) : enter dir name = dir := by
  rw [enter, if_pos]
  by_cases hempty : name = ""
  · exact Or.inl hempty
  · exact Or.inr (not_not.mp fun hdot => h ⟨hempty, hdot⟩)

theorem follow_concat : follow dir (names ++ [name]) = enter (follow dir names) name :=
  List.foldl_concat ..

theorem follow_filter {keep : String → Bool}
    (hkeep : ∀ n, keep n = false → ¬ (n ≠ "" ∧ n ≠ ".")) (dir : Path) (names : List String) :
    follow dir (names.filter keep) = follow dir names := by
  induction names generalizing dir with
  | nil => rfl
  | cons name rest ih =>
    cases hname : keep name with
    | true =>
      rw [List.filter_cons_of_pos hname]
      exact ih (enter dir name)
    | false =>
      rw [List.filter_cons_of_neg (by rw [hname]; exact Bool.false_ne_true), ih dir]
      exact (congrArg (follow · rest) (enter_skip (hkeep name hname))).symm

theorem follow_nonempty (dir : Path) (names : List String) :
    follow dir (names.filter (· ≠ "")) = follow dir names :=
  follow_filter (fun _ hn h => of_decide_eq_false hn h.1) dir names

theorem follow_parts (dir : Path) (names : List String) :
    follow dir (names.filter fun n => n ≠ "" ∧ n ≠ ".") = follow dir names :=
  follow_filter (fun _ hn => of_decide_eq_false hn) dir names

/-- Names that are plain are entered one below the other. -/
theorem follow_plain (h : ∀ n ∈ names, Plain n) (dir : Path) : follow dir names = dir ++ names := by
  induction names generalizing dir with
  | nil => exact (List.append_nil dir).symm
  | cons name rest ih =>
    have hrest := ih (fun n hn => h n (List.mem_cons_of_mem name hn)) (enter dir name)
    rw [show follow dir (name :: rest) = follow (enter dir name) rest from rfl, hrest,
      enter_plain (h name List.mem_cons_self), List.append_assoc, List.singleton_append]

theorem plain_enter (hdir : ∀ n ∈ dir, Plain n) (name : String) : ∀ n ∈ enter dir name, Plain n := by
  intro n hn
  unfold enter at hn
  split at hn
  · exact hdir n hn
  · next hskip =>
    split at hn
    · exact hdir n (List.mem_of_mem_dropLast hn)
    · next hdots =>
      rcases List.mem_append.mp hn with hn | hn
      · exact hdir n hn
      · rw [List.mem_singleton.mp hn]
        exact ⟨fun h => hskip (Or.inl h), fun h => hskip (Or.inr h), hdots⟩

/-- Where names lead, no dots are left. -/
theorem plain_follow (hdir : ∀ n ∈ dir, Plain n) (names : List String) :
    ∀ n ∈ follow dir names, Plain n := by
  induction names generalizing dir with
  | nil => exact hdir
  | cons name rest ih => exact ih (plain_enter hdir name)

theorem mem_follow {n : String} (h : n ∈ follow dir names) : n ∈ dir ∨ n ∈ names := by
  induction names generalizing dir with
  | nil => exact Or.inl h
  | cons name rest ih =>
    rcases ih h with h | h
    · unfold enter at h
      split at h
      · exact Or.inl h
      · split at h
        · exact Or.inl (List.mem_of_mem_dropLast h)
        · rcases List.mem_append.mp h with h | h
          · exact Or.inl h
          · exact Or.inr (List.mem_singleton.mp h ▸ List.mem_cons_self)
    · exact Or.inr (List.mem_cons_of_mem name h)

/-- The names lead where all but the last of them lead only when none is left, or the last
is `..` at the root. -/
theorem follow_eq_dropLast_iff (h : ∀ n ∈ names, n ≠ "" ∧ n ≠ ".") :
    follow [] names = follow [] names.dropLast ↔
      names = [] ∨ names.getLast? = some ".." ∧ follow [] names.dropLast = [] := by
  rcases List.eq_nil_or_concat' names with rfl | ⟨init, last, rfl⟩
  · simp
  · have hlast := h last (List.mem_append_right _ List.mem_cons_self)
    rw [List.dropLast_concat, List.getLast?_concat, follow_concat]
    by_cases hdots : last = ".."
    · subst hdots
      rw [enter_dotdot]
      constructor
      · intro heq
        have hlen := congrArg List.length heq
        rw [List.length_dropLast] at hlen
        exact Or.inr ⟨rfl, List.eq_nil_of_length_eq_zero (by omega)⟩
      · rintro (hnil | ⟨-, hroot⟩)
        · simp at hnil
        · rw [hroot]
          rfl
    · rw [enter_plain ⟨hlast.1, hlast.2, hdots⟩]
      refine iff_of_false (fun heq => ?_) ?_
      · have hlen := congrArg List.length heq
        simp at hlen
      · rintro (hnil | ⟨hsome, -⟩)
        · simp at hnil
        · exact hdots (Option.some.inj hsome)

/-! ## Texts -/

theorem splitOn_not_mem {sep : Char} : ∀ part ∈ text.splitOn sep, sep ∉ part := by
  induction text with
  | nil =>
    intro part hpart
    rw [List.splitOn_nil, List.mem_singleton] at hpart
    rw [hpart]
    exact List.not_mem_nil
  | cons c rest ih =>
    intro part hpart
    rw [List.splitOn_cons_eq_if_modifyHead] at hpart
    split at hpart
    · rcases List.mem_cons.mp hpart with rfl | hpart
      · exact List.not_mem_nil
      · exact ih part hpart
    · next hc =>
      cases hsplit : rest.splitOn sep with
      | nil => exact absurd hsplit (List.splitOn_ne_nil sep rest)
      | cons first more =>
        rw [hsplit] at hpart ih
        rcases List.mem_cons.mp hpart with rfl | hpart
        · rintro (_ | ⟨_, hmem⟩)
          · exact hc (beq_self_eq_true sep)
          · exact ih first List.mem_cons_self hmem
        · exact ih part (List.mem_cons_of_mem first hpart)

theorem segments_noSlash {n : String} (h : n ∈ segments text) : '/' ∉ n.toList := by
  obtain ⟨part, hpart, rfl⟩ := List.mem_map.mp h
  rw [String.toList_ofList]
  exact splitOn_not_mem part hpart

theorem segments_ne_nil (text : List Char) : segments text ≠ [] :=
  fun h => List.splitOn_ne_nil '/' text (List.map_eq_nil_iff.mp h)

theorem dropLast_splitOn_append {sep : Char} {more : List Char} (hmore : sep ∉ more) :
    ((text ++ more).splitOn sep).dropLast = (text.splitOn sep).dropLast := by
  have hmodify : ∀ (f : List Char → List Char) (parts : List (List Char)),
      (parts.modifyHead f).dropLast = parts.dropLast.modifyHead f := fun f parts => by
    rcases parts with - | ⟨first, - | ⟨second, rest⟩⟩
    · rfl
    · rfl
    · rfl
  induction text with
  | nil =>
    rw [List.nil_append, List.splitOn_eq_singleton hmore]
    rfl
  | cons c rest ih =>
    rw [List.cons_append, List.splitOn_cons_eq_if_modifyHead, List.splitOn_cons_eq_if_modifyHead]
    split
    · rw [List.dropLast_cons_of_ne_nil (List.splitOn_ne_nil _ _), ih,
        List.dropLast_cons_of_ne_nil (List.splitOn_ne_nil _ _)]
    · rw [hmodify, hmodify, ih]

/-- What follows the last slash does not change what stands before it. -/
theorem dropLast_segments_append {more : List Char} (hmore : '/' ∉ more) :
    (segments (text ++ more)).dropLast = (segments text).dropLast := by
  rw [segments, segments, ← List.map_dropLast, ← List.map_dropLast, dropLast_splitOn_append hmore]

namespace FsPath

theorem follow_parentPath : follow [] (ofText text).parentPath.names =
    follow [] (segments text).dropLast := by
  rw [← follow_nonempty [] (segments text).dropLast]
  unfold parentPath ofText
  dsimp only
  split
  · next h =>
    rw [h.1]
    rfl
  · rw [List.dropLast_concat]

theorem normalStep_eq_enter (hdir : ∀ n ∈ dir, Plain n) : normalStep true dir name =
    enter dir name := by
  unfold normalStep enter
  split
  · rfl
  · split
    · cases hlast : dir.getLast? with
      | none => rw [List.getLast?_eq_none_iff.mp hlast]; rfl
      | some last => exact if_neg (hdir last (List.mem_of_getLast? hlast)).2.2
    · rfl

theorem foldl_normalStep (hdir : ∀ n ∈ dir, Plain n) :
    names.foldl (normalStep true) dir = follow dir names := by
  induction names generalizing dir with
  | nil => rfl
  | cons name rest ih =>
    rw [List.foldl_cons, normalStep_eq_enter hdir, ih (plain_enter hdir name)]
    rfl

theorem lexicallyNormal_append {p : FsPath} (hroot : p.root = true) (hname : Plain name) :
    (p.append name).lexicallyNormal = ⟨true, follow [] p.names ++ [name]⟩ := by
  have hfold : (p.names.filter (· ≠ "") ++ [name]).foldl (normalStep true) [] =
      follow [] p.names ++ [name] := by
    rw [foldl_normalStep fun n hn => absurd hn List.not_mem_nil, follow_concat, follow_nonempty,
      enter_plain hname]
  unfold lexicallyNormal append
  dsimp only
  rw [hroot, hfold, if_neg (List.concat_ne_nil _ _), if_neg]
  rintro ⟨hlast, -⟩
  rw [List.getLastD_concat] at hlast
  rcases hlast with h | h | h
  · exact hname.1 h
  · exact hname.2.1 h
  · exact hname.2.2 h

theorem segments_string (hne : names ≠ []) (hslash : ∀ n ∈ names, '/' ∉ n.toList) :
    segments (string ⟨true, names⟩) = "" :: names := by
  have hsplit : (['/'].intercalate (names.map String.toList)).splitOn '/' =
      names.map String.toList := by
    refine List.splitOn_intercalate '/' (fun part hpart => ?_) fun h => hne (List.map_eq_nil_iff.mp h)
    obtain ⟨n, hn, rfl⟩ := List.mem_map.mp hpart
    exact hslash n hn
  show (List.splitOn '/' ('/' :: ['/'].intercalate (names.map String.toList))).map String.ofList = _
  rw [List.splitOn_cons_eq_if_modifyHead, if_pos (beq_self_eq_true '/'), hsplit, List.map_cons,
    List.map_map]
  simp

/-- The text of a normal path leads along its names. -/
theorem place_string (cwd : Path) (hne : names ≠ []) (hplain : ∀ n ∈ names, Plain n)
    (hslash : ∀ n ∈ names, '/' ∉ n.toList) : place cwd (string ⟨true, names⟩) = names := by
  rw [place, segments_string hne hslash]
  exact follow_plain hplain []

end FsPath

/-- The bytes of a text in UTF-8. -/
def size (text : List Char) : Nat := (text.map Char.utf8Size).sum

theorem size_append (more : List Char) : size (text ++ more) = size text + size more := by
  rw [size, List.map_append, List.sum_append]
  rfl

theorem FsPath.size_string (hne : names ≠ []) :
    size (string ⟨true, names⟩) = (names.map fun n => 1 + size n.toList).sum := by
  have hslash : size ['/'] = 1 := rfl
  show size (['/'] ++ ['/'].intercalate (names.map String.toList)) = _
  induction names with
  | nil => exact absurd rfl hne
  | cons name rest ih =>
    cases rest with
    | nil =>
      rw [size_append, hslash, List.map_singleton, List.map_singleton, List.sum_singleton,
        List.intercalate_singleton]
    | cons next more =>
      rw [List.map_cons, List.map_cons, List.intercalate_cons_cons, List.append_assoc, size_append,
        size_append, ← List.map_cons, ih (List.cons_ne_nil _ _), hslash, ← Nat.add_assoc]
      exact List.sum_cons.symm

/-! ## The walk of a path -/

/-- Where no link is, a path that leads somewhere leads where its names say. -/
theorem walkWith_eq_follow {fs : FileSystem} (hlinks : ∀ p target, fs.entry p ≠ some (.link target))
    {next : Path → List String → Option Path} {p : Path} (hnames : "" ∉ names)
    (h : fs.walkWith next dir names = some p) : p = follow dir names := by
  induction names generalizing dir with
  | nil => exact (Option.some.inj h).symm
  | cons name rest ih =>
    have hname : name ≠ "" := fun h => hnames (h ▸ List.mem_cons_self)
    have hrest : "" ∉ rest := fun h => hnames (List.mem_cons_of_mem name h)
    show p = follow (enter dir name) rest
    simp only [FileSystem.walkWith] at h
    split at h
    · next hdot =>
      rw [enter, if_pos (Or.inr hdot)]
      exact ih hrest h
    · next hdot =>
      split at h
      · next hdots =>
        rw [hdots, enter_dotdot]
        exact ih hrest h
      · next hdots =>
        rw [enter_plain ⟨hname, hdot, hdots⟩]
        split at h
        · exact ih hrest h
        · next target hlink => exact absurd hlink (hlinks _ target)
        · split at h
          · next hnil =>
            rw [hnil]
            exact (Option.some.inj h).symm
          · cases h
        · cases h

/-- An absolute path that leads somewhere leads to the place of its text. -/
theorem stat_eq_place {fs : FileSystem} (hlinks : ∀ p target, fs.entry p ≠ some (.link target))
    {p : Path} (habs : isAbsolute text = true) (h : fs.stat (PathWalk.partsOf text) = some p)
    (cwd : Path) : p = place cwd text := by
  unfold FileSystem.stat at h
  split at h
  · have hnames : "" ∉ PathWalk.partsOf text := fun hmem =>
      of_decide_eq_true (List.mem_filter.mp hmem).2 rfl
    rw [place, habs, if_pos rfl, ← follow_nonempty]
    exact walkWith_eq_follow hlinks hnames h
  · cases h

end YikvServer.Theory.PathText
