import YikvServer.Agent.Deploy
import YikvServer.Theory.PathWalk

/-!
# Where a table's name leads

`pipeline_agent.py` takes a table's name as it comes, joins it to `BUILD_DB` or `SERVER_DB`,
and removes or links what is there. The name is at least one character long.
-/
namespace YikvServer.Agent

open YikvServer.Theory.PathWalk

/-- `WORK`, `BUILD_DB` and `SERVER_DB`, from the root. -/
structure Directories where
  work : List String
  buildDb : List String
  serverDb : List String

/-- `table: str = Field(..., min_length=1)`. -/
abbrev TableName := { table : String // table ≠ "" }

/-- pathlib's `base / operand`: an absolute operand takes the place of the base. -/
def join (base : List String) (operand : String) : List String :=
  let parts := (partsOf operand.toList).filter (· ≠ ".")
  if operand.toList.head? = some '/' then parts else base ++ parts

inductive Change where
  | unlink (place : Path)
  | rmtree (place : Path)
  | symlinkTo (place : Path)
  deriving DecidableEq

def Change.place : Change → Path
  | unlink place | rmtree place | symlinkTo place => place

/-- The tree that the directories were made in, what was done to it, and what it has become. -/
structure Outcome where
  found : FileSystem
  changes : List Change
  left : FileSystem

def Outcome.nothing (fs : FileSystem) : Outcome := ⟨fs, [], fs⟩

/-- `_remove_local_build_index`. -/
def removeLocalBuildIndex (fs : FileSystem) (path : List String) : Outcome :=
  if fs.isSymlink path || fs.isFile path then
    match fs.unlink path with
    | some (place, left) => ⟨fs, [.unlink place], left⟩
    | none => .nothing fs
  else if fs.isDir path then
    match fs.rmtree path with
    | some (place, left) => ⟨fs, [.rmtree place], left⟩
    | none => .nothing fs
  else .nothing fs

/-- `WORK.mkdir(..)` and `BUILD_DB.mkdir(..)`. -/
def makeBuildDb (dirs : Directories) (fs : FileSystem) : Except FileSystem FileSystem := do
  let fs ← fs.makeDirs dirs.work
  fs.makeDirs dirs.buildDb

/-- `_build_index_impl` up to the import; the checks before touch nothing. -/
def buildIndex (dirs : Directories) (table : TableName) (fs : FileSystem) : Outcome :=
  match makeBuildDb dirs fs with
  | .error fs => .nothing fs
  | .ok fs => removeLocalBuildIndex fs (join dirs.buildDb table)

/-- `tlink.symlink_to(release_root / "active")`, after what was done before it. -/
def symlinkTo (out : Outcome) (tlink : List String) (active : String) : Outcome :=
  match out.left.symlink tlink active with
  | some (place, left) => ⟨out.found, out.changes ++ [.symlinkTo place], left⟩
  | none => out

/-- `link_server_table`; `active` is the text of `_release_root(table) / "active"`, if the
path can be resolved. -/
def linkServerTable (dirs : Directories) (config : ServerConfig) (active : Option String)
    (table : TableName) (fs : FileSystem) : Outcome :=
  match config, active with
  | .matching, some active =>
    match fs.makeDirs dirs.serverDb with
    | .error fs => .nothing fs
    | .ok fs =>
      let tlink := join dirs.serverDb table
      if (fs.stat tlink).isSome || fs.isSymlink tlink then
        match fs.unlink tlink with
        | some (place, left) => symlinkTo ⟨fs, [.unlink place], left⟩ tlink active
        | none => .nothing fs
      else symlinkTo (.nothing fs) tlink active
  | _, _ => .nothing fs

/-! ## What is inside -/

/-- Everything that was unlinked, removed, created or changed lies where it may. -/
structure Outcome.Inside (out : Outcome) (ok : Path → Prop) : Prop where
  changes : ∀ c ∈ out.changes, ok c.place
  entries : ∀ p, out.left.entry p ≠ out.found.entry p → ok p

def StrictlyBelow (fs : FileSystem) (dir : List String) (p : Path) : Prop :=
  ∃ d, fs.directory dir = some d ∧ d <+: p ∧ p ≠ d

def DirectlyBelow (fs : FileSystem) (dir : List String) (p : Path) : Prop :=
  p ≠ [] ∧ fs.directory dir = some p.dropLast

/-- `buildIndex` stays in `BUILD_DB`. -/
def RemovesInside (dirs : Directories) (table : TableName) (fs : FileSystem) : Prop :=
  (buildIndex dirs table fs).Inside
    (StrictlyBelow (buildIndex dirs table fs).found dirs.buildDb)

/-- `link_server_table` stays in `SERVER_DB`. -/
def LinksInside (dirs : Directories) (config : ServerConfig) (active : Option String)
    (table : TableName) (fs : FileSystem) : Prop :=
  (linkServerTable dirs config active table fs).Inside
    (DirectlyBelow (linkServerTable dirs config active table fs).found dirs.serverDb)

/-- The link, file or directory to which `BUILD_DB / table` leads is strictly below the
directory to which `BUILD_DB` leads. -/
def LeadsBelow (dirs : Directories) (table : TableName) (fs : FileSystem) : Prop :=
  ∀ p, fs.lstat (join dirs.buildDb table) = some p → fs.entry p ≠ some .special →
    StrictlyBelow fs dirs.buildDb p

/-- The last name of `SERVER_DB / table` is looked up in the directory to which `SERVER_DB`
leads, where there is something to unlink or a link can be made. -/
def LeadsDirectlyBelow (dirs : Directories) (active : String) (table : TableName)
    (fs : FileSystem) : Prop :=
  ∀ p, fs.place (join dirs.serverDb table) = some p → fs.entry p ≠ some .dir →
    (fs.entry p = none → FileSystem.Linkable active) → DirectlyBelow fs dirs.serverDb p

/-- A name, and not one of the two that lead elsewhere. -/
def SingleName (table : TableName) : Prop :=
  '/' ∉ table.val.toList ∧ table.val ≠ "." ∧ table.val ≠ ".."

variable {fs left : FileSystem} {p d : Path} {path : List String} {e : Entry}

theorem StrictlyBelow.below {dir : List String} {q : Path} (h : StrictlyBelow fs dir p)
    (hq : p <+: q) : StrictlyBelow fs dir q := by
  obtain ⟨d, hd, hp, hne⟩ := h
  refine ⟨d, hd, hp.trans hq, ?_⟩
  rintro rfl
  exact hne (hq.eq_of_length_le hp.length_le)

theorem Outcome.inside_nothing {ok : Path → Prop} : (Outcome.nothing fs).Inside ok where
  changes _ hc := absurd hc List.not_mem_nil
  entries _ hp := absurd rfl hp

/-! ## `_remove_local_build_index` -/

/-- What stands at a path that is a file for `is_symlink` or `is_file` is none for `is_dir`. -/
theorem isFile_iff_entry (h : fs.lstat path = some p) (hlink : fs.isSymlink path = false) :
    fs.isFile path = true ↔ fs.entry p = some .file := by
  have hentry := FileSystem.entry_of_lstat h
  obtain ⟨e, he⟩ := Option.ne_none_iff_exists'.mp hentry
  have hnolink : ∀ target, e ≠ .link target := by
    rintro target rfl
    rw [FileSystem.isSymlink_iff.mpr ⟨p, target, h, he⟩] at hlink
    cases hlink
  simp [FileSystem.isFile, FileSystem.stat_of_lstat h he hnolink]

theorem remove_found : (removeLocalBuildIndex fs path).found = fs := by
  unfold removeLocalBuildIndex
  repeat' split
  all_goals rfl

/-- What `_remove_local_build_index` does, and where. -/
theorem remove_cases (fs : FileSystem) (path : List String) :
    removeLocalBuildIndex fs path = .nothing fs ∨
      ∃ p c left, removeLocalBuildIndex fs path = ⟨fs, [c], left⟩ ∧ c.place = p ∧
        fs.lstat path = some p ∧ fs.entry p ≠ some .special ∧
        ∀ q, ¬ p <+: q → left.entry q = fs.entry q := by
  unfold removeLocalBuildIndex
  split
  · next hfile =>
    split
    · next p left hunlink =>
      obtain ⟨hfound, -, hentry⟩ := FileSystem.unlink_eq_some hunlink
      refine .inr ⟨p, _, left, rfl, rfl, hfound, ?_, fun q hq => ?_⟩
      · intro hspecial
        have hlink : fs.isSymlink path = false := by
          rw [Bool.eq_false_iff, Ne, FileSystem.isSymlink_iff]
          rintro ⟨r, target, hr, hentry⟩
          obtain rfl := Option.some.inj (hfound.symm.trans hr)
          rw [hspecial] at hentry
          cases hentry
        rw [hlink, Bool.false_or, isFile_iff_entry hfound hlink, hspecial] at hfile
        cases hfile
      · rw [hentry, if_neg]
        rintro rfl
        exact hq List.prefix_rfl
    · exact .inl rfl
  · split
    · split
      · next p left hrmtree =>
        obtain ⟨hfound, hdir, hentry⟩ := FileSystem.rmtree_eq_some hrmtree
        refine .inr ⟨p, _, left, rfl, rfl, hfound, ?_, hentry⟩
        rw [hdir]
        exact fun h => nomatch h
      · exact .inl rfl
    · exact .inl rfl

/-- What is found at the path is removed, unless it is a socket or the like. -/
theorem remove_reached (h : fs.lstat path = some p) (hspecial : fs.entry p ≠ some .special) :
    ∃ c left, removeLocalBuildIndex fs path = ⟨fs, [c], left⟩ ∧ c.place = p := by
  unfold removeLocalBuildIndex
  by_cases hdir : fs.entry p = some .dir
  · obtain ⟨left, hrmtree⟩ := FileSystem.rmtree_isSome h hdir
    have hlink : fs.isSymlink path = false := by
      rw [Bool.eq_false_iff, Ne, FileSystem.isSymlink_iff]
      rintro ⟨r, target, hr, hentry⟩
      obtain rfl := Option.some.inj (h.symm.trans hr)
      rw [hdir] at hentry
      cases hentry
    have hfile : fs.isFile path = false := by
      rw [Bool.eq_false_iff, Ne, isFile_iff_entry h hlink, hdir]
      exact fun h => nomatch h
    have hstat : fs.stat path = some p :=
      FileSystem.stat_of_lstat h hdir (fun target => Entry.noConfusion)
    rw [hlink, hfile, if_neg (by decide), if_pos (by simp [FileSystem.isDir, hstat, hdir]), hrmtree]
    exact ⟨_, left, rfl, rfl⟩
  · obtain ⟨left, hunlink⟩ := FileSystem.unlink_isSome h hdir
    have hfile : (fs.isSymlink path || fs.isFile path) = true := by
      cases hlink : fs.isSymlink path with
      | true => rfl
      | false =>
        rw [Bool.false_or, isFile_iff_entry h hlink]
        obtain ⟨e, he⟩ := Option.ne_none_iff_exists'.mp (FileSystem.entry_of_lstat h)
        cases e with
        | dir => exact absurd he hdir
        | file => exact he
        | link target =>
          rw [FileSystem.isSymlink_iff.mpr ⟨p, target, h, he⟩] at hlink
          cases hlink
        | special => exact absurd he hspecial
    rw [if_pos hfile, hunlink]
    exact ⟨_, left, rfl, rfl⟩

theorem removesInside_iff (dirs : Directories) (table : TableName) (fs : FileSystem) :
    RemovesInside dirs table fs ↔
      ∀ made, makeBuildDb dirs fs = .ok made → LeadsBelow dirs table made := by
  unfold RemovesInside buildIndex
  cases hmade : makeBuildDb dirs fs with
  | error left =>
    exact iff_of_true Outcome.inside_nothing fun _ h => nomatch h
  | ok made =>
    dsimp only
    rw [remove_found]
    constructor
    · rintro hin _ ⟨rfl⟩ p hp hspecial
      obtain ⟨c, left, hrun, rfl⟩ := remove_reached hp hspecial
      refine hin.changes c ?_
      rw [hrun]
      exact List.mem_singleton.mpr rfl
    · intro hleads
      rcases remove_cases made (join dirs.buildDb table) with
        hnothing | ⟨p, c, left, hrun, rfl, hfound, hspecial, hframe⟩
      · rw [hnothing]
        exact Outcome.inside_nothing
      · have hbelow := hleads made rfl _ hfound hspecial
        rw [hrun]
        refine ⟨fun c' hc' => ?_, fun q hq => ?_⟩
        · obtain rfl := List.mem_singleton.mp hc'
          exact hbelow
        · exact hbelow.below (by_contra fun hout => hq (hframe q hout))

/-! ## `link_server_table` -/

variable {out : Outcome} {tlink : List String} {active : String}

theorem symlinkTo_cases (out : Outcome) (tlink : List String) (active : String) :
    symlinkTo out tlink active = out ∨
      ∃ p left, symlinkTo out tlink active = ⟨out.found, out.changes ++ [.symlinkTo p], left⟩ ∧
        out.left.place tlink = some p ∧ out.left.entry p = none ∧
        FileSystem.Linkable active ∧ ∀ q, q ≠ p → left.entry q = out.left.entry q := by
  unfold symlinkTo
  split
  · next p left hlink =>
    unfold FileSystem.symlink at hlink
    split at hlink
    · next htext =>
      obtain ⟨hplace, hfree, hentry⟩ := FileSystem.create_eq_some hlink
      exact .inr ⟨p, left, rfl, hplace, hfree, htext, fun q hq => (hentry q).trans (if_neg hq)⟩
    · cases hlink
  · exact .inl rfl

theorem symlinkTo_reached (h : out.left.place tlink = some p) (hfree : out.left.entry p = none)
    (htext : FileSystem.Linkable active) :
    .symlinkTo p ∈ (symlinkTo out tlink active).changes := by
  obtain ⟨left, hcreate⟩ := FileSystem.create_isSome h hfree (.link active)
  unfold symlinkTo FileSystem.symlink
  rw [if_pos htext, hcreate]
  exact List.mem_append_right _ (List.mem_singleton.mpr rfl)

theorem changes_symlinkTo : out.changes ⊆ (symlinkTo out tlink active).changes := by
  rcases symlinkTo_cases out tlink active with hsame | ⟨p, left, hrun, -⟩
  · rw [hsame]
    exact List.Subset.refl _
  · rw [hrun]
    exact List.subset_append_left _ _

theorem found_symlinkTo : (symlinkTo out tlink active).found = out.found := by
  unfold symlinkTo
  split <;> rfl

/-- Making the link stays where what was done before it stayed. -/
theorem Outcome.Inside.symlinkTo {ok : Path → Prop} (h : out.Inside ok)
    (hplace : ∀ p, out.left.place tlink = some p → out.left.entry p = none →
      FileSystem.Linkable active → ok p) :
    (symlinkTo out tlink active).Inside ok := by
  rcases symlinkTo_cases out tlink active with hsame | ⟨p, left, hrun, hp, hfree, htext, hframe⟩
  · rw [hsame]
    exact h
  · have hok : ok p := hplace p hp hfree htext
    rw [hrun]
    refine ⟨fun c hc => ?_, fun q hq => ?_⟩
    · rcases List.mem_append.mp hc with hc | hc
      · exact h.changes c hc
      · obtain rfl := List.mem_singleton.mp hc
        exact hok
    · by_cases hqp : q = p
      · exact hqp ▸ hok
      · refine h.entries q ?_
        rwa [hframe q hqp] at hq

theorem exists_of_place (h : fs.place tlink = some p) :
    ((fs.stat tlink).isSome || fs.isSymlink tlink) = true ↔ fs.entry p ≠ none := by
  constructor
  · intro hthere hnone
    rw [FileSystem.stat_eq_none h hnone, Option.isSome_none, Bool.false_or,
      FileSystem.isSymlink_iff] at hthere
    obtain ⟨r, target, hr, hentry⟩ := hthere
    have hplace := FileSystem.place_of_lstat hr (by rw [hentry]; exact fun h => nomatch h)
    obtain rfl := Option.some.inj (h.symm.trans hplace)
    rw [hnone] at hentry
    cases hentry
  · intro hthere
    obtain ⟨e, he⟩ := Option.ne_none_iff_exists'.mp hthere
    by_cases hlink : ∃ target, e = .link target
    · obtain ⟨target, rfl⟩ := hlink
      rw [FileSystem.isSymlink_iff.mpr ⟨p, target, FileSystem.lstat_of_place h hthere, he⟩,
        Bool.or_true]
    · rw [FileSystem.stat_of_place h he (fun target ht => hlink ⟨target, ht⟩)]
      rfl

theorem linksInside_iff (dirs : Directories) (config : ServerConfig) (active : Option String)
    (table : TableName) (fs : FileSystem) :
    LinksInside dirs config active table fs ↔ (config = .matching →
      ∀ text, active = some text → ∀ made, fs.makeDirs dirs.serverDb = .ok made →
        LeadsDirectlyBelow dirs text table made) := by
  unfold LinksInside linkServerTable
  split
  swap
  · next hother =>
    exact iff_of_true Outcome.inside_nothing fun hconfig text htext =>
      absurd htext (hother text hconfig)
  next text =>
  cases hmade : fs.makeDirs dirs.serverDb with
  | error left =>
    exact iff_of_true Outcome.inside_nothing fun _ _ _ _ h => nomatch h
  | ok made =>
    dsimp only
    constructor
    · rintro hin - _ ⟨rfl⟩ _ ⟨rfl⟩ p hp hdir htext
      by_cases hfree : made.entry p = none
      · rw [if_neg (fun h => (exists_of_place hp).mp h hfree), found_symlinkTo] at hin
        exact hin.changes _ (symlinkTo_reached hp hfree (htext hfree))
      · obtain ⟨left, hunlink⟩ :=
          FileSystem.unlink_isSome (FileSystem.lstat_of_place hp hfree) hdir
        rw [if_pos ((exists_of_place hp).mpr hfree), hunlink] at hin
        dsimp only at hin
        rw [found_symlinkTo] at hin
        exact hin.changes (.unlink p) (changes_symlinkTo (List.mem_singleton.mpr rfl))
    · intro hleads
      have hmay := hleads rfl text rfl made rfl
      split
      · cases hunlink : made.unlink (join dirs.serverDb table) with
        | none => exact Outcome.inside_nothing
        | some result =>
          obtain ⟨p, left⟩ := result
          obtain ⟨hfound, hdir, hentry⟩ := FileSystem.unlink_eq_some hunlink
          have hp : made.place (join dirs.serverDb table) = some p :=
            FileSystem.place_of_lstat hfound hdir
          have hok : DirectlyBelow made dirs.serverDb p :=
            hmay p hp hdir fun h => absurd h (FileSystem.entry_of_lstat hfound)
          dsimp only
          rw [found_symlinkTo]
          refine Outcome.Inside.symlinkTo ⟨fun c hc => ?_, fun q hq => ?_⟩ fun q hq _ _ => ?_
          · obtain rfl := List.mem_singleton.mp hc
            exact hok
          · by_contra hout
            refine hq ((hentry q).trans (if_neg ?_))
            rintro rfl
            exact hout hok
          · -- without the entry the path leads where it led with it, or nowhere
            have hwithin : Within left made := by
              intro r e hr
              rw [hentry] at hr
              split at hr
              · cases hr
              · exact hr
            obtain rfl := Option.some.inj (hp.symm.trans (place_mono hwithin hq))
            exact hok
      · rw [found_symlinkTo]
        refine Outcome.inside_nothing.symlinkTo fun p hp hfree htext => ?_
        exact hmay p hp (by rw [show made.entry p = none from hfree]; exact fun h => nomatch h)
          fun _ => htext

/-! ## Single names -/

theorem join_single {table : TableName} (h : SingleName table) (base : List String) :
    join base table = base ++ [table.val] := by
  obtain ⟨hslash, hdot, -⟩ := h
  have hsplit : table.val.toList.splitOn '/' = [table.val.toList] := by
    rw [List.splitOn_eq_splitOnP]
    refine List.splitOnP_eq_singleton fun c hc => ?_
    rw [beq_eq_false_iff_ne]
    rintro rfl
    exact hslash hc
  have hparts : partsOf table.val.toList = [table.val] := by
    rw [partsOf, hsplit, List.map_singleton, String.ofList_toList]
    simp [table.property]
  have hrelative : table.val.toList.head? ≠ some '/' := fun hhead =>
    hslash (List.mem_of_mem_head? hhead)
  simp [join, hparts, hdot, hrelative]

theorem place_single {base : List String} {name : String} (h : fs.place (base ++ [name]) = some p) :
    p ≠ [] ∧ fs.directory base = some p.dropLast := by
  obtain ⟨n, -, -, -, hdir, hp⟩ := FileSystem.place_eq_some h
  rw [List.dropLast_concat] at hdir
  refine ⟨?_, hdir⟩
  rw [hp]
  simp

theorem leadsBelow_single {dirs : Directories} {table : TableName} (h : SingleName table) :
    LeadsBelow dirs table fs := by
  intro p hp _
  rw [join_single h, FileSystem.lstat, if_neg (by simpa using h.2.2)] at hp
  obtain ⟨hplace, -⟩ := Option.filter_eq_some_iff.mp hp
  obtain ⟨hne, hdir⟩ := place_single hplace
  refine ⟨p.dropLast, hdir, List.dropLast_prefix p, fun heq => ?_⟩
  have hlen := congrArg List.length heq
  have hpos := List.length_pos_iff.mpr hne
  rw [List.length_dropLast] at hlen
  omega

theorem leadsDirectlyBelow_single {dirs : Directories} {table : TableName}
    (h : SingleName table) : LeadsDirectlyBelow dirs active table fs := by
  intro p hp _ _
  rw [join_single h] at hp
  exact place_single hp

/-- `buildIndex` stays in `BUILD_DB`, and `link_server_table` in `SERVER_DB`, exactly for
the names that lead there through what the host's tree holds; a single name other than `.`
and `..` always does. -/
theorem table_inside_iff (dirs : Directories) (config : ServerConfig) (active : Option String)
    (table : TableName) (fs : FileSystem) :
    (RemovesInside dirs table fs ↔
      ∀ made, makeBuildDb dirs fs = .ok made → LeadsBelow dirs table made) ∧
    (LinksInside dirs config active table fs ↔ (config = .matching →
      ∀ text, active = some text → ∀ made, fs.makeDirs dirs.serverDb = .ok made →
        LeadsDirectlyBelow dirs text table made)) ∧
    (SingleName table → RemovesInside dirs table fs ∧ LinksInside dirs config active table fs) := by
  refine ⟨removesInside_iff dirs table fs, linksInside_iff dirs config active table fs, ?_⟩
  intro hsingle
  rw [removesInside_iff, linksInside_iff]
  exact ⟨fun _ _ => leadsBelow_single hsingle,
    fun _ _ _ _ _ => leadsDirectlyBelow_single hsingle⟩

/-! ## A host -/

def hostDirectories : Directories where
  work := ["data"]
  buildDb := ["data", "build_db"]
  serverDb := ["data", "server_db"]

/-- An index of `users` built here, and the table `users` served from its release. -/
def hostTree : FileSystem where
  entries := [⟨["data"], .dir⟩, ⟨["data", "build_db"], .dir⟩,
    ⟨["data", "build_db", "users"], .dir⟩, ⟨["data", "build_db", "users", "schema.json"], .file⟩,
    ⟨["data", "releases"], .dir⟩, ⟨["data", "releases", "b1"], .dir⟩,
    ⟨["data", "releases", "b1", "schema.json"], .file⟩, ⟨["data", "server_db"], .dir⟩,
    ⟨["data", "server_db", "users"], .link "/data/releases/b1"⟩].toAList
  named := by decide
  closed := by decide

/-- The name `.` has `BUILD_DB` itself removed, `..` what holds it, an absolute name
whatever it names; `users/x` puts a link into the release that is served. -/
theorem dots_reach_out :
    (buildIndex hostDirectories ⟨".", by decide⟩ hostTree).changes =
        [.rmtree ["data", "build_db"]] ∧
      (buildIndex hostDirectories ⟨"..", by decide⟩ hostTree).changes = [.rmtree ["data"]] ∧
      (buildIndex hostDirectories ⟨"/data/releases", by decide⟩ hostTree).changes =
        [.rmtree ["data", "releases"]] ∧
      (linkServerTable hostDirectories .matching (some "/data/releases/users/x/active")
          ⟨"users/x", by decide⟩ hostTree).changes =
        [.symlinkTo ["data", "releases", "b1", "x"]] ∧
      ¬ ∀ dirs config active table fs, RemovesInside dirs table fs ∧
        LinksInside dirs config active table fs := by
  refine ⟨by decide +kernel, by decide +kernel, by decide +kernel, by decide +kernel, ?_⟩
  intro h
  obtain ⟨d, hd, -, hne⟩ := (h hostDirectories .matching none
    ⟨".", by decide⟩ hostTree).1.changes (.rmtree ["data", "build_db"]) (by decide +kernel)
  have hroot : (buildIndex hostDirectories ⟨".", by decide⟩ hostTree).found.directory
      ["data", "build_db"] = some ["data", "build_db"] := by decide +kernel
  exact hne (Option.some.inj (hroot.symm.trans hd))

end YikvServer.Agent
