import YikvServer.Artifact.Turns

/-!
# A build through the store

What `rclone` is taken to do with directories that nobody else touches, and that an
undisturbed upload followed by an undisturbed download yields the tree that was pushed.
-/
namespace YikvServer.Artifact

open YikvServer.Theory.FileTree

variable {β : Type} {P : Provider β} {R : Rclone β} {src objects dst : Option (DirTree β)}
  {t u : DirTree β}

/-- The same files with the same contents. -/
def SameFiles (t u : Option (DirTree β)) : Prop :=
  ∀ p content, nodeAt t p = some (.file content) ↔ nodeAt u p = some (.file content)

/-- `rclone copy` of a directory to a prefix without objects, and of a prefix to an empty
directory: the files arrive, in the directories that they need and no others. -/
structure Rclone.Documented (R : Rclone β) : Prop where
  up : ∀ src objects, R.up.Copies src none objects → SameFiles objects src
  down : ∀ objects dst, R.down.Copies objects (some ∅) dst → SameFiles dst objects ∧
    ∀ p, nodeAt dst p = some .dir ↔ p = [] ∨
      ∃ q content, nodeAt objects q = some (.file content) ∧ p <+: q ∧ p ≠ q

def Provider.Documented : Provider β → Prop
  | .localDir => True
  | .s3Compatible rclone => rclone.Documented

/-- What an upload begins with: a new directory, or a prefix without objects. -/
def Provider.fresh : Provider β → Option (DirTree β)
  | .localDir => some ∅
  | .s3Compatible _ => none

/-- An object store keeps no empty directories. -/
def Provider.Sendable (P : Provider β) (t : DirTree β) : Prop :=
  P.isLocal = true ∨ NoEmptyDirs (some t)

/-- An undisturbed upload of a source directory. -/
structure Uploaded (P : Provider β) (t u : DirTree β) : Prop where
  closed : Closed (some t)
  sendable : P.Sendable t
  copies : P.up.Copies (some t) P.fresh (some u)

theorem Closed.of_same (h : Same dst src) (hsrc : Closed src) : Closed dst := by
  intro p n hp
  rw [h p]
  rw [h (p ++ [n])] at hp
  exact hsrc p n hp

/-- A directory that rclone has fetched. -/
theorem Rclone.Documented.same (hR : R.Documented) (hsrc : Closed src) (hdirs : NoEmptyDirs src)
    (hroot : nodeAt src [] = some .dir) (hup : R.up.Copies src none objects)
    (hdown : R.down.Copies objects (some ∅) dst) : Same dst src := by
  have hfiles := hR.up _ _ hup
  obtain ⟨hfetched, hmade⟩ := hR.down _ _ hdown
  have hdir : ∀ p, nodeAt dst p = some .dir ↔ nodeAt src p = some .dir := fun p => by
    rw [hmade]
    constructor
    · rintro (rfl | ⟨q, content, hq, hpre, hne⟩)
      · exact hroot
      · have hnode := (hfiles q content).mp hq
        exact hsrc.above (by rw [hnode]; exact Option.some_ne_none _) hpre hne
    · intro hp
      rcases hdirs p hp with rfl | ⟨q, content, hq, hpre, hne⟩
      · exact Or.inl rfl
      · exact Or.inr ⟨q, content, (hfiles q content).mpr hq, hpre, hne⟩
  have hfile : ∀ p content, nodeAt dst p = some (.file content) ↔
      nodeAt src p = some (.file content) :=
    fun p content => (hfetched p content).trans (hfiles p content)
  intro p
  cases hp : nodeAt src p with
  | none =>
    cases hq : nodeAt dst p with
    | none => rfl
    | some node =>
      cases node with
      | dir => exact absurd ((hdir p).mp hq) (by rw [hp]; exact Option.some_ne_none _ ∘ Eq.symm)
      | file content =>
        exact absurd ((hfile p content).mp hq) (by rw [hp]; exact Option.some_ne_none _ ∘ Eq.symm)
  | some node =>
    cases node with
    | dir => exact (hdir p).mpr hp
    | file content => exact (hfile p content).mpr hp

/-- What has been uploaded and then downloaded, both undisturbed, is the source. -/
theorem Uploaded.roundTrip (hP : P.Documented) (h : Uploaded P t u)
    (hdown : P.down.Copies (some u) (some ∅) dst) : Same dst (some t) := by
  cases P with
  | localDir =>
    have hup := copytree_copies h.closed h.copies
    exact (copytree_copies (Closed.of_same hup h.closed) hdown).trans hup
  | s3Compatible rclone =>
    have hdirs : NoEmptyDirs (some t) := h.sendable.resolve_left Bool.false_ne_true
    exact Rclone.Documented.same hP h.closed hdirs rfl h.copies hdown

/-! ## A copy that does as documented -/

/-- A copier that copies in one step what it may copy. -/
def onceCopier (ready : Option (DirTree β) → Bool)
    (copy : Option (DirTree β) → Option (DirTree β) → Option (DirTree β))
    (keeps : ∀ src t, ∃ u, copy src (some t) = some u) : Copier β where
  St := Bool
  start src _ := if ready src then some false else none
  step src dst copied _ := if copied then none else some (copy src dst, true)
  outcome copied := if copied then some true else none
  keeps h := by
    split at h
    · cases h
    · obtain ⟨rfl, -⟩ := Prod.mk.inj (Option.some.inj h)
      exact keeps _ _

theorem onceCopier_copies {ready : Option (DirTree β) → Bool}
    {copy : Option (DirTree β) → Option (DirTree β) → Option (DirTree β)}
    (keeps : ∀ src t, ∃ u, copy src (some t) = some u) {dst' : Option (DirTree β)} :
    (onceCopier ready copy keeps).Copies src dst dst' ↔ ready src = true ∧ dst' = copy src dst := by
  constructor
  · rintro ⟨st, ⟨order, st₀, choices, hstart, hrun⟩, hend⟩
    obtain ⟨hready, hst₀⟩ := Option.ite_none_right_eq_some.mp hstart
    obtain rfl := Option.some.inj hst₀
    cases choices with
    | nil =>
      obtain ⟨rfl, rfl⟩ := Prod.mk.inj (Option.some.inj hrun)
      cases hend
    | cons choice rest =>
      cases rest with
      | nil =>
        obtain ⟨rfl, -⟩ := Prod.mk.inj (Option.some.inj hrun)
        exact ⟨hready, rfl⟩
      | cons choice' rest => cases hrun
  · rintro ⟨hready, rfl⟩
    exact ⟨true, ⟨[], false, [[]], if_pos hready, rfl⟩, rfl⟩

/-- The paths of the files. -/
def filePaths (t : Option (DirTree β)) : List Path :=
  ((t.map AList.keys).getD []).filter fun p => isDir t p = false

theorem mem_filePaths : p ∈ filePaths src ↔ ∃ content, nodeAt src p = some (.file content) := by
  cases src with
  | none => simp [filePaths]
  | some t =>
    simp only [filePaths, Option.map_some, Option.getD_some, List.mem_filter, decide_eq_true_eq]
    constructor
    · rintro ⟨hkey, hfile⟩
      have hp : p ≠ [] := by
        rintro rfl
        cases hfile
      obtain ⟨node, hnode⟩ := Option.isSome_iff_exists.mp (AList.lookup_isSome.mpr hkey)
      rw [← nodeAt_some t hp] at hnode
      cases node with
      | dir => exact absurd (isDir_iff.mpr hnode) (by simp [hfile])
      | file content => exact ⟨content, hnode⟩
    · rintro ⟨content, hnode⟩
      have hp : p ≠ [] := by
        rintro rfl
        cases hnode
      refine ⟨?_, Bool.eq_false_iff.mpr fun hdir => ?_⟩
      · rw [nodeAt_some t hp] at hnode
        exact AList.lookup_isSome.mp (by rw [hnode]; rfl)
      · rw [isDir_iff.mp hdir] at hnode
        cases hnode

theorem ne_nil_of_file (h : p ∈ filePaths src) : p ≠ [] := by
  obtain ⟨content, hnode⟩ := mem_filePaths.mp h
  rintro rfl
  cases src <;> cases hnode

/-- The nodes of these paths, directories where there are none, added to a tree. -/
def gather (src : Option (DirTree β)) (paths : List Path) (t : DirTree β) : DirTree β :=
  paths.foldr (fun p t => t.insert p ((nodeAt src p).getD .dir)) t

theorem nodeAt_gather {paths : List Path} (hne : ∀ p ∈ paths, p ≠ []) (q : Path) :
    nodeAt (some (gather src paths t)) q =
      if q ∈ paths then some ((nodeAt src q).getD .dir) else nodeAt (some t) q := by
  induction paths with
  | nil => rfl
  | cons p rest ih =>
    have hrest := ih fun r hr => hne r (List.mem_cons_of_mem p hr)
    have hp : p ≠ [] := hne p List.mem_cons_self
    unfold gather at hrest
    refine (nodeAt_write hp q).trans ?_
    rw [hrest]
    by_cases hq : q = p
    · rw [if_pos hq, if_pos (by simp [hq]), hq]
    · rw [if_neg hq]
      simp only [List.mem_cons, hq, false_or]

/-- The objects of a directory: its files. -/
def uploaded (src dst : Option (DirTree β)) : Option (DirTree β) :=
  if filePaths src = [] then dst else some (gather src (filePaths src) (dst.getD ∅))

/-- The files of a prefix and the directories on the way to them. -/
def places (objects : Option (DirTree β)) : List Path :=
  (filePaths objects).flatMap fun p => p.inits.filter (· ≠ [])

theorem mem_places : p ∈ places objects ↔ p ≠ [] ∧
    ∃ q content, nodeAt objects q = some (.file content) ∧ p <+: q := by
  simp only [places, List.mem_flatMap, List.mem_filter, List.mem_inits, decide_eq_true_eq]
  constructor
  · rintro ⟨q, hq, hpre, hne⟩
    obtain ⟨content, hnode⟩ := mem_filePaths.mp hq
    exact ⟨hne, q, content, hnode, hpre⟩
  · rintro ⟨hne, q, content, hnode, hpre⟩
    exact ⟨q, mem_filePaths.mpr ⟨content, hnode⟩, hpre, hne⟩

def downloaded (objects dst : Option (DirTree β)) : Option (DirTree β) :=
  some (gather objects (places objects) (dst.getD ∅))

/-- No object's name goes on below another object. -/
def apart (objects : Option (DirTree β)) : Bool :=
  (filePaths objects).all fun p => (filePaths objects).all fun q => !p.isPrefixOf q || p = q

theorem uploaded_keeps (src : Option (DirTree β)) (t : DirTree β) :
    ∃ u, uploaded src (some t) = some u := by
  unfold uploaded
  split
  · exact ⟨t, rfl⟩
  · exact ⟨_, rfl⟩

theorem downloaded_keeps (objects : Option (DirTree β)) (t : DirTree β) :
    ∃ u, downloaded objects (some t) = some u := ⟨_, rfl⟩

/-- `rclone` in one step each way. -/
def fileRclone : Rclone β where
  up := onceCopier Option.isSome uploaded uploaded_keeps
  down := onceCopier apart downloaded downloaded_keeps

theorem nodeAt_empty (p : Path) (node : Node β) :
    nodeAt (some ∅) p = some node ↔ p = [] ∧ node = .dir := by
  by_cases hp : p = []
  · subst hp
    simp [eq_comm]
  · simp [nodeAt_some _ hp, hp]

theorem uploaded_sameFiles (src : Option (DirTree β)) : SameFiles (uploaded src none) src := by
  intro p content
  unfold uploaded
  split
  · next hnone =>
    refine iff_of_false (fun h => nomatch h) fun hnode => ?_
    have hmem := mem_filePaths.mpr ⟨content, hnode⟩
    rw [hnone] at hmem
    cases hmem
  · rw [nodeAt_gather fun p hp => ne_nil_of_file hp]
    split
    · next hmem =>
      obtain ⟨content', hnode⟩ := mem_filePaths.mp hmem
      rw [hnode, Option.getD_some]
    · next hmem =>
      refine iff_of_false (fun h => ?_) fun hnode => hmem (mem_filePaths.mpr ⟨content, hnode⟩)
      cases ((nodeAt_empty p _).mp h).2

theorem nodeAt_downloaded (p : Path) : nodeAt (downloaded objects (some ∅)) p =
    if p ∈ places objects then some ((nodeAt objects p).getD .dir)
    else nodeAt (some (∅ : DirTree β)) p :=
  nodeAt_gather (fun _ hp => (mem_places.mp hp).1) p

theorem fileRclone_documented : (fileRclone : Rclone β).Documented where
  up src objects h := by
    obtain ⟨-, rfl⟩ := (onceCopier_copies uploaded_keeps).mp h
    exact uploaded_sameFiles src
  down objects dst h := by
    obtain ⟨hapart, rfl⟩ := (onceCopier_copies downloaded_keeps).mp h
    constructor
    · intro p content
      rw [nodeAt_downloaded]
      split
      · cases hnode : nodeAt objects p <;> simp
      · next hplace =>
        refine iff_of_false (fun h => ?_) fun hnode => hplace (mem_places.mpr ?_)
        · cases ((nodeAt_empty p _).mp h).2
        · exact ⟨ne_nil_of_file (mem_filePaths.mpr ⟨content, hnode⟩), p, content, hnode,
            List.prefix_rfl⟩
    · intro p
      rw [nodeAt_downloaded]
      by_cases hnil : p = []
      · subst hnil
        rw [if_neg fun h => (mem_places.mp h).1 rfl]
        exact iff_of_true rfl (Or.inl rfl)
      rw [or_iff_right hnil]
      split
      · next hplace =>
        obtain ⟨-, q, content, hq, hpre⟩ := mem_places.mp hplace
        constructor
        · intro hdir
          refine ⟨q, content, hq, hpre, ?_⟩
          rintro rfl
          rw [hq] at hdir
          cases hdir
        · rintro ⟨r, content', hr, hpre', hne⟩
          cases hp : nodeAt objects p with
          | none => rfl
          | some node =>
            cases node with
            | dir => rfl
            | file content'' =>
              have hboth := List.all_eq_true.mp (List.all_eq_true.mp hapart p
                (mem_filePaths.mpr ⟨_, hp⟩)) r (mem_filePaths.mpr ⟨_, hr⟩)
              simp only [Bool.or_eq_true, Bool.not_eq_true', decide_eq_true_eq] at hboth
              rcases hboth with hno | heq
              · rw [List.isPrefixOf_iff_prefix.mpr hpre'] at hno
                cases hno
              · exact absurd heq hne
      · next hplace =>
        refine iff_of_false (fun h => hnil ((nodeAt_empty p _).mp h).1) ?_
        rintro ⟨q, content, hq, hpre, -⟩
        exact hplace (mem_places.mpr ⟨hnil, q, content, hq, hpre⟩)

/-- Every tree whose directories hold files goes up and comes down as it was. -/
theorem fileRclone_roundTrip (hsrc : Closed (some t)) (hdirs : NoEmptyDirs (some t)) :
    ∃ objects dst, (fileRclone : Rclone β).up.Copies (some t) none objects ∧
      (fileRclone : Rclone β).down.Copies objects (some ∅) dst ∧ Same dst (some t) := by
  have hup : (fileRclone : Rclone β).up.Copies (some t) none (uploaded (some t) none) :=
    (onceCopier_copies uploaded_keeps).mpr ⟨rfl, rfl⟩
  have hapart : apart (uploaded (some t) none) = true := by
    refine List.all_eq_true.mpr fun p hp => List.all_eq_true.mpr fun q hq => ?_
    obtain ⟨content, hp⟩ := mem_filePaths.mp hp
    obtain ⟨content', hq⟩ := mem_filePaths.mp hq
    rw [uploaded_sameFiles] at hp hq
    by_cases hpq : p = q
    · simp [hpq]
    · have hno : p.isPrefixOf q = false := by
        refine Bool.eq_false_iff.mpr fun hpre => ?_
        have hdir := hsrc.above (by rw [hq]; exact Option.some_ne_none _)
          (List.isPrefixOf_iff_prefix.mp hpre) hpq
        rw [hp] at hdir
        cases hdir
      simp [hno]
  have hdown : (fileRclone : Rclone β).down.Copies (uploaded (some t) none) (some ∅)
      (downloaded (uploaded (some t) none) (some ∅)) :=
    (onceCopier_copies downloaded_keeps).mpr ⟨hapart, rfl⟩
  exact ⟨_, _, hup, hdown, fileRclone_documented.same hsrc hdirs rfl hup hdown⟩

end YikvServer.Artifact
