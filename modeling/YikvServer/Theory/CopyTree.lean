import YikvServer.Theory.FileTree

/-!
# `shutil.copytree`

The scan of a directory, its creation, the opening of a file and each block of its
content are steps of their own. A copy of a tree that nobody changes, when it ends without
errors, is that tree.
-/
namespace YikvServer.Theory.FileTree

variable {β : Type} {src dst dst' : Option (DirTree β)} {p q : Path}

/-- What is left of `copytree`: to scan a directory, to create it with the entries that
the scan found, to open a file, to copy its next block, to copy the times of a directory. -/
inductive Task where
  | enter (p : Path)
  | make (p : Path) (entries : List (Path × Bool))
  | openFile (p : Path)
  | read (p : Path)
  | stat (p : Path)

/-- `errors` is all that is kept of the exceptions. -/
structure CopyTree where
  todo : List Task
  errors : Bool

namespace CopyTree

/-- Directories are told from files by the scan. -/
def scanned (src : Option (DirTree β)) (order : List Path) : List (Path × Bool) :=
  order.map fun q => (q, isDir src q)

def entryTask : Path × Bool → Task
  | (q, true) => .enter q
  | (q, false) => .openFile q

/-- The entries of a directory, then its times. -/
def below (p : Path) (entries : List (Path × Bool)) : List Task :=
  entries.map entryTask ++ [.stat p]

def failed (rest : List Task) : CopyTree := ⟨rest, true⟩

/-- The scan of the directory itself, which the caller creates next. -/
def start (src : Option (DirTree β)) (order : List Path) : Option CopyTree :=
  if isDir src [] ∧ order.Perm (children src []) then
    some ⟨below [] (scanned src order), false⟩
  else none

def step (src dst : Option (DirTree β)) (c : CopyTree) (order : List Path) :
    Option (Option (DirTree β) × CopyTree) :=
  match c.todo with
  | [] => none
  | .enter p :: rest =>
    if isDir src p then
      if order.Perm (children src p) then
        some (dst, { c with todo := .make p (scanned src order) :: rest })
      else none
    else some (dst, failed rest)
  | .make p entries :: rest =>
    if (nodeAt dst p).isNone ∧ p.inits.all fun q => isDir dst q || (nodeAt dst q).isNone then
      some (makedirs dst p, { c with todo := below p entries ++ rest })
    else some (dst, failed rest)
  | .openFile p :: rest =>
    match nodeAt src p with
    | some (.file _) =>
      if isDir dst p.dropLast ∧ isDir dst p = false then
        some (write dst p (.file []), { c with todo := .read p :: rest })
      else some (dst, failed rest)
    | _ => some (dst, failed rest)
  | .read p :: rest =>
    match nodeAt src p, nodeAt dst p with
    | some (.file content), some (.file copied) =>
      match content[copied.length]? with
      | some block => some (write dst p (.file (copied ++ [block])), c)
      | none => some (dst, { c with todo := rest })
    | _, _ => some (dst, failed rest)
  | .stat p :: rest =>
    if isDir src p ∧ isDir dst p then some (dst, { c with todo := rest })
    else some (dst, failed rest)

def outcome (c : CopyTree) : Option Bool :=
  match c.todo with
  | [] => some !c.errors
  | _ :: _ => none

end CopyTree

theorem CopyTree.keeps {t : DirTree β} {st st' : CopyTree} {choice : List Path}
    (h : CopyTree.step src (some t) st choice = some (dst, st')) : ∃ u, dst = some u := by
  simp only [CopyTree.step] at h
  repeat' split at h
  all_goals cases h
  all_goals exact ⟨_, rfl⟩

/-- Symbolic links in the source are left out. -/
def copytree : Copier β where
  St := CopyTree
  start := CopyTree.start
  step := CopyTree.step
  outcome := CopyTree.outcome
  keeps := CopyTree.keeps

/-! ## Copies of a tree that stays as it is -/

/-- The paths that a task is going to copy. -/
def Task.Covers : Task → Path → Prop
  | .enter p, q => p <+: q
  | .make p _, q => p <+: q
  | .openFile p, q => q = p
  | .read p, q => q = p
  | .stat _, _ => False

namespace CopyTree

variable {task : Task} {rest added todo : List Task} {c c' : CopyTree} {order : List Path}
  {entries : List (Path × Bool)}

/-- A copy without errors, part of the way: what has been copied is as in the source, but
for a file that is being read, and the rest is still to be done. -/
structure Copied (src dst : Option (DirTree β)) (todo : List Task) : Prop where
  root : nodeAt dst [] = some .dir
  sound : ∀ p, nodeAt dst p = none ∨ nodeAt dst p = nodeAt src p ∨
    ∃ copied content, nodeAt dst p = some (.file copied) ∧ nodeAt src p = some (.file content) ∧
      copied <+: content ∧ .read p ∈ todo
  made : ∀ p entries, .make p entries ∈ todo →
    nodeAt src p = some .dir ∧ ∀ q ∈ children src p, (q, isDir src q) ∈ entries
  covered : ∀ p, nodeAt src p ≠ none →
    nodeAt dst p = nodeAt src p ∨ ∃ task ∈ todo, task.Covers p

/-- The tasks below a directory cover what is below it. -/
theorem below_covers (hsrc : Closed src) (hdir : ∀ r ∈ children src p, (r, isDir src r) ∈ entries)
    (hq : nodeAt src q ≠ none) (hp : p <+: q) (hpq : p ≠ q) :
    ∃ task ∈ below p entries, task.Covers q := by
  obtain ⟨tail, rfl⟩ := hp
  cases tail with
  | nil => exact absurd (List.append_nil p).symm hpq
  | cons n tail =>
    have hpre : p ++ [n] <+: p ++ n :: tail := ⟨tail, by simp⟩
    have hnode : nodeAt src (p ++ [n]) ≠ none := by
      by_cases he : p ++ [n] = p ++ n :: tail
      · rw [he]
        exact hq
      · rw [hsrc.above hq hpre he]
        exact Option.some_ne_none _
    have hentry := hdir (p ++ [n]) (mem_children.mpr ⟨by simp, by simp, hnode⟩)
    refine ⟨entryTask (p ++ [n], isDir src (p ++ [n])),
      List.mem_append_left _ (List.mem_map_of_mem hentry), ?_⟩
    cases hd : isDir src (p ++ [n]) with
    | true => exact hpre
    | false =>
      show p ++ n :: tail = p ++ [n]
      by_contra hne
      have hnd := isDir_iff.mpr (hsrc.above hq hpre fun he => hne he.symm)
      rw [hd] at hnd
      cases hnd

/-- The head of the tasks is replaced. -/
theorem Copied.replace (h : Copied src dst (task :: rest)) (hroot : nodeAt dst' [] = some .dir)
    (hsound : ∀ p, nodeAt dst' p = nodeAt src p ∨ nodeAt dst' p = nodeAt dst p ∧ task ≠ .read p ∨
      ∃ copied content, nodeAt dst' p = some (.file copied) ∧
        nodeAt src p = some (.file content) ∧ copied <+: content ∧ .read p ∈ added)
    (hmade : ∀ p entries, .make p entries ∈ added →
      nodeAt src p = some .dir ∧ ∀ q ∈ children src p, (q, isDir src q) ∈ entries)
    (hcovered : ∀ p, nodeAt src p ≠ none → nodeAt dst p = nodeAt src p ∨ task.Covers p →
      nodeAt dst' p = nodeAt src p ∨ ∃ t ∈ added, t.Covers p) :
    Copied src dst' (added ++ rest) where
  root := hroot
  sound p := by
    rcases hsound p with hsame | ⟨hold, hne⟩ | ⟨copied, content, hd, hs, hpre, hread⟩
    · exact Or.inr (Or.inl hsame)
    · rw [hold]
      rcases h.sound p with hnone | hsame | ⟨copied, content, hd, hs, hpre, hread⟩
      · exact Or.inl hnone
      · exact Or.inr (Or.inl hsame)
      · refine Or.inr (Or.inr ⟨copied, content, hd, hs, hpre, ?_⟩)
        rcases List.mem_cons.mp hread with he | hread
        · exact absurd he.symm hne
        · exact List.mem_append_right _ hread
    · exact Or.inr (Or.inr ⟨copied, content, hd, hs, hpre, List.mem_append_left _ hread⟩)
  made p entries hmem := by
    rcases List.mem_append.mp hmem with hmem | hmem
    · exact hmade p entries hmem
    · exact h.made p entries (List.mem_cons_of_mem _ hmem)
  covered p hp := by
    have hnow : (nodeAt dst p = nodeAt src p ∨ task.Covers p) ∨ ∃ t ∈ rest, t.Covers p := by
      rcases h.covered p hp with hsame | ⟨t, ht, hcov⟩
      · exact Or.inl (Or.inl hsame)
      · rcases List.mem_cons.mp ht with rfl | ht
        · exact Or.inl (Or.inr hcov)
        · exact Or.inr ⟨t, ht, hcov⟩
    rcases hnow with hnow | ⟨t, ht, hcov⟩
    · rcases hcovered p hp hnow with hsame | ⟨t, ht, hcov⟩
      · exact Or.inl hsame
      · exact Or.inr ⟨t, List.mem_append_left _ ht, hcov⟩
    · exact Or.inr ⟨t, List.mem_append_right _ ht, hcov⟩

/-- The head of the tasks is done with, and the copy stays as it is. -/
theorem Copied.done (h : Copied src dst (task :: rest))
    (hread : ∀ p, task = .read p → nodeAt dst p = nodeAt src p)
    (hcovered : ∀ p, nodeAt src p ≠ none → task.Covers p → nodeAt dst p = nodeAt src p) :
    Copied src dst rest := by
  show Copied src dst ([] ++ rest)
  refine h.replace h.root (fun p => ?_) (fun p entries hmem => ?_) fun p hp hnow => ?_
  · by_cases he : task = .read p
    · exact Or.inl (hread p he)
    · exact Or.inr (Or.inl ⟨rfl, he⟩)
  · cases hmem
  · exact Or.inl (hnow.elim id (hcovered p hp))

/-- A scan. -/
theorem Copied.scan (h : Copied src dst (.enter p :: rest)) (hdir : isDir src p = true)
    (horder : order.Perm (children src p)) :
    Copied src dst (.make p (scanned src order) :: rest) := by
  show Copied src dst ([.make p (scanned src order)] ++ rest)
  refine h.replace h.root (fun q => Or.inr (Or.inl ⟨rfl, Task.noConfusion⟩))
    (fun q entries hmem => ?_) fun q hq hnow => ?_
  · obtain ⟨rfl, rfl⟩ := Task.make.inj (List.mem_singleton.mp hmem)
    exact ⟨isDir_iff.mp hdir, fun r hr => List.mem_map.mpr ⟨r, horder.mem_iff.mpr hr, rfl⟩⟩
  · exact hnow.imp_right fun hcov => ⟨_, List.mem_cons_self, hcov⟩

/-- A directory is created. -/
theorem Copied.makeDir (hsrc : Closed src) (h : Copied src dst (.make p entries :: rest)) :
    Copied src (makedirs dst p) (below p entries ++ rest) := by
  obtain ⟨hdir, hentries⟩ := h.made p entries List.mem_cons_self
  obtain ⟨t, rfl⟩ : ∃ t, dst = some t := by
    cases dst with
    | none => cases h.root
    | some t => exact ⟨t, rfl⟩
  have hnode := nodeAt_makedirs t p
  have habove : ∀ q, q <+: p → nodeAt src q = some .dir := fun q hq => by
    by_cases he : q = p
    · rw [he]
      exact hdir
    · exact hsrc.above (by rw [hdir]; exact Option.some_ne_none _) hq he
  refine h.replace ?_ (fun q => ?_) (fun q es hmem => ?_) fun q hq hnow => ?_
  · rw [hnode, nodeAt_root]
    simp
  · rw [hnode]
    by_cases hq : nodeAt (some t) q = none ∧ q <+: p
    · rw [if_pos hq]
      exact Or.inl (habove q hq.2).symm
    · rw [if_neg hq]
      exact Or.inr (Or.inl ⟨rfl, Task.noConfusion⟩)
  · exfalso
    rcases List.mem_append.mp hmem with hmem | hmem
    · obtain ⟨⟨r, b⟩, -, he⟩ := List.mem_map.mp hmem
      cases b <;> cases he
    · cases List.mem_singleton.mp hmem
  · by_cases hpre : q <+: p
    · left
      rw [hnode]
      by_cases hnone : nodeAt (some t) q = none
      · rw [if_pos ⟨hnone, hpre⟩, habove q hpre]
      · rw [if_neg fun hboth => hnone hboth.1]
        rcases hnow with hsame | hcov
        · exact hsame
        · rcases h.sound q with hno | hsame | ⟨copied, content, hd, hs, -, -⟩
          · exact absurd hno hnone
          · exact hsame
          · rw [habove q hpre] at hs
            cases hs
    · rcases hnow with hsame | hcov
      · left
        rw [hnode, if_neg fun hboth => hpre hboth.2]
        exact hsame
      · exact Or.inr (below_covers hsrc hentries hq hcov fun he => hpre (he ▸ List.prefix_rfl))

/-- A file is written, as far as it has been read. -/
theorem Copied.write {copied content : List β} (h : Copied src dst (task :: rest))
    (hsrc : nodeAt src p = some (.file content)) (hpre : copied <+: content)
    (htask : ∀ q, task = .read q → q = p) (hcov : ∀ q, task.Covers q → q = p) :
    Copied src (FileTree.write dst p (.file copied)) (.read p :: rest) := by
  obtain ⟨t, rfl⟩ : ∃ t, dst = some t := by
    cases dst with
    | none => cases h.root
    | some t => exact ⟨t, rfl⟩
  have hp : p ≠ [] := by
    rintro rfl
    cases src with
    | none => cases hsrc
    | some s => cases hsrc
  have hnode : ∀ q, nodeAt (FileTree.write (some t) p (.file copied)) q =
      if q = p then some (.file copied) else nodeAt (some t) q := nodeAt_write hp
  show Copied src _ ([.read p] ++ rest)
  refine h.replace ?_ (fun q => ?_) (fun q es hmem => ?_) fun q hq hnow => ?_
  · rw [hnode, if_neg (Ne.symm hp)]
    rfl
  · by_cases hq : q = p
    · subst hq
      exact Or.inr (Or.inr ⟨copied, content, (hnode q).trans (if_pos rfl), hsrc, hpre,
        List.mem_cons_self⟩)
    · refine Or.inr (Or.inl ⟨(hnode q).trans (if_neg hq), fun he => hq (htask q he)⟩)
  · cases List.mem_singleton.mp hmem
  · by_cases hqp : q = p
    · exact Or.inr ⟨_, List.mem_cons_self, hqp⟩
    · rcases hnow with hsame | hc
      · exact Or.inl (((hnode q).trans (if_neg hqp)).trans hsame)
      · exact absurd (hcov q hc) hqp

/-- With its next block a file is still a part of that in the source. -/
theorem Copied.read_next {copied content : List β} {block : β}
    (h : Copied src dst (.read p :: rest)) (hsrc : nodeAt src p = some (.file content))
    (hdst : nodeAt dst p = some (.file copied)) (hblock : content[copied.length]? = some block) :
    copied ++ [block] <+: content := by
  have hpre : copied <+: content := by
    rcases h.sound p with hnone | hsame | ⟨copied', content', hd, hs, hpre, -⟩
    · rw [hdst] at hnone
      cases hnone
    · rw [hdst, hsrc] at hsame
      rw [Node.file.inj (Option.some.inj hsame)]
    · rw [hdst] at hd
      obtain rfl := Node.file.inj (Option.some.inj hd)
      rw [hsrc] at hs
      obtain rfl := Node.file.inj (Option.some.inj hs)
      exact hpre
  obtain ⟨tail, rfl⟩ := hpre
  rw [List.getElem?_append_right (Nat.le_refl _), Nat.sub_self] at hblock
  obtain ⟨tail', rfl⟩ := List.head?_eq_some_iff.mp (List.head?_eq_getElem?.trans hblock)
  exact ⟨tail', by simp⟩

/-- A file that has been read to its end is as in the source. -/
theorem Copied.read_end {copied content : List β} (h : Copied src dst (.read p :: rest))
    (hsrc : nodeAt src p = some (.file content)) (hdst : nodeAt dst p = some (.file copied))
    (hend : content[copied.length]? = none) : nodeAt dst p = nodeAt src p := by
  rcases h.sound p with hnone | hsame | ⟨copied', content', hd, hs, hpre, -⟩
  · rw [hdst] at hnone
    cases hnone
  · exact hsame
  · rw [hdst] at hd
    obtain rfl := Node.file.inj (Option.some.inj hd)
    rw [hsrc] at hs
    obtain rfl := Node.file.inj (Option.some.inj hs)
    have hlen := List.getElem?_eq_none_iff.mp hend
    rw [hdst, hsrc, hpre.eq_of_length_le hlen]

/-- One step of a copy that has no errors. -/
theorem Copied.step (hsrc : Closed src) (h : Copied src dst c.todo)
    (hstep : CopyTree.step src dst c order = some (dst', c')) (herr : c'.errors = false) :
    Copied src dst' c'.todo := by
  obtain ⟨todo, errors⟩ := c
  simp only [CopyTree.step] at hstep
  split at hstep
  · cases hstep
  · next p rest =>
    split at hstep
    · next hdir =>
      split at hstep
      · next horder =>
        cases hstep
        exact h.scan hdir horder
      · cases hstep
    · cases hstep
      cases herr
  · next p entries rest =>
    split at hstep
    · cases hstep
      exact h.makeDir hsrc
    · cases hstep
      cases herr
  · next p rest =>
    split at hstep
    · next content hfile =>
      split at hstep
      · cases hstep
        exact h.write hfile List.nil_prefix (fun q he => nomatch he) fun q he => he
      · cases hstep
        cases herr
    · cases hstep
      cases herr
  · next p rest =>
    split at hstep
    · next content copied hfile hcopy =>
      split at hstep
      · next block hblock =>
        cases hstep
        exact h.write hfile (h.read_next hfile hcopy hblock) (fun q he => (Task.read.inj he).symm)
          fun q he => he
      · next hend =>
        cases hstep
        have hsame := h.read_end hfile hcopy hend
        refine h.done (fun q he => ?_) fun q hq hcov => ?_
        · obtain rfl := Task.read.inj he
          exact hsame
        · obtain rfl : q = p := hcov
          exact hsame
    · cases hstep
      cases herr
  · next p rest =>
    split at hstep
    · cases hstep
      exact h.done (fun q he => nomatch he) fun q hq hcov => hcov.elim
    · cases hstep
      cases herr

/-- The copy has begun. -/
theorem Copied.init (hsrc : Closed src) {st : CopyTree} (hstart : start src order = some st) :
    Copied src (some ∅) st.todo := by
  obtain ⟨⟨hdir, horder⟩, hst⟩ := Option.ite_none_right_eq_some.mp hstart
  obtain rfl := Option.some.inj hst
  have hempty : ∀ p : Path, p ≠ [] → nodeAt (some (∅ : DirTree β)) p = none := fun p hp => by
    rw [nodeAt_some _ hp, AList.lookup_empty]
  refine ⟨rfl, fun p => ?_, fun p es hmem => ?_, fun p hp => ?_⟩
  · by_cases hnil : p = []
    · rw [hnil, isDir_iff.mp hdir]
      exact Or.inr (Or.inl rfl)
    · exact Or.inl (hempty p hnil)
  · exfalso
    rcases List.mem_append.mp hmem with hmem | hmem
    · obtain ⟨⟨r, b⟩, -, he⟩ := List.mem_map.mp hmem
      cases b <;> cases he
    · cases List.mem_singleton.mp hmem
  · by_cases hnil : p = []
    · rw [hnil, isDir_iff.mp hdir]
      exact Or.inl rfl
    · refine Or.inr (below_covers hsrc (fun r hr => ?_) hp List.nil_prefix (Ne.symm hnil))
      exact List.mem_map.mpr ⟨r, horder.mem_iff.mpr hr, rfl⟩

/-- Errors stay. -/
theorem errors_of_step (hstep : CopyTree.step src dst c order = some (dst', c'))
    (herr : c'.errors = false) : c.errors = false := by
  obtain ⟨todo, errors⟩ := c
  cases errors with
  | false => rfl
  | true =>
    simp only [CopyTree.step] at hstep
    repeat' split at hstep
    all_goals cases hstep
    all_goals cases herr

end CopyTree

/-- A copy of a tree that nobody disturbs, when it succeeds, is that tree. -/
theorem copytree_copies (hsrc : Closed src) (h : copytree.Copies src (some ∅) dst) :
    Same dst src := by
  obtain ⟨st, ⟨order, st₀, choices, hstart, hrun⟩, hend⟩ := h
  have hcopied : st.errors = false → CopyTree.Copied src dst st.todo :=
    Runs.exec_invariant (P := fun s => s.2.errors = false → CopyTree.Copied src s.1 s.2.todo)
      (fun s choice s' hs hstep herr =>
        (hs (CopyTree.errors_of_step hstep herr)).step hsrc hstep herr)
      hrun fun _ => .init hsrc hstart
  obtain ⟨todo, errors⟩ := st
  cases todo with
  | cons task rest => cases hend
  | nil =>
    cases errors with
    | true => cases hend
    | false =>
      have h := hcopied rfl
      intro p
      by_cases hp : nodeAt src p = none
      · rcases h.sound p with hnone | hsame | ⟨copied, content, -, -, -, hread⟩
        · rw [hnone, hp]
        · exact hsame
        · cases hread
      · rcases h.covered p hp with hsame | ⟨task, htask, -⟩
        · exact hsame
        · cases htask

end YikvServer.Theory.FileTree
