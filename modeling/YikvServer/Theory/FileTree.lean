import YikvServer.Theory.Runs
import Mathlib.Data.List.AList
import Mathlib.Data.List.Infix

/-!
# Directory trees

What lies below a directory, by relative path, and programs that copy or remove such a
tree in steps, while others may change what they read and write. `rmtree` is that of
Python's `shutil`.
-/
namespace YikvServer.Theory.FileTree

abbrev Path := List String

inductive Node (β : Type) where
  | dir
  | file (content : List β)
  deriving DecidableEq

/-- The entries below a directory; the directory itself is none of them. -/
abbrev DirTree (β : Type) := AList fun _ : Path => Node β

variable {β : Type} {t u src dst dst' : Option (DirTree β)} {p q : Path}

/-- What is found at a path below a directory that may be absent. -/
def nodeAt (t : Option (DirTree β)) (p : Path) : Option (Node β) :=
  t.bind fun t => if p = [] then some .dir else t.lookup p

def isDir (t : Option (DirTree β)) (p : Path) : Bool :=
  match nodeAt t p with
  | some .dir => true
  | _ => false

/-- The same entries with the same contents. -/
def Same (t u : Option (DirTree β)) : Prop := ∀ p, nodeAt t p = nodeAt u p

/-- Every entry lies in a directory. -/
def Closed (t : Option (DirTree β)) : Prop :=
  ∀ p n, nodeAt t (p ++ [n]) ≠ none → nodeAt t p = some .dir

def DirTree.children (t : DirTree β) (p : Path) : List Path :=
  t.keys.filter fun q => q ≠ [] ∧ q.dropLast = p

/-- `os.scandir`, in the order of the keys. -/
def children (t : Option (DirTree β)) (p : Path) : List Path :=
  (t.map (DirTree.children · p)).getD []

/-- A path is written in a directory that exists. -/
def write (t : Option (DirTree β)) (p : Path) (node : Node β) : Option (DirTree β) :=
  t.map (AList.insert p node)

/-- `os.makedirs` where no file is in the way. -/
def makedirs (t : Option (DirTree β)) (p : Path) : Option (DirTree β) :=
  some ((p.inits.filter (· ≠ [])).foldl
    (fun t q => if q ∈ t then t else t.insert q .dir) (t.getD ∅))

/-- One step of `shutil.rmtree`: an entry without children, at last the directory. -/
def rmtreeStep (t : Option (DirTree β)) (p : Path) : Option (Option (DirTree β)) :=
  t.bind fun t =>
    if p = [] then if t.keys = [] then some none else none
    else if p ∈ t ∧ t.children p = [] then some (some (t.erase p)) else none

/-! ## Reading after writing -/

theorem Same.trans {v : Option (DirTree β)} (h : Same t u) (h' : Same u v) : Same t v :=
  fun p => (h p).trans (h' p)

@[simp] theorem nodeAt_none (p : Path) : nodeAt (none : Option (DirTree β)) p = none := rfl

@[simp] theorem nodeAt_root (t : DirTree β) : nodeAt (some t) [] = some .dir := rfl

theorem nodeAt_some (t : DirTree β) (hp : p ≠ []) : nodeAt (some t) p = t.lookup p := if_neg hp

theorem isDir_iff : isDir t p = true ↔ nodeAt t p = some .dir := by
  unfold isDir
  split
  · next h => simp [h]
  · next h => simpa using h

theorem nodeAt_write {t : DirTree β} {node : Node β} (hp : p ≠ []) (q : Path) :
    nodeAt (write (some t) p node) q = if q = p then some node else nodeAt (some t) q := by
  by_cases hq : q = p
  · subst hq
    rw [if_pos rfl]
    exact (nodeAt_some _ hp).trans (AList.lookup_insert t)
  · rw [if_neg hq]
    by_cases hnil : q = []
    · subst hnil
      rfl
    · exact (nodeAt_some _ hnil).trans ((AList.lookup_insert_ne hq).trans (nodeAt_some t hnil).symm)

theorem mem_children : q ∈ children t p ↔ q ≠ [] ∧ q.dropLast = p ∧ nodeAt t q ≠ none := by
  cases t with
  | none => simp [children]
  | some t =>
    show q ∈ t.children p ↔ _
    rw [DirTree.children, List.mem_filter, ← AList.mem_keys, ← AList.lookup_isSome]
    by_cases hq : q = []
    · simp [hq]
    · rw [nodeAt_some t hq, Option.isSome_iff_ne_none]
      simp [hq, and_comm]

theorem foldl_makedirs (paths : List Path) (hne : ∀ q ∈ paths, q ≠ []) (t : DirTree β) (q : Path) :
    nodeAt (some (paths.foldl (fun t q => if q ∈ t then t else t.insert q .dir) t)) q =
      if nodeAt (some t) q = none ∧ q ∈ paths then some .dir else nodeAt (some t) q := by
  induction paths generalizing t with
  | nil => simp
  | cons r rest ih =>
    have hr : r ≠ [] := hne r List.mem_cons_self
    rw [List.foldl_cons, ih fun x hx => hne x (List.mem_cons_of_mem r hx)]
    have hturn : nodeAt (some (if r ∈ t then t else t.insert r .dir)) q =
        if nodeAt (some t) q = none ∧ q = r then some .dir else nodeAt (some t) q := by
      by_cases hmem : r ∈ t
      · rw [if_pos hmem, if_neg]
        rintro ⟨hq, rfl⟩
        rw [nodeAt_some t hr, AList.lookup_eq_none] at hq
        exact hq hmem
      · rw [if_neg hmem]
        have hw : nodeAt (write (some t) r .dir) q =
            if q = r then some .dir else nodeAt (some t) q := nodeAt_write hr q
        by_cases hq : q = r
        · subst hq
          have hnone : nodeAt (some t) q = none := by
            rw [nodeAt_some t hr, AList.lookup_eq_none]
            exact hmem
          rw [if_pos ⟨hnone, rfl⟩]
          exact hw.trans (if_pos rfl)
        · rw [if_neg fun h => hq h.2]
          exact hw.trans (if_neg hq)
    rw [hturn]
    by_cases hnone : nodeAt (some t) q = none
    · by_cases hq : q = r
      · subst hq
        simp [hnone]
      · simp [hnone, hq]
    · simp [hnone]

theorem nodeAt_makedirs (t : DirTree β) (p q : Path) :
    nodeAt (makedirs (some t) p) q =
      if nodeAt (some t) q = none ∧ q <+: p then some .dir else nodeAt (some t) q := by
  have hne : ∀ q ∈ p.inits.filter (· ≠ []), q ≠ [] := by simp
  rw [show makedirs (some t) p = some _ from rfl, foldl_makedirs _ hne]
  by_cases hq : q = []
  · subst hq
    simp
  · simp [hq]

theorem closed_none : Closed (none : Option (DirTree β)) := fun _ _ h => absurd rfl h

/-- Below a directory whose entries lie in directories, so do all prefixes. -/
theorem Closed.above (h : Closed t) (hq : nodeAt t q ≠ none) (hp : p <+: q) (hpq : p ≠ q) :
    nodeAt t p = some .dir := by
  induction q using List.reverseRecOn with
  | nil => exact absurd (List.prefix_nil.mp hp) hpq
  | append_singleton q n ih =>
    have hdir := h q n hq
    rcases List.prefix_concat_iff.mp hp with he | hp
    · exact absurd he hpq
    · by_cases hpq : p = q
      · rw [hpq]
        exact hdir
      · exact ih (by rw [hdir]; exact Option.some_ne_none _) hp hpq

/-- A directory of files alone. -/
theorem closed_flat {t : DirTree β} (h : ∀ q ∈ t.keys, q.length ≤ 1) : Closed (some t) := by
  intro p n hp
  have hmem : p ++ [n] ∈ t := by
    rw [nodeAt_some t (by simp)] at hp
    rw [← AList.lookup_isSome, Option.isSome_iff_ne_none]
    exact hp
  have hlen := h _ (AList.mem_keys.mp hmem)
  rw [List.length_append, List.length_singleton] at hlen
  have hnil : p = [] := List.eq_nil_of_length_eq_zero (by omega)
  rw [hnil]
  rfl

theorem nodeAt_erase {t : DirTree β} (hp : p ≠ []) (q : Path) :
    nodeAt (some (t.erase p)) q = if q = p then none else nodeAt (some t) q := by
  by_cases hq : q = p
  · subst hq
    rw [if_pos rfl, nodeAt_some _ hp, AList.lookup_erase]
  · rw [if_neg hq]
    by_cases hnil : q = []
    · subst hnil
      rfl
    · rw [nodeAt_some _ hnil, nodeAt_some _ hnil, AList.lookup_erase_ne hq]

/-- What a removal has left so far. -/
theorem Closed.rmtreeStep (h : Closed t) (hstep : rmtreeStep t p = some u) : Closed u := by
  obtain ⟨t, rfl, hturn⟩ := Option.bind_eq_some_iff.mp hstep
  split at hturn
  · split at hturn
    · cases hturn
      exact fun q n hq => absurd rfl hq
    · cases hturn
  · next hp =>
    split at hturn
    · next hleaf =>
      cases hturn
      intro q n hq
      rw [nodeAt_erase hp] at hq
      split at hq
      · exact absurd rfl hq
      · have hdir := h q n hq
        have hqp : q ≠ p := by
          rintro rfl
          have hchild : q ++ [n] ∈ children (some t) q :=
            mem_children.mpr ⟨by simp, by simp, hq⟩
          have hnone : children (some t) q = [] := hleaf.2
          rw [hnone] at hchild
          cases hchild
        rw [nodeAt_erase hp, if_neg hqp]
        exact hdir
    · cases hturn

/-! ## Copies -/

/-- A program that copies a tree. Each step sees the source and the copy as they are at
that moment and is told how an outside choice falls; the outcome is whether it succeeded.
It never removes the directory that it writes. -/
structure Copier (β : Type) where
  St : Type
  start : Option (DirTree β) → List Path → Option St
  step : Option (DirTree β) → Option (DirTree β) → St → List Path → Option (Option (DirTree β) × St)
  outcome : St → Option Bool
  keeps : ∀ {src : Option (DirTree β)} {t : DirTree β} {dst : Option (DirTree β)} {st st' : St}
    {choice : List Path}, step src (some t) st choice = some (dst, st') → ∃ u, dst = some u

/-- Steps on a source and a copy that nobody else touches. -/
def Copier.run (C : Copier β) (src : Option (DirTree β)) (s : Option (DirTree β) × C.St)
    (choices : List (List Path)) : Option (Option (DirTree β) × C.St) :=
  Runs.exec (fun s choice => C.step src s.1 s.2 choice) s choices

/-- An undisturbed copy that has begun at `dst` and got to `dst'` and `st`. -/
def Copier.Copying (C : Copier β) (src dst dst' : Option (DirTree β)) (st : C.St) : Prop :=
  ∃ order st₀ choices, C.start src order = some st₀ ∧
    C.run src (dst, st₀) choices = some (dst', st)

/-- An undisturbed copy onto `dst` that has succeeded leaves `dst'`. -/
def Copier.Copies (C : Copier β) (src dst dst' : Option (DirTree β)) : Prop :=
  ∃ st, C.Copying src dst dst' st ∧ C.outcome st = some true

theorem Copier.Copying.refl {C : Copier β} {order : List Path} {st : C.St}
    (h : C.start src order = some st) : C.Copying src dst dst st :=
  ⟨order, st, [], h, rfl⟩

theorem Copier.Copying.step {C : Copier β} {mid : Option (DirTree β)} {st st' : C.St}
    {choice : List Path} (h : C.Copying src dst mid st)
    (hstep : C.step src mid st choice = some (dst', st')) : C.Copying src dst dst' st' := by
  obtain ⟨order, st₀, choices, hstart, hrun⟩ := h
  exact ⟨order, st₀, choices ++ [choice], hstart, Runs.exec_append hrun hstep⟩

end YikvServer.Theory.FileTree
