import YikvServer.Artifact.InHand

/-!
# The directories of careful runs

What holds while pushes and pulls keep out of each other's way: a directory that no run
has left half-done is a build that was pushed, and what a run has in hand nobody else
touches.
-/
namespace YikvServer.Artifact

open YikvServer.Theory YikvServer.Theory.FileTree

variable {β : Type} {P : Provider β} {w w' : World P} {store store' : Store β}
  {dest dest' : Dest β} {torn torn' : List String} {source : DirTree β}
  {seen completed : List (String × DirTree β)} {b d : String} {i j : Nat}

/-- Not the name of a link that a switch makes. -/
def Proper (b : String) : Prop := b ≠ "active" ∧ b ≠ "active.tmp"

/-- The build being pulled is one that had been pushed. -/
def Reading (P : Provider β) (store : Store β) (seen : List (String × DirTree β)) (b : String)
    (u : DirTree β) : Prop :=
  store.lookup b = some u ∧ ∃ t, (b, t) ∈ seen ∧ Uploaded P t u

/-- The version directory is the source of a push. -/
def Delivered (dest : Dest β) (seen : List (String × DirTree β)) (b : String) : Prop :=
  ∃ t, (b, t) ∈ seen ∧ ∃ u, treeAt dest b = some u ∧ Same (some u) (some t)

/-- What a push has in hand. -/
def PushOk (P : Provider β) (store : Store β) (torn : List String) (source : DirTree β) :
    PushPc P.up.St → Prop
  | .remove b => b ∈ store
  | .make _ st => P.isLocal = true ∧ ∃ order, P.up.start (some source) order = some st
  | .copy b st => P.Sendable source ∧ P.up.Copying (some source) P.fresh (store.lookup b) st ∧
    (P.isLocal = true → b ∈ store) ∧ (b ∈ store → b ∈ torn)
  | _ => True

/-- What a pull has in hand. -/
def PullOk (P : Provider β) (store : Store β) (dest : Dest β) (torn : List String)
    (seen : List (String × DirTree β)) : PullPc P.down.St → Prop
  | .clear b => Proper b
  | .remove b => Proper b ∧ (treeAt dest b).isSome = true
  | .scan b => Proper b
  | .make b st => Proper b ∧ ∃ u, Reading P store seen b u ∧
    ∃ order, P.down.start (some u) order = some st
  | .copy b st => Proper b ∧ b ∈ torn ∧ ∃ u, Reading P store seen b u ∧
    ∃ v, treeAt dest b = some v ∧ P.down.Copying (some u) (some ∅) (some v) st
  | .prune b => Proper b ∧ Delivered dest seen b
  | .pruning b rest => Proper b ∧ Delivered dest seen b ∧ rest.Nodup ∧
    ∀ victim ∈ rest, victim = "active.tmp" ∨ (treeAt dest victim).isSome = true
  | .link b _ => Proper b ∧ Delivered dest seen b
  | .print b => Proper b ∧ Delivered dest seen b
  | _ => True

/-- The invariant. -/
structure Intact (w : World P) : Prop where
  stored : ∀ b u, w.store.lookup b = some u → b ∉ w.tornBuilds →
    ∃ t, (b, t) ∈ w.completed ∧ Uploaded P t u
  kept : ∀ d b u, treeAt (w.dests d) b = some u → b ∉ w.torn d →
    ∃ t, (b, t) ∈ w.completed ∧ Same (some u) (some t)
  links : ∀ d name target, (w.dests d).lookup name = some (.link target) → ¬ Proper name
  seen : ∀ (i : Nat) (run : PullRun P), w.pulls[i]? = some run →
    ∀ entry ∈ run.seen, entry ∈ w.completed
  pushes : ∀ (i : Nat) (run : PushRun P), w.pushes[i]? = some run →
    PushOk P w.store w.tornBuilds run.source.tree run.pc
  pulls : ∀ (i : Nat) (run : PullRun P), w.pulls[i]? = some run →
    PullOk P w.store (w.dests run.args.dest) (w.torn run.args.dest) run.seen run.pc
  pushesApart : ∀ (i j : Nat) (run other : PushRun P) b, w.pushes[i]? = some run →
    w.pushes[j]? = some other → i ≠ j → run.pc.changes b = true → other.pc.changes b = false
  readsApart : ∀ (i j : Nat) (run : PushRun P) (pull : PullRun P) b, w.pushes[i]? = some run →
    w.pulls[j]? = some pull → run.pc.changes b = true → pull.pc.reads b = false
  pullsApart : ∀ (i j : Nat) (run other : PullRun P) b, w.pulls[i]? = some run →
    w.pulls[j]? = some other → other.args.dest = run.args.dest → i ≠ j → run.pc.changes b = true →
      other.pc.changes b = false
  relied : ∀ (i j : Nat) (run other : PullRun P) b, w.pulls[i]? = some run →
    w.pulls[j]? = some other → other.args.dest = run.args.dest → run.pc.changes b = true →
      other.pc.relies b = false

/-! ## Frames -/

theorem PushOk.hold {pc : PushPc P.up.St} (h : PushOk P store torn source pc) :
    PushHold P (some source) store pc := by
  cases pc with
  | copy b st => exact ⟨h.2.1, h.2.2.1⟩
  | _ => exact h

theorem PushHold.ok {pc : PushPc P.up.St} (h : PushHold P (some source) store pc)
    (hcopy : ∀ b st, pc = .copy b st → P.Sendable source ∧ (b ∈ store → b ∈ torn)) :
    PushOk P store torn source pc := by
  cases pc with
  | copy b st =>
    obtain ⟨hsend, htorn⟩ := hcopy b st rfl
    exact ⟨hsend, h.1, h.2, htorn⟩
  | _ => exact h

theorem PushOk.frame {pc : PushPc P.up.St} (h : PushOk P store torn source pc)
    (hstore : ∀ b, pc.changes b = true → store'.lookup b = store.lookup b)
    (htorn : ∀ b, pc.changes b = true → b ∈ torn → b ∈ torn') :
    PushOk P store' torn' source pc := by
  refine (h.hold.frame (fun _ => rfl) hstore).ok ?_
  rintro b st rfl
  have hb : PushPc.changes (.copy b st) b = true := decide_eq_true rfl
  obtain ⟨hsend, -, -, ht⟩ := h
  refine ⟨hsend, fun hin => htorn b hb (ht ?_)⟩
  rw [← AList.lookup_isSome, ← hstore b hb]
  exact AList.lookup_isSome.mpr hin

theorem Reading.frame {u : DirTree β} (h : Reading P store seen b u)
    (hstore : store'.lookup b = store.lookup b) : Reading P store' seen b u :=
  ⟨hstore.trans h.1, h.2⟩

theorem PullOk.frame_store {pc : PullPc P.down.St} (h : PullOk P store dest torn seen pc)
    (hstore : ∀ b, pc.reads b = true → store'.lookup b = store.lookup b) :
    PullOk P store' dest torn seen pc := by
  cases pc with
  | make b st =>
    obtain ⟨hb, u, hread, hst⟩ := h
    exact ⟨hb, u, hread.frame (hstore b (decide_eq_true rfl)), hst⟩
  | copy b st =>
    obtain ⟨hb, ht, u, hread, hcopy⟩ := h
    exact ⟨hb, ht, u, hread.frame (hstore b (decide_eq_true rfl)), hcopy⟩
  | _ => exact h

theorem Delivered.frame (h : Delivered dest seen b) (hdest : treeAt dest' b = treeAt dest b) :
    Delivered dest' seen b := by
  obtain ⟨t, ht, u, hu, hsame⟩ := h
  exact ⟨t, ht, u, hdest.trans hu, hsame⟩

theorem PullOk.frame_dest {pc : PullPc P.down.St} (h : PullOk P store dest torn seen pc)
    (hdest : ∀ b, pc.changes b = true ∨ pc.relies b = true → treeAt dest' b = treeAt dest b)
    (htorn : ∀ b, pc.changes b = true → b ∈ torn → b ∈ torn') :
    PullOk P store dest' torn' seen pc := by
  have hself : ∀ b : String, decide (b = b) = true := fun b => decide_eq_true rfl
  cases pc with
  | remove b =>
    obtain ⟨hb, hsome⟩ := h
    refine ⟨hb, ?_⟩
    rw [hdest b (Or.inl (hself b))]
    exact hsome
  | copy b st =>
    obtain ⟨hb, ht, u, hread, v, hv, hcopy⟩ := h
    exact ⟨hb, htorn b (hself b) ht, u, hread, v, (hdest b (Or.inl (hself b))).trans hv, hcopy⟩
  | prune b => exact ⟨h.1, h.2.frame (hdest b (Or.inr (hself b)))⟩
  | pruning b rest =>
    obtain ⟨hb, hdel, hnodup, hrest⟩ := h
    refine ⟨hb, hdel.frame (hdest b (Or.inr (hself b))), hnodup, fun victim hmem => ?_⟩
    rw [hdest victim (Or.inl (decide_eq_true hmem))]
    exact hrest victim hmem
  | link b pc => exact ⟨h.1, h.2.frame (hdest b (Or.inr (hself b)))⟩
  | print b => exact ⟨h.1, h.2.frame (hdest b (Or.inr (hself b)))⟩
  | _ => exact h

end YikvServer.Artifact
