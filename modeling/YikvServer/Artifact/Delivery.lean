import YikvServer.Artifact.PushTurns
import YikvServer.Artifact.PullTurns

/-!
# A successful pull delivers a complete build

While runs keep out of each other's way, and nobody takes up what a cut-off run has left,
a pull that exits has the source of a completed push in its version directory. Otherwise
it need not: the directory of an upload in progress is listed as a build, and the version
pulled last may be the one that the pull prunes.
-/
namespace YikvServer.Artifact

open YikvServer.Theory YikvServer.Theory.FileTree

variable {β : Type} {P : Provider β} {w w' : World P} {i : Nat} {m : Move β}

namespace Intact

theorem init : Intact (World.init : World P) where
  stored b u hu := by cases hu
  kept d b u hu := by cases hu
  links d name target hlink := by cases hlink
  seen i run hi := by cases hi
  pushes i run hi := by cases hi
  pulls i run hi := by cases hi
  pushesApart i j run other b hi := by cases hi
  readsApart i j run pull b hi := by cases hi
  pullsApart i j run other b hi := by cases hi
  relied i j run other b hi := by cases hi

/-- Pushes that have nothing in hand begin, or end. -/
theorem of_pushes (h : Intact w) {pushes : List (PushRun P)}
    (hold : ∀ (j : Nat) (run : PushRun P), pushes[j]? = some run →
      w.pushes[j]? = some run ∨ run.pc.Idle) : Intact { w with pushes } where
  stored := h.stored
  kept := h.kept
  links := h.links
  seen := h.seen
  pulls := h.pulls
  pullsApart := h.pullsApart
  relied := h.relied
  pushes j run hj := by
    rcases hold j run hj with hj | hidle
    · exact h.pushes j run hj
    · obtain ⟨buildId, source, pc⟩ := run
      cases pc with
      | remove b => exact hidle.elim
      | make b st => exact hidle.elim
      | copy b st => exact hidle.elim
      | _ => trivial
  pushesApart i j run other b hi hj hne hb := by
    rcases hold j other hj with hj | hidle
    · rcases hold i run hi with hi | hidle
      · exact h.pushesApart i j run other b hi hj hne hb
      · rw [hidle.changes_eq] at hb
        cases hb
    · exact hidle.changes_eq
  readsApart i j run pull b hi hj hb := by
    rcases hold i run hi with hi | hidle
    · exact h.readsApart i j run pull b hi hj hb
    · rw [hidle.changes_eq] at hb
      cases hb

/-- Pulls begin, or end by a failure. -/
theorem of_pulls (h : Intact w) {pulls : List (PullRun P)}
    (hold : ∀ (j : Nat) (run : PullRun P), pulls[j]? = some run → w.pulls[j]? = some run ∨
      (run.pc = .resolve ∨ run.pc = .failed) ∧ ∀ entry ∈ run.seen, entry ∈ w.completed) :
    Intact { w with pulls } where
  stored := h.stored
  kept := h.kept
  links := h.links
  pushes := h.pushes
  pushesApart := h.pushesApart
  seen j run hj := by
    rcases hold j run hj with hj | ⟨-, hseen⟩
    · exact h.seen j run hj
    · exact hseen
  pulls j run hj := by
    rcases hold j run hj with hj | ⟨hpc | hpc, -⟩
    · exact h.pulls j run hj
    · rw [hpc]
      trivial
    · rw [hpc]
      trivial
  readsApart i j run pull b hi hj hb := by
    rcases hold j pull hj with hj | ⟨hpc | hpc, -⟩
    · exact h.readsApart i j run pull b hi hj hb
    · rw [hpc]
      rfl
    · rw [hpc]
      rfl
  pullsApart i j run other b hi hj hd hne hb := by
    rcases hold j other hj with hj | ⟨hpc | hpc, -⟩
    · rcases hold i run hi with hi | ⟨hpc | hpc, -⟩
      · exact h.pullsApart i j run other b hi hj hd hne hb
      · rw [hpc] at hb
        cases hb
      · rw [hpc] at hb
        cases hb
    · rw [hpc]
      rfl
    · rw [hpc]
      rfl
  relied i j run other b hi hj hd hb := by
    rcases hold j other hj with hj | ⟨hpc | hpc, -⟩
    · rcases hold i run hi with hi | ⟨hpc | hpc, -⟩
      · exact h.relied i j run other b hi hj hd hb
      · rw [hpc] at hb
        cases hb
      · rw [hpc] at hb
        cases hb
    · rw [hpc]
      rfl
    · rw [hpc]
      rfl

/-- A careful push takes a turn. -/
theorem push_step {run : PushRun P} {effect : Effect β} {pc : PushPc P.up.St} (h : Intact w)
    (hi : w.pushes[i]? = some run) (hcareful : run.Careful w)
    (hturn : PushTurn P (some run.source.tree) w.store run.pc effect pc) :
    Intact { w with
      store := effect.onStore w.store
      pushes := w.pushes.set i { run with pc }
      completed := effect.onCompleted run.source.tree w.completed
      tornBuilds := effect.onTorn w.tornBuilds } where
  stored := h.stored_turn hi hturn
  kept d b u hu hb := by
    obtain ⟨t, ht, hsame⟩ := h.kept d b u hu hb
    exact ⟨t, Effect.mem_onCompleted ht, hsame⟩
  links := h.links
  seen j pull hj entry hentry := Effect.mem_onCompleted (h.seen j pull hj entry hentry)
  pushes j other hj := by
    rcases Runs.getElem?_set_cases hj with ⟨rfl, rfl⟩ | ⟨hne, hj⟩
    · have hown := h.pushOk_turn hi hcareful hturn
      exact hown
    · have hfree : ∀ b, other.pc.changes b = true → ¬ effect.writes b := fun b hb hwrites => by
        have hno := (h.push_alone hi hcareful hturn (Or.inl hwrites)).pushes j other hj hne
        rw [hb] at hno
        cases hno
      exact (h.pushes j other hj).frame (fun b hb => Effect.lookup_onStore (hfree b hb))
        fun b hb ht => (Effect.mem_onTorn (hfree b hb)).mpr ht
  pulls j pull hj := by
    refine (h.pulls j pull hj).frame_store fun b hb => Effect.lookup_onStore fun hwrites => ?_
    have hno := (h.push_alone hi hcareful hturn (Or.inl hwrites)).pulls j pull hj
    rw [hb] at hno
    cases hno
  pushesApart i' j run' other b hi' hj hne hb := by
    rcases Runs.getElem?_set_cases hi' with ⟨rfl, rfl⟩ | ⟨hii, hold⟩
    · rcases Runs.getElem?_set_cases hj with ⟨rfl, rfl⟩ | ⟨hji, hj⟩
      · exact absurd rfl hne
      · exact (h.push_alone hi hcareful hturn (Or.inr hb)).pushes j other hj hji
    · rcases Runs.getElem?_set_cases hj with ⟨rfl, rfl⟩ | ⟨hji, hj⟩
      · refine Bool.eq_false_iff.mpr fun hc => ?_
        have hno := (h.push_alone hi hcareful hturn (Or.inr hc)).pushes i' run' hold hii
        rw [hb] at hno
        cases hno
      · exact h.pushesApart i' j run' other b hold hj hne hb
  readsApart i' j run' pull b hi' hj hb := by
    rcases Runs.getElem?_set_cases hi' with ⟨rfl, rfl⟩ | ⟨-, hold⟩
    · exact (h.push_alone hi hcareful hturn (Or.inr hb)).pulls j pull hj
    · exact h.readsApart i' j run' pull b hold hj hb
  pullsApart := h.pullsApart
  relied := h.relied

/-- A careful pull takes a turn. -/
theorem pull_step {run : PullRun P} {effect : Effect β} {pc : PullPc P.down.St}
    (hP : P.Documented) (h : Intact w) (hi : w.pulls[i]? = some run) (hcareful : run.Careful w)
    (hturn : PullTurn P run.args w.store (w.dests run.args.dest) run.pc effect pc) :
    Intact { w with
      dests := Function.update w.dests run.args.dest (effect.onDest (w.dests run.args.dest))
      pulls := w.pulls.set i
        { run with pc, seen := if run.pc.takesUp then w.completed else run.seen }
      torn := Function.update w.torn run.args.dest (effect.onTorn (w.torn run.args.dest)) } where
  stored := h.stored
  kept d b u hu hb := by
    by_cases hd : d = run.args.dest
    · subst hd
      simp only [Function.update_self] at hu hb
      exact h.kept_turn hP hi hcareful hturn b u hu hb
    · simp only [Function.update_of_ne hd] at hu hb
      exact h.kept d b u hu hb
  links d name target hlink := by
    by_cases hd : d = run.args.dest
    · subst hd
      simp only [Function.update_self] at hlink
      exact h.links_turn hturn name target hlink
    · simp only [Function.update_of_ne hd] at hlink
      exact h.links d name target hlink
  seen j pull hj entry hentry := by
    rcases Runs.getElem?_set_cases hj with ⟨rfl, rfl⟩ | ⟨-, hj⟩
    · by_cases htakes : run.pc.takesUp = true
      · simpa only [htakes, if_true] using hentry
      · simp only [htakes] at hentry
        exact h.seen j run hi entry hentry
    · exact h.seen j pull hj entry hentry
  pushes := h.pushes
  pulls j other hj := by
    rcases Runs.getElem?_set_cases hj with ⟨rfl, rfl⟩ | ⟨hne, hj⟩
    · simp only [Function.update_self]
      exact h.pullOk_turn hP hi hcareful hturn
    · by_cases hd : other.args.dest = run.args.dest
      · have hfree : ∀ b, other.pc.changes b = true ∨ other.pc.relies b = true →
            ¬ effect.writes b := fun b hb hwrites => by
          obtain ⟨hchanges, hrelies⟩ := h.pull_writes hi hturn hwrites j other hj hd hne
          rcases hb with hb | hb
          · exact Bool.false_ne_true (hchanges.symm.trans hb)
          · exact Bool.false_ne_true (hrelies.symm.trans hb)
        have hok := h.pulls j other hj
        rw [hd] at hok
        simp only [hd, Function.update_self]
        exact hok.frame_dest (fun b hb => hturn.treeAt_eq (hfree b hb))
          fun b hb ht => (Effect.mem_onTorn (hfree b (Or.inl hb))).mpr ht
      · simp only [Function.update_of_ne hd]
        exact h.pulls j other hj
  pushesApart := h.pushesApart
  readsApart i' j push pull b hi' hj hb := by
    rcases Runs.getElem?_set_cases hj with ⟨rfl, rfl⟩ | ⟨-, hj⟩
    · refine Bool.eq_false_iff.mpr fun hr => ?_
      have hno := h.pull_reads hi hcareful hturn hr i' push hi'
      exact Bool.false_ne_true (hno.symm.trans hb)
    · exact h.readsApart i' j push pull b hi' hj hb
  pullsApart i' j run' other b hi' hj hd hne hb := by
    rcases Runs.getElem?_set_cases hi' with ⟨rfl, rfl⟩ | ⟨hii, hold⟩
    · rcases Runs.getElem?_set_cases hj with ⟨rfl, rfl⟩ | ⟨hji, hj⟩
      · exact absurd rfl hne
      · exact ((h.pull_takes hi hcareful hturn hb).1 j other hj hd hji).1
    · rcases Runs.getElem?_set_cases hj with ⟨rfl, rfl⟩ | ⟨hji, hj⟩
      · refine Bool.eq_false_iff.mpr fun hc => ?_
        have hno := ((h.pull_takes hi hcareful hturn hc).1 i' run' hold hd.symm hii).1
        exact Bool.false_ne_true (hno.symm.trans hb)
      · exact h.pullsApart i' j run' other b hold hj hd hne hb
  relied i' j run' other b hi' hj hd hb := by
    rcases Runs.getElem?_set_cases hi' with ⟨rfl, rfl⟩ | ⟨hii, hold⟩
    · obtain ⟨halone, hself⟩ := h.pull_takes hi hcareful hturn hb
      rcases Runs.getElem?_set_cases hj with ⟨rfl, rfl⟩ | ⟨hji, hj⟩
      · exact hself
      · exact (halone j other hj hd hji).2
    · rcases Runs.getElem?_set_cases hj with ⟨rfl, rfl⟩ | ⟨hji, hj⟩
      · refine Bool.eq_false_iff.mpr fun hr => ?_
        have hno := h.pull_relies hi hcareful hturn hr i' run' hold hd.symm hii
        exact Bool.false_ne_true (hno.symm.trans hb)
      · exact h.relied i' j run' other b hold hj hd hb

/-- Every careful move keeps the directories intact. -/
theorem step (hP : P.Documented) (h : Intact w) (hcareful : w.Careful m)
    (hstep : w.step m = some w') : Intact w' := by
  cases m with
  | startPush buildId source =>
    obtain rfl := Option.some.inj hstep
    refine h.of_pushes fun j run hj => ?_
    rcases Runs.getElem?_concat_cases hj with hj | rfl
    · exact Or.inl hj
    · exact Or.inr trivial
  | startPull args =>
    obtain rfl := Option.some.inj hstep
    refine h.of_pulls fun j run hj => ?_
    rcases Runs.getElem?_concat_cases hj with hj | rfl
    · exact Or.inl hj
    · exact Or.inr ⟨Or.inl rfl, fun entry hentry => by cases hentry⟩
  | push i now choice =>
    obtain ⟨run, hi, hstep⟩ := Option.bind_eq_some_iff.mp hstep
    obtain ⟨⟨effect, pc⟩, hturn, rfl⟩ := Option.map_eq_some_iff.mp hstep
    exact h.push_step hi (hcareful run hi) (pushTurn hturn)
  | pull i choice =>
    obtain ⟨run, hi, hstep⟩ := Option.bind_eq_some_iff.mp hstep
    obtain ⟨⟨effect, pc⟩, hturn, rfl⟩ := Option.map_eq_some_iff.mp hstep
    exact h.pull_step hP hi (hcareful run hi) (pullTurn hturn)
  | cutPush i =>
    obtain ⟨run, hi, rfl⟩ := Option.map_eq_some_iff.mp hstep
    refine h.of_pushes fun j other hj => ?_
    rcases Runs.getElem?_set_cases hj with ⟨rfl, rfl⟩ | ⟨-, hj⟩
    · exact Or.inr trivial
    · exact Or.inl hj
  | cutPull i =>
    obtain ⟨run, hi, rfl⟩ := Option.map_eq_some_iff.mp hstep
    refine h.of_pulls fun j other hj => ?_
    rcases Runs.getElem?_set_cases hj with ⟨rfl, rfl⟩ | ⟨-, hj⟩
    · exact Or.inr ⟨Or.inr rfl, h.seen j run hi⟩
    · exact Or.inl hj

end Intact

/-- A pull that is about to exit has the source of a push in its version directory that
had completed when the pull took it up. -/
def Complete (w : World P) (run : PullRun P) (b : String) : Prop :=
  Delivered (w.dests run.args.dest) run.seen b

/-- In every run whose pushes and pulls keep out of each other's way, a pull that exits has
delivered a complete build. -/
theorem pull_complete (P : Provider β) (hP : P.Documented) (moves : List (Move β)) (w : World P)
    (hrun : Runs.exec World.step .init moves = some w)
    (hcareful : Runs.Guarded World.step World.Careful (.init : World P) moves)
    (run : PullRun P) (hmem : run ∈ w.pulls) (b : String) (hprint : run.pc = .print b) :
    Complete w run b := by
  have hintact : Intact w :=
    Runs.guarded_invariant (fun _ _ _ h hc hs => h.step hP hc hs) hcareful hrun .init
  obtain ⟨i, hi⟩ := List.mem_iff_getElem?.mp hmem
  have hok := hintact.pulls i run hi
  rw [hprint] at hok
  exact hok.2

/-! ## Runs of the local provider -/

section Local

variable {w : World (Provider.localDir : Provider β)}

instance (run : PushRun (Provider.localDir : Provider β)) : Decidable (run.Careful w) :=
  match run with
  | ⟨_, _, .isDir b⟩ => inferInstanceAs (Decidable (IsName b))
  | ⟨_, _, .check b⟩ => inferInstanceAs (Decidable (b ∈ w.store → _ ∧ _))
  | ⟨_, _, .scan _⟩ => isTrue (Or.inl rfl)
  | ⟨_, _, .resolve _⟩ => isTrue trivial
  | ⟨_, _, .remove _⟩ => isTrue trivial
  | ⟨_, _, .make _ _⟩ => isTrue trivial
  | ⟨_, _, .copy _ _⟩ => isTrue trivial
  | ⟨_, _, .print _⟩ => isTrue trivial
  | ⟨_, _, .done _⟩ => isTrue trivial
  | ⟨_, _, .failed⟩ => isTrue trivial

instance (run : PullRun P) (w : World P) : Decidable (run.Careful w) := by
  unfold PullRun.Careful
  cases run.pc <;> infer_instance

instance : DecidablePred (World.Careful w)
  | .push i _ _ =>
    match h : w.pushes[i]? with
    | none => isTrue fun run hrun => by cases h.symm.trans hrun
    | some run => decidable_of_iff (run.Careful w) (by simp [World.Careful, h])
  | .pull i _ =>
    match h : w.pulls[i]? with
    | none => isTrue fun run hrun => by cases h.symm.trans hrun
    | some run => decidable_of_iff (run.Careful w) (by simp [World.Careful, h])
  | .startPush _ _ => isTrue trivial
  | .startPull _ => isTrue trivial
  | .cutPush _ => isTrue trivial
  | .cutPull _ => isTrue trivial

end Local

/-- The moves of push `i` of one file, to its end. -/
def pushMoves (i : Nat) : List (Move Nat) :=
  List.replicate 3 (.push i 0 []) ++ .push i 0 [["table.json"]] ::
    List.replicate 7 (.push i 0 [])

/-- The moves of pull `i` of one file, until it prunes. -/
def pullMoves (i : Nat) : List (Move Nat) :=
  List.replicate 4 (.pull i []) ++ .pull i [["table.json"]] :: List.replicate 7 (.pull i [])

/-- A build is pushed and then pulled. -/
def pushThenPull : List (Move Nat) :=
  .startPush none (oneFile 1) :: pushMoves 0 ++
    .startPull ⟨none, "releases", 2, false, false⟩ :: pullMoves 0 ++ [.pull 0 []]

theorem pushThenPull_complete : ∃ w : World (.localDir : Provider Nat),
    Runs.exec World.step .init pushThenPull = some w ∧
      ∃ run ∈ w.pulls, run.pc = .print "0" ∧ Complete w run "0" := by
  obtain ⟨w, hrun, run, hmem, hprint⟩ : ∃ w : World (.localDir : Provider Nat),
      Runs.exec World.step .init pushThenPull = some w ∧
        ∃ run ∈ w.pulls, run.pc = .print "0" :=
    ⟨_, rfl, _, List.mem_cons_self, rfl⟩
  exact ⟨w, hrun, run, hmem, hprint,
    pull_complete .localDir trivial pushThenPull w hrun (by decide) run hmem "0" hprint⟩

/-- A push is cut off when it has created its directory, which is then pulled. -/
def cutPush : List (Move Nat) :=
  .startPush (some "20") (oneFile 1) :: List.replicate 3 (.push 0 0 []) ++
    [.push 0 0 [["table.json"]], .push 0 0 [], .cutPush 0,
      .startPull ⟨none, "releases", 2, false, false⟩] ++ List.replicate 10 (.pull 0 [])

/-- Build 20 is pulled where one version is to be kept and 30 is there: it is pruned. -/
def rollback : List (Move Nat) :=
  .startPush (some "20") (oneFile 1) :: pushMoves 0 ++
    .startPush (some "30") (oneFile 2) :: pushMoves 1 ++
    .startPull ⟨none, "releases", 1, false, false⟩ :: pullMoves 0 ++ .pull 0 [] ::
    .startPull ⟨some "20", "releases", 1, false, false⟩ :: pullMoves 1 ++
    [.pull 1 [["table.json"]], .pull 1 [], .pull 1 []]

/-- A pull of the run exits without the build. -/
def Misdelivers (moves : List (Move Nat)) : Prop :=
  ∃ w : World (.localDir : Provider Nat), Runs.exec World.step .init moves = some w ∧
    ∃ run ∈ w.pulls, ∃ b, run.pc = .print b ∧ ¬ Complete w run b

/-- A pull exits with the first part of an upload, another with nothing at all. -/
theorem cutPush_rollback_misdelivered : Misdelivers cutPush ∧ Misdelivers rollback := by
  constructor
  · refine ⟨_, rfl, _, List.mem_cons_self, "20", rfl, ?_⟩
    rintro ⟨t, ht, -⟩
    cases ht
  · refine ⟨_, rfl, _, List.mem_cons_of_mem _ List.mem_cons_self, "20", rfl, ?_⟩
    rintro ⟨t, -, u, hu, -⟩
    cases hu

end YikvServer.Artifact
