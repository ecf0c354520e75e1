import YikvServer.Agent.ReleaseSound

/-!
# What is served was imported whole

Whatever `SERVER_DB/<table>` leads to at any moment is the tree that one finished import left
on the build host.
-/
namespace YikvServer.Agent

open YikvServer.Theory YikvServer.Theory.FileTree YikvServer.Artifact

variable {β : Type} {P : Provider β} {b : String}

/-! ## What is served -/

/-- A version is the tree that one finished import has left on the build host, and that a
completed push has published under its name. -/
def Release.Whole (w : Release P) (b : String) : Prop :=
  ∃ t ∈ w.build.shared.finished, (b, t) ∈ w.completed ∧
    ∃ u, treeAt w.host.dest b = some u ∧ Same (some u) (some t)

theorem Release.Sound.whole {w : Release P} (h : w.Sound) {seen : List (String × DirTree β)}
    (hseen : ∀ entry ∈ seen, entry ∈ w.completed) (hdel : Delivered w.host.dest seen b) :
    w.Whole b := by
  obtain ⟨t, ht, u, hu, hsame⟩ := hdel
  exact ⟨t, h.completed _ (hseen _ ht), hseen _ ht, u, hu, hsame⟩

theorem resolve_link {dest : Dest β} {name : String} (hlink : dest.lookup name = some (.link b))
    (hb : (treeAt dest b).isSome = true) : resolve dest name = some b := by
  unfold treeAt at hb
  split at hb
  · next t hdir => simp only [resolve, follow, hlink, hdir]
  · cases hb

/-- In every run of the requests of both hosts that keep out of each other's way, whatever
`SERVER_DB/<table>` leads to is the published tree of one finished import, and so is the
version for which a request asks the server to reload. -/
theorem served_whole (P : Provider β) (hP : P.Documented) (settings : Settings)
    (found : FoundIndex β) (moves : List (ReleaseMove β)) (w : Release P)
    (hrun : Runs.exec (Release.step settings) (.init found) moves = some w)
    (hcareful : Runs.Guarded (Release.step settings) Release.Careful
      (.init found : Release P) moves) :
    (w.host.served ≠ none → w.host.served = some (.release "active") ∧
      ∃ b, resolve w.host.dest "active" = some b ∧ w.Whole b) ∧
    ∀ job ∈ w.jobs, ∀ b, job.pc = .reload b → w.Whole b := by
  have hsound : w.Sound :=
    Runs.guarded_invariant (fun _ _ _ h hc hs => h.step hP hc hs) hcareful hrun (.init found)
  obtain ⟨pushes, active, -, hserving, hintact⟩ := hsound.intact
  constructor
  · intro hserved
    obtain ⟨hlink, b, hb⟩ := hsound.served.resolve_left hserved
    have hok := hintact.pulls 0 active rfl
    rw [hserving.linked b hb, hserving.dest_eq, w.world_dests] at hok
    refine ⟨hlink, b, resolve_link hb hok.2.isSome, hsound.whole ?_ hok.2⟩
    exact hintact.seen 0 active rfl
  · intro job hmem b hreload
    obtain ⟨i, hi⟩ := List.mem_iff_getElem?.mp hmem
    have hok := hintact.pulls _ _ (w.world_pulls pushes active hi)
    have hpc : job.pullRun.pc = .print b := by
      rw [OnlineJob.pullRun, hreload]
      rfl
    rw [hpc, job.pullRun_dest, w.world_dests] at hok
    exact hsound.whole (hsound.seen hi) hok.2

/-! ## Runs of the local provider -/

section Local

instance (w : Release P) (b : String) : Decidable (w.Free b) := by
  unfold Release.Free
  infer_instance

instance (w : Release P) (b : String) : Decidable (w.Settled b) := by
  unfold Release.Settled
  infer_instance

instance (w : Release P) (online : OnlineJob P) : Decidable (online.Careful w) := by
  unfold OnlineJob.Careful
  split <;> infer_instance

variable (w : Release (Provider.localDir : Provider β))

instance (job : Job (Provider.localDir : Provider β)) : Decidable (job.Apart w) := by
  unfold Job.Apart
  split
  · infer_instance
  · exact isTrue (Or.inl rfl)
  · infer_instance

instance : DecidablePred w.Careful
  | .build (.turn i now files choice) =>
    match h : w.build.jobs[i]? with
    | none => isTrue ⟨(fun job hjob => by cases h.symm.trans hjob),
        (fun job hjob => by cases h.symm.trans hjob)⟩
    | some job => decidable_of_iff (w.build.Careful (.turn i now files choice) ∧ job.Apart w)
        (by simp [Release.Careful, h])
  | .build (.start _) => isTrue ⟨trivial, trivial⟩
  | .build (.importWrite _ _) => isTrue ⟨trivial, trivial⟩
  | .build (.importExit _ _) => isTrue ⟨trivial, trivial⟩
  | .build (.raise _) => isTrue ⟨trivial, trivial⟩
  | .online i _ _ =>
    match h : w.jobs[i]? with
    | none => isTrue fun job hjob => by cases h.symm.trans hjob
    | some job => decidable_of_iff (job.Careful w) (by simp [Release.Careful, h])
  | .arrive _ => isTrue trivial
  | .cut _ => isTrue trivial

/-- A build is published, and then deployed. -/
def publishThenDeploy : List (ReleaseMove Nat) :=
  publish.map .build ++ .arrive (.release (.deployIndex (some "20") false 2)) ::
    List.replicate 4 (.online 0 .matching []) ++ .online 0 .matching [["table.json"]] ::
      List.replicate 16 (.online 0 .matching [])

theorem publishThenDeploy_whole : ∃ w : Release (.localDir : Provider Nat),
    Runs.exec (Release.step agentSettings) (.init noIndex) publishThenDeploy = some w ∧
      w.host.served = some (.release "active") ∧
      (∃ b, resolve w.host.dest "active" = some b ∧ w.Whole b) ∧ w.Whole "20" := by
  obtain ⟨w, hrun, hserved, job, hmem, hreload⟩ : ∃ w : Release (.localDir : Provider Nat),
      Runs.exec (Release.step agentSettings) (.init noIndex) publishThenDeploy = some w ∧
        w.host.served ≠ none ∧ ∃ job ∈ w.jobs, job.pc = .reload "20" :=
    ⟨_, rfl, by decide, _, List.mem_cons_self, rfl⟩
  obtain ⟨hactive, hreloads⟩ := served_whole .localDir trivial agentSettings noIndex
    publishThenDeploy w hrun (by decide)
  exact ⟨w, hrun, (hactive hserved).1, (hactive hserved).2, hreloads job hmem "20" hreload⟩

end Local

end YikvServer.Agent
