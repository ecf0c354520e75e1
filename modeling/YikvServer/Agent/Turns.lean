import YikvServer.Agent.Build

/-!
# The moves of a build host

What each statement of a request can do to what the requests share.
-/
namespace YikvServer.Agent

open YikvServer.Theory.FileTree YikvServer.Artifact

variable {β : Type} {P : Provider β} {settings : Settings} {s s' : Shared β} {i : Nat}
  {job job' : Job P} {index : Option (IndexEntry β)}

theorem sourceTree_isSome (h : (sourceTree index).isSome = true) (hlinked : linked index = none) :
    (directory index).isSome = true := by
  rw [sourceTree, hlinked] at h
  exact h

theorem linked_of_directory {t : DirTree β} (h : directory index = some t) :
    linked index = none := by
  cases index with
  | none => rfl
  | some entry =>
    cases entry with
    | link target => cases h
    | _ => rfl

theorem directory_map (t : Option (DirTree β)) : directory (t.map IndexEntry.dir) = t := by
  cases t <;> rfl

theorem linked_map (t : Option (DirTree β)) : linked (t.map IndexEntry.dir) = none := by
  cases t <;> rfl

/-- The statements of a build. -/
def JobPc.early {St : Type} : JobPc St → Bool
  | .schema _ => true
  | .executable _ => true
  | .remove _ => true
  | .removing _ => true
  | .input _ => true
  | .running => true
  | _ => false

/-- Not waiting for the lock, and not at its end. -/
def JobPc.busy {St : Type} : JobPc St → Bool
  | .acquire => false
  | .release _ => false
  | .ended _ => false
  | _ => true

/-- The copy of a push has ended. -/
def pushed {St : Type} : PushPc St → Bool
  | .print _ => true
  | .done _ => true
  | _ => false

/-- A push prints the build id when its copy has ended. -/
theorem pushed_pushStep {buildId : Option String} {now : Nat} {src : Option (DirTree β)}
    {store : Store β} {choice : List Path} {effect : Effect β} {pc pc' : PushPc P.up.St}
    (h : pushStep P buildId now src store choice pc = some (effect, pc'))
    (hpc : pushed pc' = true) :
    pushed pc = true ∧ (∀ b, effect ≠ .complete b) ∨
      ∃ b st, pc = .copy b st ∧ effect = .complete b := by
  cases pc with
  | resolve suffix =>
    simp only [pushStep] at h
    split at h
    · cases h
      cases hpc
    · split at h
      · cases h
        cases hpc
      · cases h
        cases hpc
  | isDir b =>
    simp only [pushStep] at h
    obtain ⟨-, rfl⟩ := Prod.mk.inj (Option.some.inj h)
    repeat' split at hpc
    all_goals cases hpc
  | check b =>
    obtain ⟨-, rfl⟩ := Prod.mk.inj (Option.some.inj h)
    split at hpc
    · cases hpc
    · cases hpc
  | remove b =>
    obtain ⟨-, t, -, rfl⟩ := removeStep_eq_some h
    split at hpc
    · cases hpc
    · cases hpc
  | scan b =>
    obtain ⟨st, -, heq⟩ := Option.map_eq_some_iff.mp h
    obtain ⟨-, rfl⟩ := Prod.mk.inj heq
    split at hpc
    · cases hpc
    · cases hpc
  | make b st =>
    simp only [pushStep] at h
    split at h
    · cases h
      cases hpc
    · cases h
      cases hpc
  | copy b st =>
    rcases copyStep_eq_some h with ⟨-, rfl, rfl⟩ | ⟨-, rfl⟩ | ⟨t, st', -, -, rfl⟩
    · exact Or.inr ⟨b, st, rfl, rfl⟩
    · cases hpc
    · cases hpc
  | print b =>
    obtain ⟨rfl, -⟩ := Prod.mk.inj (Option.some.inj h)
    exact Or.inl ⟨rfl, fun b hb => by cases hb⟩
  | done b => cases h
  | failed => cases h

/-- What one move of request `i` can do. -/
inductive JobTurn (i : Nat) (s : Shared β) (job : Job P) : Shared β → Job P → Prop
  | acquire (hpc : job.pc = .acquire) (hlock : s.lock = none) :
      JobTurn i s job { s with lock := some i } (job.goto job.request.enter)
  | check (pc : JobPc P.up.St) (hpc : job.pc.early = true) (hnext : pc.early = true)
      (hbuilds : pc.builds = true → job.pc.builds = true) : JobTurn i s job s (job.goto pc)
  | remove (body : BuildIndexBody) (index : Option (IndexEntry β)) (pc : JobPc P.up.St)
      (hpc : job.pc = .remove body) (hindex : index = s.index ∨ index = none)
      (hnext : pc.builds = true) :
      JobTurn i s job { s with index, whole := false } (job.goto pc)
  | write (t : Option (DirTree β)) (pc : JobPc P.up.St) (hpc : job.pc.builds = true)
      (ht : Closed (directory s.index) → Closed t) (hnext : pc.builds = true) :
      JobTurn i s job { s with index := t.map .dir } (job.goto pc)
  | built (hpc : job.pc = .running) :
      JobTurn i s job { s with
        finished := (directory s.index).toList ++ s.finished
        whole := (directory s.index).isSome } (job.goto job.request.afterBuild)
  | isDir (hpc : job.pc = .isDir) (hsome : (sourceTree s.index).isSome = true) :
      JobTurn i s job s { job with source := linked s.index, pc := .push (.resolve 0) }
  | push (pc : PushPc P.up.St) (effect : Effect β) (pc' : PushPc P.up.St)
      (hpc : job.pc = .push pc) (hturn : PushTurn P (job.reads s) s.store pc effect pc')
      (hpushed : pushed pc' = true → pushed pc = true ∧ (∀ b, effect ≠ .complete b) ∨
        ∃ b st, pc = .copy b st ∧ effect = .complete b) :
      JobTurn i s job { s with store := effect.onStore s.store }
        { job with pc := .push pc', got := copied s.store job.got effect }
  | done (b : String) (hpc : job.pc = .push (.done b)) :
      JobTurn i s job s (job.goto (job.request.conclude (.ok (some b))))
  | fail (e : HttpError) (source : Option (DirTree β)) (hpc : job.pc.busy = true)
      (hsource : source = job.source ∨ source = linked s.index) :
      JobTurn i s job s { job with source, pc := job.request.conclude (.error e) }
  | release (result : Except HttpError (Option String)) (hpc : job.pc = .release result) :
      JobTurn i s job { s with lock := none } (job.goto (.ended result))

theorem JobTurn.goOn {failure : Option HttpError} {pc : JobPc P.up.St}
    (hpc : job.pc.early = true) (hbusy : job.pc.busy = true) (hnext : pc.early = true)
    (hbuilds : pc.builds = true → job.pc.builds = true) :
    JobTurn i s job s (job.goOn failure pc) := by
  cases failure with
  | none => exact .check pc hpc hnext hbuilds
  | some e => exact .fail e job.source hbusy (Or.inl rfl)

theorem jobTurn {now : Nat} {files : HostFiles} {choice : List Path}
    (h : job.turn settings s i now files choice = some (s', job')) : JobTurn i s job s' job' := by
  obtain ⟨request, pc, source, got⟩ := job
  cases pc with
  | acquire =>
    simp only [Job.turn] at h
    split at h
    · next hlock =>
      cases h
      exact .acquire rfl hlock
    · cases h
  | schema body =>
    cases h
    exact .goOn rfl rfl rfl id
  | executable body =>
    cases h
    exact .goOn rfl rfl rfl fun hb => by cases hb
  | remove body =>
    simp only [Job.turn] at h
    split at h
    · cases h
      exact .remove body s.index _ rfl (Or.inl rfl) rfl
    · cases h
      exact .remove body s.index _ rfl (Or.inl rfl) rfl
    · cases h
      exact .remove body none _ rfl (Or.inr rfl) rfl
  | removing body =>
    simp only [Job.turn] at h
    split at h
    · next t hdir =>
      obtain ⟨t', ht, heq⟩ := Option.map_eq_some_iff.mp h
      cases heq
      refine .write t' _ rfl (fun hclosed => ?_) ?_
      · rw [hdir] at hclosed
        exact hclosed.rmtreeStep ht
      · split
        · rfl
        · rfl
    · cases h
  | input body =>
    cases h
    exact .goOn rfl rfl rfl fun _ => rfl
  | running => cases h
  | isDir =>
    obtain ⟨rfl, rfl⟩ := Prod.mk.inj (Option.some.inj h)
    unfold checkSource
    split
    · next hsome => exact .isDir rfl hsome
    · exact .fail _ _ rfl (Or.inr rfl)
  | push pc =>
    have hpush : ((pushStep P request.buildId now (Job.reads s ⟨request, .push pc, source, got⟩)
        s.store choice pc).map fun turn =>
          ({ s with store := turn.1.onStore s.store },
            (⟨request, .push turn.2, source, copied s.store got turn.1⟩ : Job P))) =
              some (s', job') →
        JobTurn i s ⟨request, .push pc, source, got⟩ s' job' := fun hmap => by
      obtain ⟨⟨effect, pc'⟩, hstep, heq⟩ := Option.map_eq_some_iff.mp hmap
      cases heq
      exact .push pc effect pc' rfl (pushTurn hstep) fun hpc' => pushed_pushStep hstep hpc'
    cases pc with
    | done b =>
      obtain ⟨rfl, rfl⟩ := Prod.mk.inj (Option.some.inj h)
      split
      · exact .fail _ _ rfl (Or.inl rfl)
      · exact .done b rfl
    | failed =>
      cases h
      exact .fail _ _ rfl (Or.inl rfl)
    | _ => exact hpush h
  | release result =>
    cases h
    exact .release result rfl
  | ended result => cases h

theorem jobTurn_importWrite {t : SourceTree β} (h : job.importWrite s t = some (s', job')) :
    JobTurn i s job s' job' := by
  obtain ⟨request, pc, source, got⟩ := job
  cases pc with
  | running =>
    simp only [Job.importWrite] at h
    split at h
    · cases h
    · cases h
      exact .write (some t.tree) .running rfl (fun _ => t.closed) rfl
  | _ => cases h

theorem jobTurn_importExit {failure : Option String}
    (h : job.importExit s failure = some (s', job')) : JobTurn i s job s' job' := by
  obtain ⟨request, pc, source, got⟩ := job
  cases pc with
  | running =>
    cases failure with
    | none =>
      cases h
      exact .built rfl
    | some detail =>
      cases h
      exact .fail _ _ rfl (Or.inl rfl)
  | _ => cases h

theorem jobTurn_raise (h : job.raise s = some (s', job')) : JobTurn i s job s' job' := by
  obtain ⟨request, pc, source, got⟩ := job
  cases pc with
  | acquire => cases h
  | release result => cases h
  | ended result => cases h
  | _ =>
    cases h
    exact .fail _ _ rfl (Or.inl rfl)

theorem moveJob_eq_some {w w' : BuildHost P} {f : Shared β → Job P → Option (Shared β × Job P)}
    (h : w.moveJob i f = some w') : ∃ job s' job', w.jobs[i]? = some job ∧
      f w.shared job = some (s', job') ∧ w' = ⟨s', w.jobs.set i job'⟩ := by
  obtain ⟨job, hi, hmap⟩ := Option.bind_eq_some_iff.mp h
  obtain ⟨⟨s', job'⟩, hf, rfl⟩ := Option.map_eq_some_iff.mp hmap
  exact ⟨job, s', job', hi, hf, rfl⟩

end YikvServer.Agent
