import YikvServer.Agent.ReleaseTurns

/-!
# Both hosts as pushes and pulls

The requests of both hosts in the terms of the artifact store: those of the build host as
pushes, those of the online host as pulls, and the version that is served as one pull more,
which has not exited. A turn of a push keeps every version whole.
-/
namespace YikvServer.Agent

open YikvServer.Theory YikvServer.Theory.FileTree YikvServer.Artifact

variable {β : Type} {P : Provider β} {settings : Settings} {s s' : Shared β} {i : Nat}
  {job job' : Job P} {choice : List Path} {b : String}

/-- A request to the online host as a run of `cmd_pull`. -/
def OnlineJob.pullRun (job : OnlineJob P) : PullRun P := ⟨job.pc.args, job.pc.pullPc, job.seen⟩

/-- The pushes and pulls of both hosts, and one that stands for the version served. -/
def Release.world (w : Release P) (pushes : List (PushRun P)) (active : PullRun P) : World P where
  store := w.build.shared.store
  dests := Function.update (fun _ => ∅) "releases" w.host.dest
  pushes := pushes
  pulls := active :: w.jobs.map OnlineJob.pullRun
  completed := w.completed
  tornBuilds := w.tornBuilds
  torn := Function.update (fun _ => []) "releases" w.torn

/-- The same after a turn of push `i`. -/
def Release.pushWorld (w : Release P) (pushes : List (PushRun P)) (active : PullRun P) (i : Nat)
    (run : PushRun P) (effect : Effect β) (pc' : PushPc P.up.St) : World P :=
  { w.world pushes active with
    store := effect.onStore w.build.shared.store
    pushes := pushes.set i { run with pc := pc' }
    completed := effect.onCompleted run.source.tree w.completed
    tornBuilds := effect.onTorn w.tornBuilds }

/-- The version that `active` links to is relied on as by a pull that has not exited. -/
structure Serving (dest : Dest β) (active : PullRun P) : Prop where
  dest_eq : active.args.dest = "releases"
  linked : ∀ b, dest.lookup "active" = some (.link b) → active.pc = .print b
  unlinked : (∀ b, dest.lookup "active" ≠ some (.link b)) → active.pc = .failed

theorem Serving.pc_cases {dest : Dest β} {active : PullRun P} (h : Serving dest active) :
    active.pc = .failed ∨ ∃ b, dest.lookup "active" = some (.link b) ∧ active.pc = .print b := by
  by_cases hlink : ∃ b, dest.lookup "active" = some (.link b)
  · obtain ⟨b, hb⟩ := hlink
    exact Or.inr ⟨b, hb, h.linked b hb⟩
  · exact Or.inl (h.unlinked fun b hb => hlink ⟨b, hb⟩)

theorem Serving.inert {dest : Dest β} {active : PullRun P} (h : Serving dest active)
    (b : String) : active.pc.reads b = false ∧ active.pc.changes b = false := by
  rcases h.pc_cases with hpc | ⟨r, -, hpc⟩
  · rw [hpc]
    exact ⟨rfl, rfl⟩
  · rw [hpc]
    exact ⟨rfl, rfl⟩

@[simp] theorem Release.world_dests (w : Release P) (pushes : List (PushRun P))
    (active : PullRun P) : (w.world pushes active).dests "releases" = w.host.dest := by
  simp only [world, Function.update_self]

@[simp] theorem Release.world_torn (w : Release P) (pushes : List (PushRun P))
    (active : PullRun P) : (w.world pushes active).torn "releases" = w.torn := by
  simp only [world, Function.update_self]

@[simp] theorem OnlineJob.pullRun_dest (online : OnlineJob P) :
    online.pullRun.args.dest = "releases" := by
  obtain ⟨request, pc, seen⟩ := online
  cases pc <;> rfl

section Build

variable {w : Release P} {pushes : List (PushRun P)} {active : PullRun P} {run : PushRun P}
  {pc pc' : PushPc P.up.St} {effect : Effect β} {src src' : Option (DirTree β)} {store : Store β}

/-- A request that keeps out of the way of both hosts is a push that does. -/
theorem careful_push (hserving : Serving w.host.dest active)
    (hchanges : ∀ b, (∀ job ∈ w.build.jobs, job.pc.changes b = false) →
      ∀ run ∈ pushes, run.pc.changes b = false)
    (hcareful : job.Careful w.build) (hapart : job.Apart w) (hpc : job.pc = .push run.pc)
    (hsource : ∀ b, run.pc = .scan b → job.reads w.build.shared = some run.source.tree) :
    run.Careful (w.world pushes active) := by
  obtain ⟨buildId, source, pc⟩ := run
  unfold Job.Careful at hcareful
  unfold Job.Apart at hapart
  rw [hpc] at hcareful hapart
  cases pc with
  | isDir b => exact hcareful
  | check b =>
    intro hb
    refine ⟨fun other hother => hchanges b (hcareful hb) other hother, fun pull hpull => ?_⟩
    rcases List.mem_cons.mp hpull with rfl | hpull
    · exact (hserving.inert b).1
    · obtain ⟨other, hother, rfl⟩ := List.mem_map.mp hpull
      exact hapart hb other hother
  | scan b =>
    rcases hapart with hlocal | hempty
    · exact Or.inl hlocal
    · refine hcareful.2.imp id fun hfree => ⟨?_, hfree.1, fun other hother => ?_⟩
      · rw [← hsource b rfl]
        exact hempty
      · exact hchanges b hfree.2 other hother
  | _ => trivial

/-- A push of the build host takes a turn: it copies the tree that it has begun with. -/
theorem push_intact (h : Intact (w.world pushes active)) (has : AsPushes w.build pushes)
    (hserving : Serving w.host.dest active) (hi : w.build.jobs[i]? = some job)
    (hcareful : job.Careful w.build) (hapart : job.Apart w) (hpc : job.pc = .push pc)
    (hturn : PushTurn P (job.reads w.build.shared) w.build.shared.store pc effect pc')
    (hreads : pc'.copies = true → ∃ t : SourceTree β, job.reads w.build.shared = some t.tree) :
    ∃ run : PushRun P, Intact (w.pushWorld pushes active i run effect pc') ∧
    (pc'.copies = true ∨ pc.copies = true → job.reads w.build.shared = some run.source.tree) := by
  obtain ⟨run, hrun, hrunPc, hsource⟩ := has.exists_run hi
  rw [hpc] at hrunPc hsource
  have hlt : i < pushes.length := (List.getElem?_eq_some_iff.mp hrun).1
  have hchanges := fun b (hfree : ∀ job ∈ w.build.jobs, job.pc.changes b = false)
    (run : PushRun P) (hmem : run ∈ pushes) => has.changes_eq hfree hmem
  have hstep : ∀ (pushes' : List (PushRun P)) (run : PushRun P), pushes'[i]? = some run →
      (∀ run, pushes'.set i run = pushes.set i run) → Intact (w.world pushes' active) →
      (∀ b, (∀ job ∈ w.build.jobs, job.pc.changes b = false) →
        ∀ run ∈ pushes', run.pc.changes b = false) → run.pc = pc →
      (pc'.copies = true → job.reads w.build.shared = some run.source.tree) →
      (∀ b, pc = .scan b → job.reads w.build.shared = some run.source.tree) →
      Intact (w.pushWorld pushes active i run effect pc') := by
    intro pushes' run hrun hset h hchanges hpcEq hcopies hscan
    subst hpcEq
    have hpush := h.push_step hrun (careful_push hserving hchanges hcareful hapart hpc hscan)
      (hturn.congr fun hc => (hcopies hc).symm)
    unfold Release.pushWorld
    rw [← hset]
    exact hpush
  -- a scan begins with the tree that is there
  have hscan : ∀ b, pc = .scan b → pc'.copies = true → ∃ run : PushRun P,
      Intact (w.pushWorld pushes active i run effect pc') ∧
      job.reads w.build.shared = some run.source.tree := by
    rintro b rfl hc
    obtain ⟨t, ht⟩ := hreads hc
    have hidle : Intact (w.world (pushes.set i ⟨run.buildId, t, .scan b⟩) active) :=
      h.of_pushes fun j other hj => by
        rcases Runs.getElem?_set_cases hj with ⟨rfl, rfl⟩ | ⟨-, hj⟩
        · exact Or.inr trivial
        · exact Or.inl hj
    refine ⟨⟨run.buildId, t, .scan b⟩, hstep _ _ (List.getElem?_set_self hlt)
      (fun run => List.set_set ..) hidle (fun b hfree other hmem => ?_) rfl (fun _ => ht)
      fun _ _ => ht, ht⟩
    rcases List.mem_or_eq_of_mem_set hmem with hmem | rfl
    · exact hchanges b hfree other hmem
    · rfl
  have hgoOn : pc.copies = true ∨ (pc'.copies = false ∧ ∀ b, pc ≠ .scan b) →
      ∃ run : PushRun P, Intact (w.pushWorld pushes active i run effect pc') ∧
      (pc'.copies = true ∨ pc.copies = true →
        job.reads w.build.shared = some run.source.tree) := by
    intro hcase
    have hcopies : pc'.copies = true ∨ pc.copies = true →
        job.reads w.build.shared = some run.source.tree := fun hc => by
      rcases hcase with hbefore | ⟨hafter, -⟩
      · exact hsource hbefore
      · refine hsource (hc.resolve_left fun h => ?_)
        exact Bool.false_ne_true (hafter.symm.trans h)
    refine ⟨run, hstep pushes run hrun (fun _ => rfl) h hchanges hrunPc
      (fun hc => hcopies (Or.inl hc)) (fun b hb => ?_), hcopies⟩
    rcases hcase with hbefore | ⟨-, hno⟩
    · rw [hb] at hbefore
      cases hbefore
    · exact absurd hb (hno b)
  cases hturn with
  | idle pc pc' hidle =>
    refine ⟨run, h.of_pushes fun j other hj => ?_, ?_⟩
    · rcases Runs.getElem?_set_cases hj with ⟨rfl, rfl⟩ | ⟨-, hj⟩
      · exact Or.inr hidle
      · exact Or.inl hj
    · have hno : (JobPc.push pc').copies = false := idle_not_copies hidle
      exact fun hc => hsource (hc.resolve_left fun h => Bool.false_ne_true (hno.symm.trans h))
  | scanLocal b order st hlocal hst =>
    obtain ⟨run, hintact, hsome⟩ := hscan b rfl rfl
    exact ⟨run, hintact, fun _ => hsome⟩
  | scanRemote b order st hremote hst =>
    obtain ⟨run, hintact, hsome⟩ := hscan b rfl rfl
    exact ⟨run, hintact, fun _ => hsome⟩
  | replace b hb => exact hgoOn (Or.inr ⟨rfl, fun b he => by cases he⟩)
  | remove b t =>
    refine hgoOn (Or.inr ⟨?_, fun b he => by cases he⟩)
    cases t <;> rfl
  | make b st hb => exact hgoOn (Or.inl rfl)
  | copy b st choice t st' hstep => exact hgoOn (Or.inl rfl)
  | copied b st hend => exact hgoOn (Or.inl rfl)

/-- A statement of the build host that leaves the store alone. -/
theorem quiet_intact (h : Intact (w.world pushes active)) (has : AsPushes w.build pushes)
    (hother : ∀ (j : Nat) (other : Job P), w.build.jobs[j]? = some other → j ≠ i →
      other.pc.copies = true → other.reads s' = other.reads w.build.shared)
    (hi : w.build.jobs[i]? = some job) (hstore : s'.store = w.build.shared.store)
    (hidle : job'.pc.pushPc.Idle) :
    ∃ pushes', AsPushes ⟨s', w.build.jobs.set i job'⟩ pushes' ∧
      Intact (Release.world { w with build := ⟨s', w.build.jobs.set i job'⟩ } pushes' active) := by
  obtain ⟨run, hrun, -⟩ := has.exists_run hi
  have hsource : job'.pc.copies = true → job'.reads s' = some run.source.tree := fun hc =>
    absurd ((idle_not_copies hidle).symm.trans hc) Bool.false_ne_true
  refine ⟨pushes.set i { run with pc := job'.pc.pushPc }, has.set ⟨rfl, hsource⟩ hother, ?_⟩
  unfold Release.world
  rw [hstore]
  refine h.of_pushes fun j other hj => ?_
  rcases Runs.getElem?_set_cases hj with ⟨rfl, rfl⟩ | ⟨-, hj⟩
  · exact Or.inr hidle
  · exact Or.inl hj

/-- A request arrives at the build host. -/
theorem AsPushes.start {w : BuildHost P} (h : AsPushes w pushes) (request : BuildRequest)
    (source : SourceTree β) :
    AsPushes { w with jobs := w.jobs ++ [⟨request, request.start, none, none⟩] }
      (pushes ++ [⟨none, source, .failed⟩]) where
  length := by
    rw [List.length_append, List.length_append, h.length]
    rfl
  runs i job run hi hrun := by
    rw [List.getElem?_append] at hi hrun
    rw [h.length] at hrun
    split at hi
    · next hlt =>
      rw [if_pos hlt] at hrun
      exact h.runs i job run hi hrun
    · next hlt =>
      rw [if_neg hlt] at hrun
      obtain rfl := List.mem_singleton.mp (List.mem_of_getElem? hi)
      obtain rfl := List.mem_singleton.mp (List.mem_of_getElem? hrun)
      cases request with
      | pushIndex buildId => exact ⟨rfl, fun hc => by cases hc⟩
      | _ => exact ⟨rfl, fun hc => by cases hc⟩

theorem JobTurn.finished_subset (h : JobTurn i s job s' job') : s.finished ⊆ s'.finished := by
  cases h with
  | built hpc => exact List.subset_append_right _ _
  | _ => exact List.Subset.refl _

theorem onCompleted_congr {source source' : DirTree β} {completed : List (String × DirTree β)}
    (h : ∀ b, effect = .complete b → source = source') :
    effect.onCompleted source completed = effect.onCompleted source' completed := by
  cases effect with
  | complete b => rw [h b rfl]
  | _ => rfl

end Build

end YikvServer.Agent
