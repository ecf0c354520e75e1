import YikvServer.Agent.ReleaseWorld

/-!
# What every move of both hosts keeps

While the requests keep out of each other's way, every move of theirs is one of pushes and
pulls that do, and `active` leads to a version that nobody changes.
-/
namespace YikvServer.Agent

open YikvServer.Theory YikvServer.Theory.FileTree YikvServer.Artifact

variable {β : Type} {P : Provider β} {settings : Settings} {s s' : Shared β} {i : Nat}
  {job job' : Job P} {choice : List Path} {b : String}

variable {w w' : Release P} {m : ReleaseMove β} {pushes : List (PushRun P)} {active : PullRun P}
  {online : OnlineJob P}

/-- A deployment switches `active`, and has done so before it links the table. -/
structure OnlineOk (dest : Dest β) (online : OnlineJob P) : Prop where
  switches : ∀ release args p, online.request = .release release → online.pc = .pull args p →
    args.switchActive = true
  switched : online.pc.Switched → ∃ b, dest.lookup "active" = some (.link b)

structure Release.Sound (w : Release P) : Prop where
  orderly : Orderly w.build
  completed : ∀ entry ∈ w.completed, entry.2 ∈ w.build.shared.finished
  intact : ∃ pushes active, AsPushes w.build pushes ∧ Serving w.host.dest active ∧
    Intact (w.world pushes active)
  jobs : ∀ online ∈ w.jobs, OnlineOk w.host.dest online
  served : w.host.served = none ∨
    w.host.served = some (.release "active") ∧ ∃ b, w.Active b

/-- A move of the build host that leaves the store alone. -/
theorem Release.Sound.quiet {s' : Shared β} {job' : Job P} (h : w.Sound)
    (hi : w.build.jobs[i]? = some job) (hcareful : job'.pc.busy = true → job.Careful w.build)
    (hturn : JobTurn i w.build.shared job s' job') (hstore : s'.store = w.build.shared.store)
    (hidle : job'.pc.pushPc.Idle) :
    Release.Sound { w with build := ⟨s', w.build.jobs.set i job'⟩ } where
  orderly := h.orderly.turn hi hcareful hturn
  completed entry hentry := hturn.finished_subset (h.completed entry hentry)
  intact := by
    obtain ⟨pushes, active, has, hserving, hintact⟩ := h.intact
    obtain ⟨pushes', has', hintact'⟩ := quiet_intact hintact has
      (fun j other hj hne hc => h.orderly.reads_frame hi hcareful hturn hj hne hc) hi hstore hidle
    exact ⟨pushes', active, has', hserving, hintact'⟩
  jobs := h.jobs
  served := h.served

theorem complete_turn {src : Option (DirTree β)} {store : Store β} {effect : Effect β}
    {pc pc' : PushPc P.up.St} (h : PushTurn P src store pc effect pc')
    (heffect : effect = .complete b) : pc.copies = true := by
  cases h with
  | copied b st hend => rfl
  | _ => cases heffect

/-- A statement of a push. -/
theorem Release.Sound.push {s' : Shared β} {job' : Job P} {pc pc' : PushPc P.up.St}
    {effect : Effect β} (h : w.Sound) (hi : w.build.jobs[i]? = some job)
    (hcareful : job.Careful w.build) (hapart : job.Apart w) (hpc : job.pc = .push pc)
    (hturn : JobTurn i w.build.shared job s' job')
    (hpush : PushTurn P (job.reads w.build.shared) w.build.shared.store pc effect pc')
    (hs' : s' = { w.build.shared with store := effect.onStore w.build.shared.store })
    (hjob' : job' = { job with
      pc := .push pc', got := copied w.build.shared.store job.got effect }) :
    Release.Sound { w with
      build := ⟨s', w.build.jobs.set i job'⟩
      completed := effect.onCompleted ((job.reads w.build.shared).getD ∅) w.completed
      tornBuilds := effect.onTorn w.tornBuilds } := by
  have horderly := h.orderly.turn hi (fun _ => hcareful) hturn
  have hlt : i < w.build.jobs.length := (List.getElem?_eq_some_iff.mp hi).1
  have hcopied : pc.copies = true → ∃ t ∈ w.build.shared.finished,
      job.reads w.build.shared = some t := fun hc =>
    h.orderly.reads_finished (h.orderly.jobs i job hi) (by rw [hpc]; exact hc)
  have hreads : pc'.copies = true → ∃ t : SourceTree β,
      job.reads w.build.shared = some t.tree := fun hc => by
    have hok := horderly.jobs i job' (List.getElem?_set_self hlt)
    obtain ⟨t, ht, hreads⟩ := horderly.reads_finished hok (by rw [hjob']; exact hc)
    subst hs' hjob'
    exact ⟨⟨t, horderly.finished t ht⟩, hreads⟩
  refine { orderly := horderly, completed := ?_, intact := ?_, jobs := h.jobs, served := h.served }
  · intro entry hentry
    refine hturn.finished_subset ?_
    cases heffect : effect with
    | complete b =>
      rw [heffect] at hentry
      rcases List.mem_cons.mp hentry with rfl | hentry
      · obtain ⟨t, ht, hreads⟩ := hcopied (complete_turn hpush heffect)
        rw [hreads]
        exact ht
      · exact h.completed entry hentry
    | _ =>
      rw [heffect] at hentry
      exact h.completed entry hentry
  · obtain ⟨pushes, active, has, hserving, hintact⟩ := h.intact
    obtain ⟨run, hintact, hsource⟩ :=
      push_intact hintact has hserving hi hcareful hapart hpc hpush hreads
    have hreadsEq : job'.reads s' = job.reads w.build.shared := by
      subst hs' hjob'
      rfl
    have hrun : AsPush s' job' { run with pc := pc' } := by
      refine ⟨by rw [hjob']; rfl, fun hc => ?_⟩
      rw [hjob'] at hc
      rw [hreadsEq]
      exact hsource (Or.inl hc)
    refine ⟨pushes.set i { run with pc := pc' }, active, has.set hrun fun j other hj hne hc =>
      h.orderly.reads_frame hi (fun _ => hcareful) hturn hj hne hc, hserving, ?_⟩
    have hcompleted : effect.onCompleted ((job.reads w.build.shared).getD ∅) w.completed =
        effect.onCompleted run.source.tree w.completed :=
      onCompleted_congr fun b hb => by
        rw [hsource (Or.inr (complete_turn hpush hb))]
        rfl
    rw [hcompleted]
    subst hs'
    exact hintact

/-- Every careful move of the build host. -/
theorem Release.Sound.build {m : BuildMove β} (h : w.Sound) (hcareful : w.Careful (.build m))
    (hstep : w.step settings (.build m) = some w') : w'.Sound := by
  obtain ⟨build, hbuild, rfl⟩ := Option.map_eq_some_iff.mp hstep
  obtain ⟨hcareful, hapart⟩ := hcareful
  cases m with
  | start request =>
    obtain rfl := Option.some.inj hbuild
    exact {
      orderly := h.orderly.start request
      completed := h.completed
      intact := by
        obtain ⟨pushes, active, has, hserving, hintact⟩ := h.intact
        refine ⟨_, active, has.start request ⟨∅, closed_flat fun q hq => by cases hq⟩, hserving,
          hintact.of_pushes fun j run hj => ?_⟩
        rcases Runs.getElem?_concat_cases hj with hj | rfl
        · exact Or.inl hj
        · exact Or.inr trivial
      jobs := h.jobs
      served := h.served }
  | turn i now files choice =>
    obtain ⟨job, s', job', hi, hturn, rfl⟩ :=
      moveJob_eq_some (f := fun s job => job.turn settings s i now files choice) hbuild
    simp only [Release.record, hi]
    rcases turn_cases hturn with ⟨pc, effect, pc', hpc, heffect, hpush, hs', hjob'⟩ |
      ⟨heffect, hstore, hidle⟩
    · rw [heffect]
      exact h.push hi (hcareful job hi) (hapart job hi) hpc (jobTurn hturn) (pushTurn hpush) hs'
        hjob'
    · rw [heffect]
      exact h.quiet hi (fun _ => hcareful job hi) (jobTurn hturn) hstore hidle
  | importWrite i t =>
    obtain ⟨job, s', job', hi, hturn, rfl⟩ :=
      moveJob_eq_some (f := fun s job => job.importWrite s t) hbuild
    have hjob := jobTurn_importWrite hturn (i := i)
    obtain ⟨hstore, hidle⟩ := hjob.leaves (Or.inl fun pc hpc => by
      obtain ⟨request, p, source, got⟩ := job
      obtain rfl : p = .push pc := hpc
      cases hturn)
    exact h.quiet hi (fun _ => careful_importWrite hturn) hjob hstore hidle
  | importExit i failure =>
    obtain ⟨job, s', job', hi, hturn, rfl⟩ :=
      moveJob_eq_some (f := fun s job => job.importExit s failure) hbuild
    have hjob := jobTurn_importExit hturn (i := i)
    obtain ⟨hstore, hidle⟩ := hjob.leaves (Or.inl fun pc hpc => by
      obtain ⟨request, p, source, got⟩ := job
      obtain rfl : p = .push pc := hpc
      cases hturn)
    exact h.quiet hi (fun _ => careful_importExit hturn) hjob hstore hidle
  | raise i =>
    obtain ⟨job, s', job', hi, hturn, rfl⟩ :=
      moveJob_eq_some (f := fun s job => job.raise s) hbuild
    have hbusy := raise_not_busy hturn
    have hjob := jobTurn_raise hturn (i := i)
    obtain ⟨hstore, hidle⟩ := hjob.leaves (Or.inr fun pc hpc => by
      rw [hpc] at hbusy
      cases hbusy)
    exact h.quiet hi (fun hb => absurd (hbusy.symm.trans hb) Bool.false_ne_true) hjob hstore hidle

/-- What a request to the online host may take for granted is what a pull may. -/
theorem careful_pull (hchanges : ∀ b, (∀ job ∈ w.build.jobs, job.pc.changes b = false) →
      ∀ run ∈ pushes, run.pc.changes b = false) (hserving : Serving w.host.dest active)
    (hcareful : online.Careful w) : online.pullRun.Careful (w.world pushes active) := by
  have hsettled : ∀ b, w.Settled b → ∀ other ∈ (w.world pushes active).pulls,
      other.pc.changes b = false := by
    rintro b ⟨-, hfree⟩ other hother
    rcases List.mem_cons.mp hother with rfl | hother
    · exact (hserving.inert b).2
    · obtain ⟨job, hjob, rfl⟩ := List.mem_map.mp hother
      exact hfree job hjob
  have hfree : ∀ b, ¬ w.Active b ∧ w.Free b → ∀ other ∈ (w.world pushes active).pulls,
      other.pc.changes b = false ∧ other.pc.relies b = false := by
    rintro b ⟨hno, hfree⟩ other hother
    rcases List.mem_cons.mp hother with rfl | hother
    · refine ⟨(hserving.inert b).2, ?_⟩
      rcases hserving.pc_cases with hpc | ⟨r, hr, hpc⟩
      · rw [hpc]
        rfl
      · rw [hpc]
        refine decide_eq_false ?_
        rintro rfl
        exact hno hr
    · obtain ⟨job, hjob, rfl⟩ := List.mem_map.mp hother
      exact hfree job hjob
  obtain ⟨request, pc, seen⟩ := online
  cases pc with
  | pull args p =>
    cases p with
    | skip b =>
      refine ⟨hcareful.1, fun hdir hforce => ?_⟩
      simp only [OnlineJob.pullRun_dest, Release.world_dests, Release.world_torn] at hdir ⊢
      have hok := hcareful.2 hdir hforce
      exact ⟨hok.1, fun other hother _ => hsettled b hok other hother⟩
    | clear b =>
      intro hdir other hother _
      simp only [OnlineJob.pullRun_dest, Release.world_dests] at hdir
      exact hfree b (hcareful hdir) other hother
    | scan b => exact ⟨hcareful.1, hcareful.2.1, hchanges b hcareful.2.2⟩
    | prune b =>
      intro victim hvictim other hother _
      simp only [OnlineJob.pullRun_dest, Release.world_dests] at hvictim
      exact hfree victim (hcareful victim hvictim) other hother
    | _ => trivial
  | _ => trivial

/-- One request of the online host moves. -/
theorem Release.world_set (w : Release P) (pushes : List (PushRun P)) (active : PullRun P) (i : Nat)
    (online : OnlineJob P) : Release.world { w with jobs := w.jobs.set i online } pushes active =
      { w.world pushes active with
        pulls := (w.world pushes active).pulls.set (i + 1) online.pullRun } := by
  simp only [world, List.map_set, List.set_cons_succ]

theorem Release.world_pulls (w : Release P) (pushes : List (PushRun P)) (active : PullRun P)
    (hi : w.jobs[i]? = some online) :
    (w.world pushes active).pulls[i + 1]? = some online.pullRun := by
  simp only [world, List.getElem?_cons_succ, List.getElem?_map, hi, Option.map_some]

/-- A version that `active` has just been switched to is relied on from now on. -/
theorem Release.Sound.serving (h : Intact (w.world pushes active))
    (hi : w.jobs[i]? = some online) (hpc : online.pc.pullPc = .print b) (hactive : w.Active b) :
    ∃ active', Serving w.host.dest active' ∧ Intact (w.world pushes active') := by
  have hpull := w.world_pulls pushes active hi
  have hrun : online.pullRun.pc = .print b := hpc
  refine ⟨online.pullRun, ⟨online.pullRun_dest, fun r hr => ?_,
    fun hno => absurd hactive (hno b)⟩, ?_⟩
  · rw [hactive] at hr
    cases hr
    exact hrun
  · show Intact { w.world pushes active with
      pulls := (w.world pushes active).pulls.set 0 online.pullRun }
    refine h.settle rfl (h.seen _ _ hpull) (h.pulls _ _ hpull) (fun r => ?_) (fun r => ?_)
      fun r hr j other hj _ hd => ?_
    · rw [hrun]
      rfl
    · rw [hrun]
      rfl
    · refine Bool.eq_false_iff.mpr fun hc => ?_
      have hno := h.relied j (i + 1) other online.pullRun r hj hpull hd.symm hc
      exact Bool.false_ne_true (hno.symm.trans hr)

theorem OnlineOk.frame {dest dest' : Dest β} (h : OnlineOk dest online)
    (hactive : (∃ b, dest.lookup "active" = some (.link b)) →
      ∃ b, dest'.lookup "active" = some (.link b)) : OnlineOk dest' online :=
  ⟨h.switches, fun hswitched => hactive (h.switched hswitched)⟩

/-- A request ends. -/
theorem Release.Sound.ends (h : w.Sound) (hi : w.jobs[i]? = some online)
    {pc : RequestPc P.down.St} {seen : List (String × DirTree β)}
    (hseen : ∀ entry ∈ seen, entry ∈ w.completed)
    (hpc : (∃ b, pc = .failed b) ∨ ∃ b, pc = .answered b) :
    Release.Sound { w with jobs := w.jobs.set i { online with pc, seen } } where
  orderly := h.orderly
  completed := h.completed
  served := h.served
  jobs other hother := by
    rcases List.mem_or_eq_of_mem_set hother with hother | rfl
    · exact h.jobs other hother
    · refine ⟨fun release args p _ he => ?_, fun hswitched => ?_⟩
      · rcases hpc with ⟨b, rfl⟩ | ⟨b, rfl⟩ <;> cases he
      · rcases hpc with ⟨b, rfl⟩ | ⟨b, rfl⟩ <;> cases hswitched
  intact := by
    obtain ⟨pushes, active, has, hserving, hintact⟩ := h.intact
    refine ⟨pushes, active, has, hserving, ?_⟩
    rw [w.world_set]
    refine hintact.settle (w.world_pulls pushes active hi) hseen ?_ ?_ ?_ ?_
    all_goals rcases hpc with ⟨b, rfl⟩ | ⟨b, rfl⟩
    · trivial
    · trivial
    · exact fun r => rfl
    · exact fun r => rfl
    · exact fun r => rfl
    · exact fun r => rfl
    · exact fun r hr => by cases hr
    · exact fun r hr => by cases hr

/-- A request goes on for the build that is there. -/
theorem Release.Sound.stay (h : w.Sound) (hi : w.jobs[i]? = some online)
    {pc : RequestPc P.down.St} {served : Option ServerTable} (hpc : online.pc.pullPc = .print b)
    (hpc' : pc.pullPc = .print b)
    (hserved : served = w.host.served ∨ served = none ∨
      served = some (.release "active") ∧ online.pc.Switched)
    (hkeeps : ∀ args p, pc = .pull args p → ∃ p', online.pc = .pull args p')
    (hswitched : pc.Switched → online.pc.Switched ∨
      ∃ release args r, online.request = .release release ∧ online.pc = .pull args (.done r)) :
    Release.Sound { w with
      host := { w.host with served }
      jobs := w.jobs.set i { online with pc } } := by
  have hok := h.jobs online (List.mem_of_getElem? hi)
  refine ⟨h.orderly, h.completed, ?_, ?_, ?_⟩
  · obtain ⟨pushes, active, has, hserving, hintact⟩ := h.intact
    refine ⟨pushes, active, has, hserving, ?_⟩
    have hpull := w.world_pulls pushes active hi
    have hrun : online.pullRun.pc = .print b := hpc
    have hrun' : (OnlineJob.pullRun { online with pc }).pc = .print b := hpc'
    show Intact (Release.world { w with jobs := w.jobs.set i { online with pc } } pushes active)
    rw [w.world_set]
    have hpullOk := hintact.pulls _ _ hpull
    rw [hrun, online.pullRun_dest] at hpullOk
    have hseen : ∀ entry ∈ online.seen, entry ∈ w.completed := hintact.seen _ _ hpull
    refine hintact.settle hpull hseen ?_ (fun r => ?_) (fun r => ?_)
      fun r hr j other hj hne hd => ?_
    · rw [hrun', OnlineJob.pullRun_dest]
      exact hpullOk
    · rw [hrun']
      rfl
    · rw [hrun']
      rfl
    · refine Bool.eq_false_iff.mpr fun hc => ?_
      rw [OnlineJob.pullRun_dest] at hd
      have hno := hintact.relied j (i + 1) other online.pullRun r hj hpull
        (online.pullRun_dest.trans hd.symm) hc
      rw [hrun] at hno
      rw [hrun'] at hr
      exact Bool.false_ne_true (hno.symm.trans hr)
  · intro other hother
    rcases List.mem_or_eq_of_mem_set hother with hother | rfl
    · exact h.jobs other hother
    · refine ⟨fun release args p hrequest he => ?_, fun hs => ?_⟩
      · obtain ⟨p', hp'⟩ := hkeeps args p he
        exact hok.switches release args p' hrequest hp'
      · rcases hswitched hs with hs | ⟨release, args, r, hrequest, hdone⟩
        · exact hok.switched hs
        · refine hok.switched ?_
          have hargs := hok.switches release args _ hrequest hdone
          rw [hdone]
          exact hargs
  · rcases hserved with rfl | rfl | ⟨rfl, hs⟩
    · exact h.served
    · exact Or.inl rfl
    · exact Or.inr ⟨rfl, hok.switched hs⟩

theorem isDirectory_switchId {dest : Dest β} {buildId : Option String}
    (h : Request.switchId dest buildId = some b) : isDirectory dest b = true := by
  unfold Request.switchId at h
  split at h
  · split at h
    · next hdir =>
      cases h
      exact hdir
    · cases h
  · have hmem := List.max?_mem h
    exact (of_decide_eq_true (List.mem_filter.mp hmem).2).1

/-- A switch takes up a version. -/
theorem Release.Sound.adopt (h : w.Sound) (hi : w.jobs[i]? = some online)
    {buildId : Option String} (hpc : online.pc = .switch buildId)
    (hid : Request.switchId w.host.dest buildId = some b) (hcareful : online.Careful w) :
    Release.Sound { w with
      jobs := w.jobs.set i { online with pc := .link b .clear, seen := w.completed } } := by
  unfold OnlineJob.Careful at hcareful
  rw [hpc] at hcareful
  obtain ⟨⟨-, hproper⟩, hsettled⟩ := hcareful.2 b hid
  refine ⟨h.orderly, h.completed, ?_, ?_, h.served⟩
  · obtain ⟨pushes, active, has, hserving, hintact⟩ := h.intact
    refine ⟨pushes, active, has, hserving, ?_⟩
    rw [w.world_set]
    have hlinks := hintact.links "releases"
    have hkept := hintact.kept "releases" b
    rw [w.world_dests] at hlinks hkept
    rw [w.world_torn] at hkept
    obtain ⟨u, hu⟩ := Option.isSome_iff_exists.mp
      (treeAt_isSome_of_isDirectory hlinks hproper (isDirectory_switchId hid))
    obtain ⟨t, ht, hsame⟩ := hkept u hu hsettled.1
    refine hintact.settle (w.world_pulls pushes active hi) (fun entry hentry => hentry)
      ⟨hproper, t, ht, u, ?_, hsame⟩ (fun r => rfl) (fun r => rfl) fun r hr j other hj hne _ => ?_
    · rw [OnlineJob.pullRun_dest, w.world_dests]
      exact hu
    · obtain rfl : b = r := of_decide_eq_true hr
      rcases List.mem_cons.mp (List.mem_of_getElem? hj) with rfl | hother
      · exact (hserving.inert b).2
      · obtain ⟨job, hjob, rfl⟩ := List.mem_map.mp hother
        exact hsettled.2 job hjob
  · intro other hother
    rcases List.mem_or_eq_of_mem_set hother with hother | rfl
    · exact h.jobs other hother
    · exact ⟨(fun release args p _ he => by cases he), fun hs => by cases hs⟩

/-- The link that becomes `active` is the one that the request has made. -/
theorem careful_replace (hcareful : online.Careful w)
    (hpc : online.pc.pullPc = .link b .replace) :
    w.host.dest.lookup "active.tmp" = some (.link b) := by
  obtain ⟨request, pc, seen⟩ := online
  cases pc with
  | pull args p =>
    cases p with
    | link r lpc =>
      cases hpc
      exact hcareful
    | _ => cases hpc
  | link r lpc =>
    cases hpc
    exact hcareful
  | _ => cases hpc

theorem takesUp_of_print {St : Type} {pc : RequestPc St} (h : pc.pullPc = .print b) :
    pc.takesUp = false := by
  cases pc with
  | switch buildId => cases h
  | pull args p =>
    show (RequestPc.pull args p).pullPc.takesUp = false
    rw [h]
    rfl
  | _ => rfl

theorem Release.Sound.seen (h : w.Sound) (hi : w.jobs[i]? = some online) :
    ∀ entry ∈ online.seen, entry ∈ w.completed := by
  obtain ⟨pushes, active, -, -, hintact⟩ := h.intact
  exact hintact.seen _ _ (w.world_pulls pushes active hi)

/-- A turn of a pull, or of a switch. -/
theorem Release.Sound.pull (hP : P.Documented) (h : w.Sound) (hi : w.jobs[i]? = some online)
    {pc : RequestPc P.down.St} {effect : Effect β} (hcareful : online.Careful w)
    (hargs : pc.args = online.pc.args)
    (hkeeps : ∀ args p, pc = .pull args p → ∃ p', online.pc = .pull args p')
    (hswitched : pc.Switched → ∃ b, online.pc.pullPc = .link b .replace)
    (hturn : PullTurn P online.pc.args w.build.shared.store w.host.dest online.pc.pullPc effect
      pc.pullPc) :
    Release.Sound { w with
      host := { w.host with dest := effect.onDest w.host.dest }
      jobs := w.jobs.set i { online with
        pc, seen := if online.pc.pullPc.takesUp then w.completed else online.seen }
      torn := effect.onTorn w.torn } := by
  have hok := h.jobs online (List.mem_of_getElem? hi)
  obtain ⟨pushes, active, has, hserving, hintact⟩ := h.intact
  have hpull := w.world_pulls pushes active hi
  have hpullOk := hintact.pulls _ _ hpull
  rw [online.pullRun_dest, w.world_dests, w.world_torn] at hpullOk
  have hnext := hintact.pull_step hP hpull
    (careful_pull (fun b hfree run hrun => has.changes_eq hfree hrun) hserving hcareful)
    (by rw [online.pullRun_dest, w.world_dests]; exact hturn)
  have hworld : Intact (Release.world { w with
      host := { w.host with dest := effect.onDest w.host.dest }
      jobs := w.jobs.set i { online with
        pc, seen := if online.pc.pullPc.takesUp then w.completed else online.seen }
      torn := effect.onTorn w.torn } pushes active) := by
    simp only [online.pullRun_dest, w.world_dests, w.world_torn] at hnext
    simp only [Release.world, Function.update_idem, List.set_cons_succ] at hnext
    simp only [Release.world, List.map_set, OnlineJob.pullRun, hargs]
    exact hnext
  -- where `active` leads after the turn
  have hafter : (∃ active', Serving (effect.onDest w.host.dest) active' ∧
      Intact (Release.world { w with
        host := { w.host with dest := effect.onDest w.host.dest }
        jobs := w.jobs.set i { online with
          pc, seen := if online.pc.pullPc.takesUp then w.completed else online.seen }
        torn := effect.onTorn w.torn } pushes active')) ∧
      ((∃ b, w.Active b) → ∃ b, (effect.onDest w.host.dest).lookup "active" = some (.link b)) ∧
      ((∃ b, online.pc.pullPc = .link b .replace) →
        ∃ b, (effect.onDest w.host.dest).lookup "active" = some (.link b)) := by
    rcases active_turn hpullOk hturn with ⟨hno, hsame⟩ | ⟨b, hp, hp', rfl⟩
    · refine ⟨⟨active, ⟨hserving.dest_eq, fun b hb => hserving.linked b ((hsame b).mp hb),
        fun hun => hserving.unlinked fun b hb => hun b ((hsame b).mpr hb)⟩, hworld⟩, ?_, ?_⟩
      · rintro ⟨b, hb⟩
        exact ⟨b, (hsame b).mpr hb⟩
      · rintro ⟨b, hb⟩
        exact absurd hb (hno b)
    · have hactive : ((Effect.replace "active.tmp" "active").onDest w.host.dest).lookup "active" =
          some (.link b) := by
        simp only [Effect.onDest, careful_replace hcareful hp]
        exact AList.lookup_insert _
      have hlt : i < w.jobs.length := (List.getElem?_eq_some_iff.mp hi).1
      exact ⟨Release.Sound.serving hworld (List.getElem?_set_self hlt) hp' hactive,
        fun _ => ⟨b, hactive⟩, fun _ => ⟨b, hactive⟩⟩
  obtain ⟨⟨active', hserving', hintact'⟩, hstays, hreplaces⟩ := hafter
  refine ⟨h.orderly, h.completed, ⟨pushes, active', has, hserving', hintact'⟩, ?_, ?_⟩
  · intro other hother
    rcases List.mem_or_eq_of_mem_set hother with hother | rfl
    · exact (h.jobs other hother).frame hstays
    · refine ⟨fun release args p hrequest he => ?_, fun hs => hreplaces (hswitched hs)⟩
      obtain ⟨p', hp'⟩ := hkeeps args p he
      exact hok.switches release args p' hrequest hp'
  · exact h.served.imp id fun hserved => ⟨hserved.1, hstays hserved.2⟩

/-- Every careful move of the online host. -/
theorem Release.Sound.turn (hP : P.Documented) (h : w.Sound) {config : ServerConfig}
    (hcareful : w.Careful (.online i config choice))
    (hstep : w.step settings (.online i config choice) = some w') : w'.Sound := by
  obtain ⟨online, hi, hstep⟩ := Option.bind_eq_some_iff.mp hstep
  obtain ⟨⟨host, pc⟩, hturn, rfl⟩ := Option.map_eq_some_iff.mp hstep
  obtain ⟨effect, hturn, htorn⟩ := onlineTurn hturn
  have hcareful := hcareful online hi
  simp only [htorn]
  cases hturn with
  | pull effect pc hargs htakes hkeeps hswitched hturn =>
    rw [htakes]
    exact h.pull hP hi hcareful hargs hkeeps hswitched hturn
  | stay b served pc hpc hpc' hserved hkeeps hswitched =>
    rw [takesUp_of_print hpc]
    exact h.stay hi hpc hpc' hserved hkeeps hswitched
  | ends pc hpc' =>
    refine h.ends hi (fun entry hentry => ?_) hpc'
    split at hentry
    · exact hentry
    · exact h.seen hi entry hentry
  | adopt buildId b hpc hid =>
    rw [hpc]
    exact h.adopt hi hpc hid hcareful

/-- A request arrives at the online host. -/
theorem Release.Sound.arrive (h : w.Sound) (request : OnlineRequest) :
    Release.Sound { w with jobs := w.jobs ++ [⟨request, request.start, []⟩] } where
  orderly := h.orderly
  completed := h.completed
  served := h.served
  jobs other hother := by
    rcases List.mem_append.mp hother with hother | hother
    · exact h.jobs other hother
    · obtain rfl := List.mem_singleton.mp hother
      cases request with
      | pullIndex buildId forceRefresh maxLocalVersions switchActive =>
        exact ⟨(fun release args p he => by cases he), fun hs => by cases hs⟩
      | release request =>
        cases request with
        | deployIndex buildId forceRefresh maxLocalVersions =>
          refine ⟨fun release args p _ he => ?_, fun hs => by cases hs⟩
          cases he
          rfl
        | switchReloadIndex buildId =>
          exact ⟨(fun release args p _ he => by cases he), fun hs => by cases hs⟩
  intact := by
    obtain ⟨pushes, active, has, hserving, hintact⟩ := h.intact
    refine ⟨pushes, active, has, hserving, ?_⟩
    have hpulls : ∀ online : OnlineJob P, active :: (w.jobs ++ [online]).map OnlineJob.pullRun =
        (w.world pushes active).pulls ++ [online.pullRun] := fun online => by
      simp only [world, List.map_append, List.map_cons, List.map_nil, List.cons_append]
    unfold Release.world
    rw [hpulls]
    refine hintact.of_pulls fun j run hj => ?_
    rcases Runs.getElem?_concat_cases hj with hj | rfl
    · exact Or.inl hj
    · refine Or.inr ⟨Or.inl ?_, fun entry hentry => by cases hentry⟩
      cases request with
      | pullIndex buildId forceRefresh maxLocalVersions switchActive => rfl
      | release request => cases request <;> rfl

/-- Every careful move. -/
theorem Release.Sound.step (hP : P.Documented) (h : w.Sound) (hcareful : w.Careful m)
    (hstep : w.step settings m = some w') : w'.Sound := by
  cases m with
  | build m => exact h.build hcareful hstep
  | arrive request =>
    obtain rfl := Option.some.inj hstep
    exact h.arrive request
  | online i config choice => exact h.turn hP hcareful hstep
  | cut i =>
    obtain ⟨online, hi, rfl⟩ := Option.map_eq_some_iff.mp hstep
    exact h.ends hi (h.seen hi) (Or.inl ⟨none, rfl⟩)

/-- New hosts. -/
theorem Release.Sound.init (found : FoundIndex β) : (Release.init found : Release P).Sound where
  orderly := .init
  completed entry hentry := by cases hentry
  served := Or.inl rfl
  jobs online hmem := by cases hmem
  intact := by
    have hdests : Function.update (fun _ => ∅) "releases" ∅ = fun _ : String => (∅ : Dest β) :=
      Function.update_eq_self "releases" _
    have htorn : Function.update (fun _ => []) "releases" [] = fun _ : String => ([] : List String) :=
      Function.update_eq_self "releases" _
    refine ⟨[], ⟨⟨none, "releases", 0, false, true⟩, .failed, []⟩,
      ⟨rfl, fun i job run hi => by cases hi⟩, ⟨rfl, (fun b hb => by cases hb), fun _ => rfl⟩, ?_⟩
    simp only [Release.world, Release.init, BuildHost.init, hdests, htorn]
    refine (Intact.init (P := P)).of_pulls fun j run hj => ?_
    obtain rfl := List.mem_singleton.mp (List.mem_of_getElem? hj)
    exact Or.inr ⟨Or.inr rfl, fun entry hentry => by cases hentry⟩

end YikvServer.Agent
