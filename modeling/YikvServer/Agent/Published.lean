import YikvServer.Agent.Orderly

/-!
# A published artifact is the output of one import

While a build and a `/pushIndex` keep out of each other's way, a push that answers `ok` has
brought into the store a tree that a finished import left. `_import_lock` does that for
`/publishIndex`; `/pushIndex` does not take it.
-/
namespace YikvServer.Agent

open YikvServer.Theory YikvServer.Theory.FileTree YikvServer.Artifact

variable {β : Type} {P : Provider β} {settings : Settings} {s' : Shared β} {i j : Nat}
  {job job' other : Job P} {w w' : BuildHost P} {m : BuildMove β}

theorem conclude_not_busy {St : Type} {request : BuildRequest}
    {result : Except HttpError (Option String)} :
    (request.conclude result : JobPc St).busy = false := by
  unfold BuildRequest.conclude
  split
  · rfl
  · rfl

theorem busy_of_builds {St : Type} {pc : JobPc St} (h : pc.builds = true) : pc.busy = true := by
  cases pc <;> first | rfl | cases h

theorem changes_of_early {St : Type} {pc : JobPc St} {b : String} (h : pc.early = true) :
    pc.changes b ≠ true := by
  cases pc <;> first | exact Bool.false_ne_true | cases h

theorem changes_conclude {St : Type} {request : BuildRequest} {b : String}
    {result : Except HttpError (Option String)} :
    (request.conclude result : JobPc St).changes b ≠ true := by
  unfold BuildRequest.conclude
  split
  · exact Bool.false_ne_true
  · exact Bool.false_ne_true

theorem raise_not_busy {s : Shared β} (h : job.raise s = some (s', job')) :
    job'.pc.busy = false := by
  obtain ⟨request, pc, source, got⟩ := job
  cases pc with
  | acquire => cases h
  | release result => cases h
  | ended result => cases h
  | _ =>
    cases h
    exact conclude_not_busy

/-- No condition is on an import. -/
theorem careful_running (h : job.pc = .running) : job.Careful w := by
  unfold Job.Careful
  rw [h]
  trivial

theorem careful_importWrite {s : Shared β} {t : SourceTree β}
    (h : job.importWrite s t = some (s', job')) : job.Careful w := by
  obtain ⟨request, pc, source, got⟩ := job
  cases pc with
  | running => exact careful_running rfl
  | _ => cases h

theorem careful_importExit {s : Shared β} {failure : Option String}
    (h : job.importExit s failure = some (s', job')) : job.Careful w := by
  obtain ⟨request, pc, source, got⟩ := job
  cases pc with
  | running => exact careful_running rfl
  | _ => cases h

/-- A copy that ends has succeeded. -/
theorem outcome_complete {src : Option (DirTree β)} {store : Store β} {b r : String}
    {st : P.up.St} {pc' : PushPc P.up.St}
    (h : PushTurn P src store (.copy b st) (.complete r) pc') : P.up.outcome st = some true := by
  cases h with
  | copied b st hend => exact hend

namespace Orderly

/-- What a push reads has been left by a finished import. -/
theorem reads_finished (h : Orderly w) (hok : JobOk w.shared i job) (hc : job.pc.copies = true) :
    ∃ t ∈ w.shared.finished, job.reads w.shared = some t := by
  unfold Job.reads
  cases hsource : job.source with
  | some t => exact ⟨t, hok.source t hsource, rfl⟩
  | none => exact h.whole (hok.copying hc hsource)

/-- Another request after a turn. -/
theorem others (h : Orderly w) (hi : w.jobs[i]? = some job)
    (hcareful : job'.pc.busy = true → job.Careful w) (hturn : JobTurn i w.shared job s' job')
    (hj : w.jobs[j]? = some other) (hne : j ≠ i) : JobOk s' j other := by
  have hok := h.jobs j other hj
  have hjob := h.jobs i job hi
  cases hturn with
  | acquire hpc hlock =>
    have hout : other.inside = true → False := fun hin => by
      have hheld := hok.lock hin
      rw [hlock] at hheld
      cases hheld
    exact { hok with lock := fun hin => (hout hin).elim }
  | check pc hpc hnext hbuilds => exact hok
  | remove body index pc hpc hindex hnext =>
    have hout := h.inside_unique hi hj hne (inside_of_early (by rw [hpc]; rfl))
    refine hok.outside hout (fun t ht => ht) rfl fun hc hsource => ?_
    have hguard := hcareful (busy_of_builds hnext)
    unfold Job.Careful at hguard
    rw [hpc] at hguard
    cases hlocks : other.request.locks with
    | false =>
      have hno := hguard other (List.mem_of_getElem? hj) hlocks hsource
      exact Bool.false_ne_true (hno.symm.trans hc)
    | true =>
      obtain ⟨p, hp⟩ := push_of_copies hc
      have hin := inside_of_busy (by rw [hp]; rfl) hlocks
      exact Bool.false_ne_true (hout.symm.trans hin)
  | write t pc hpc ht hnext =>
    have hout := h.inside_unique hi hj hne (inside_of_early (early_of_builds hpc))
    exact hok.outside hout (fun t ht => ht) rfl fun hc =>
      h.not_copies hj (hjob.building hpc) hc
  | built hpc =>
    have hbuilds : job.pc.builds = true := by rw [hpc]; rfl
    have hout := h.inside_unique hi hj hne (inside_of_early (early_of_builds hbuilds))
    exact hok.outside hout (fun t ht => List.mem_append_right _ ht) rfl fun hc =>
      h.not_copies hj (hjob.building hbuilds) hc
  | isDir hpc hsome => exact hok
  | push pc effect pc' hpc hturn hpushed =>
    have halone : ∀ b, effect.writes b → other.pc.changes b = false := fun b hb =>
      h.alone hi (hcareful rfl) hpc hturn (Or.inl hb) hj hne
    have hpush : ∀ p, other.pc = .push p →
        PushHold P (other.reads w.shared) (effect.onStore w.shared.store) p := fun p hp => by
      refine (hok.push p hp).frame (fun _ => rfl) fun b hb => Effect.lookup_onStore fun hw => ?_
      have hno := halone b hw
      rw [hp] at hno
      exact Bool.false_ne_true (hno.symm.trans hb)
    exact { hok with push := hpush }
  | done b hpc => exact hok
  | fail e source hpc hsource => exact hok
  | release result hpc =>
    have hin : job.inside = true := by
      unfold Job.inside
      rw [hpc]
    have hout := h.inside_unique hi hj hne hin
    exact { hok with lock := fun hother => absurd (hout.symm.trans hother) Bool.false_ne_true }

/-- The request itself after its turn. -/
theorem own (h : Orderly w) (hi : w.jobs[i]? = some job)
    (hcareful : job'.pc.busy = true → job.Careful w) (hturn : JobTurn i w.shared job s' job') :
    JobOk s' i job' := by
  have hok := h.jobs i job hi
  cases hturn with
  | acquire hpc hlock =>
    have hpc' : (job.request.enter : JobPc P.up.St) = .isDir → job.request.locks = false := by
      cases job.request with
      | pushIndex buildId => exact fun _ => rfl
      | _ => exact fun he => by cases he
    have henter : ∀ pc : JobPc P.up.St, pc = job.request.enter →
        pc.builds = false ∧ pc.delivered = false ∧ ∀ p, pc ≠ .push p := by
      rintro pc rfl
      cases job.request <;> exact ⟨rfl, rfl, fun p hp => by cases hp⟩
    obtain ⟨hbuilds, hdel, hpush⟩ := henter _ rfl
    exact .plain (fun _ => rfl) hok.source
      (fun hb => absurd (hbuilds.symm.trans hb) Bool.false_ne_true) hpush
      (fun hlocks he => absurd ((hpc' he).symm.trans hlocks) Bool.false_ne_true)
      fun hd => absurd (hdel.symm.trans hd) Bool.false_ne_true
  | check pc hpc hnext hbuilds =>
    exact .of_early (hok.lock (inside_of_early hpc)) hok.source hnext fun hb =>
      hok.building (hbuilds hb)
  | remove body index pc hpc hindex hnext =>
    exact .of_early (hok.lock (inside_of_early (by rw [hpc]; rfl))) hok.source
      (early_of_builds hnext) fun _ => rfl
  | write t pc hpc ht hnext =>
    exact .of_early (hok.lock (inside_of_early (early_of_builds hpc))) hok.source
      (early_of_builds hnext) fun _ => hok.building hpc
  | built hpc =>
    have hafter : ∀ pc : JobPc P.up.St, pc = job.request.afterBuild →
        pc.builds = false ∧ pc.delivered = false ∧ ∀ p, pc ≠ .push p := by
      rintro pc rfl
      cases job.request <;> exact ⟨rfl, rfl, fun p hp => by cases hp⟩
    obtain ⟨hbuilds, hdel, hpush⟩ := hafter _ rfl
    exact .plain (fun _ => hok.lock (inside_of_early (by rw [hpc]; rfl)))
      (fun t ht => List.mem_append_right _ (hok.source t ht))
      (fun hb => absurd (hbuilds.symm.trans hb) Bool.false_ne_true) hpush
      (fun _ _ hsome => hsome)
      fun hd => absurd (hdel.symm.trans hd) Bool.false_ne_true
  | isDir hpc hsome =>
    have hbusy : job.pc.busy = true := by
      rw [hpc]
      rfl
    exact .of_push rfl (fun hlocks => hok.lock (inside_of_busy hbusy hlocks)) h.elsewhere
      (fun hlocks hsource => hok.built hlocks hpc (sourceTree_isSome hsome hsource))
      (fun hc => by cases hc) trivial fun hd => by cases hd
  | push pc effect pc' hpc hturn hpushed =>
    have hguard := hcareful rfl
    unfold Job.Careful at hguard
    rw [hpc] at hguard
    have hold := hok.push pc hpc
    have hbusy : job.pc.busy = true := by
      rw [hpc]
      rfl
    refine .of_push rfl (fun hlocks => hok.lock (inside_of_busy hbusy hlocks)) hok.source
      (fun hlocks => hok.publishing hlocks pc hpc) (fun hc hsource => ?_) ?_ fun hd => ?_
    · cases hlocks : job.request.locks with
      | true => exact hok.publishing hlocks pc hpc hsource
      | false =>
        rcases hturn.copies hc with hbefore | ⟨b, rfl⟩
        · exact hok.copying (by rw [hpc]; exact hbefore) hsource
        · exact hguard.1 hlocks hsource
    · refine hold.turn hturn fun b hscan => ?_
      subst hscan
      exact hguard.2.imp_right And.left
    · rcases hpushed hd with ⟨hbefore, hquiet⟩ | ⟨b, st, rfl, rfl⟩
      · have hgot : copied w.shared.store job.got effect = job.got := by
          cases effect with
          | complete b => exact absurd rfl (hquiet b)
          | _ => rfl
        show Brought P w.shared.finished (copied w.shared.store job.got effect)
        rw [hgot]
        exact hok.got (by rw [hpc]; exact hbefore)
      · obtain ⟨t, ht, hreads⟩ := h.reads_finished hok (by rw [hpc]; rfl)
        obtain ⟨hcopy, -⟩ := hold
        rw [hreads] at hcopy
        exact ⟨t, ht, st, hcopy, outcome_complete hturn⟩
  | done b hpc =>
    exact hok.conclude (by rw [hpc]; rfl) hok.source fun _ => hok.got (by rw [hpc]; rfl)
  | fail e source hpc hsource =>
    refine hok.conclude hpc (fun t ht => ?_) fun hd => by cases hd
    rcases hsource with rfl | rfl
    · exact hok.source t ht
    · exact h.elsewhere t ht
  | release result hpc =>
    refine .plain (fun hin => by cases hin) hok.source (fun hb => by cases hb)
      (fun p hp => by cases hp) (fun _ he => by cases he) fun hd => hok.got ?_
    rw [hpc]
    cases result with
    | error e => cases hd
    | ok b =>
      cases b with
      | none => cases hd
      | some b => rfl

/-- Two pushes never have the same build in hand. -/
theorem apart_turn (h : Orderly w) (hi : w.jobs[i]? = some job)
    (hcareful : job'.pc.busy = true → job.Careful w) (hturn : JobTurn i w.shared job s' job')
    (hj : w.jobs[j]? = some other) (hne : j ≠ i) {b : String} (hb : job'.pc.changes b = true) :
    other.pc.changes b = false := by
  cases hturn with
  | push pc effect pc' hpc hturn hpushed =>
    exact h.alone hi (hcareful rfl) hpc hturn (Or.inr hb) hj hne
  | check pc hpc hnext hbuilds => exact absurd hb (changes_of_early hnext)
  | remove body index pc hpc hindex hnext =>
    exact absurd hb (changes_of_early (early_of_builds hnext))
  | write t pc hpc ht hnext => exact absurd hb (changes_of_early (early_of_builds hnext))
  | acquire hpc hlock =>
    simp only [Job.goto] at hb
    cases hreq : job.request <;> rw [hreq] at hb <;> cases hb
  | built hpc =>
    simp only [Job.goto] at hb
    cases hreq : job.request <;> rw [hreq] at hb <;> cases hb
  | isDir hpc hsome => cases hb
  | done b hpc => exact absurd hb changes_conclude
  | fail e source hpc hsource => exact absurd hb changes_conclude
  | release result hpc => cases hb

/-- A careful turn. -/
theorem turn (h : Orderly w) (hi : w.jobs[i]? = some job)
    (hcareful : job'.pc.busy = true → job.Careful w) (hturn : JobTurn i w.shared job s' job') :
    Orderly ⟨s', w.jobs.set i job'⟩ where
  closed := by
    cases hturn with
    | remove body index pc hpc hindex hnext =>
      rcases hindex with rfl | rfl
      · exact h.closed
      · exact closed_none
    | write t pc hpc ht hnext =>
      show Closed (directory (t.map IndexEntry.dir))
      rw [directory_map]
      exact ht h.closed
    | _ => exact h.closed
  elsewhere := by
    cases hturn with
    | remove body index pc hpc hindex hnext =>
      rcases hindex with rfl | rfl
      · exact h.elsewhere
      · exact fun t ht => by cases ht
    | write t pc hpc ht hnext =>
      intro u hu
      rw [show linked _ = none from linked_map t] at hu
      cases hu
    | built hpc => exact fun t ht => List.mem_append_right _ (h.elsewhere t ht)
    | _ => exact h.elsewhere
  finished := by
    cases hturn with
    | built hpc =>
      intro t ht
      rcases List.mem_append.mp ht with ht | ht
      · rw [← Option.mem_toList.mp ht]
        exact h.closed
      · exact h.finished t ht
    | _ => exact h.finished
  whole := by
    cases hturn with
    | remove body index pc hpc hindex hnext => exact fun hw => by cases hw
    | write t pc hpc ht hnext =>
      intro hw
      exact absurd (((h.jobs i job hi).building hpc).symm.trans hw) Bool.false_ne_true
    | built hpc =>
      intro hw
      obtain ⟨t, ht⟩ := Option.isSome_iff_exists.mp hw
      exact ⟨t, List.mem_append_left _ (Option.mem_toList.mpr ht), ht⟩
    | _ => exact h.whole
  jobs j other hj := by
    rcases Runs.getElem?_set_cases hj with ⟨rfl, rfl⟩ | ⟨hne, hj⟩
    · exact h.own hi hcareful hturn
    · exact h.others hi hcareful hturn hj hne
  apart j k other third b hj hk hne hb := by
    rcases Runs.getElem?_set_cases hj with ⟨rfl, rfl⟩ | ⟨hji, hother⟩
    · rcases Runs.getElem?_set_cases hk with ⟨rfl, rfl⟩ | ⟨hki, hthird⟩
      · exact absurd rfl hne
      · exact h.apart_turn hi hcareful hturn hthird hki hb
    · rcases Runs.getElem?_set_cases hk with ⟨rfl, rfl⟩ | ⟨hki, hthird⟩
      · refine Bool.eq_false_iff.mpr fun hc => ?_
        have hno := h.apart_turn hi hcareful hturn hother hji hc
        exact Bool.false_ne_true (hno.symm.trans hb)
      · exact h.apart j k other third b hother hthird hne hb

/-- A request arrives. -/
theorem start (h : Orderly w) (request : BuildRequest) :
    Orderly { w with jobs := w.jobs ++ [⟨request, request.start, none, none⟩] } where
  closed := h.closed
  elsewhere := h.elsewhere
  finished := h.finished
  whole := h.whole
  jobs j other hj := by
    rcases Runs.getElem?_concat_cases hj with hj | rfl
    · exact h.jobs j other hj
    · cases request with
      | pushIndex buildId =>
        exact .plain (fun hin => by cases hin) (fun t ht => by cases ht) (fun hb => by cases hb)
          (fun p hp => by cases hp) (fun hlocks => by cases hlocks) fun hd => by cases hd
      | _ =>
        exact .plain (fun hin => by cases hin) (fun t ht => by cases ht) (fun hb => by cases hb)
          (fun p hp => by cases hp) (fun _ he => by cases he) fun hd => by cases hd
  apart j k other third b hj hk hne hb := by
    have hstart : ∀ b, (request.start : JobPc P.up.St).changes b = false := fun b => by
      cases request <;> rfl
    rcases Runs.getElem?_concat_cases hk with hk | rfl
    · rcases Runs.getElem?_concat_cases hj with hj | rfl
      · exact h.apart j k other third b hj hk hne hb
      · exact absurd ((hstart b).symm.trans hb) Bool.false_ne_true
    · exact hstart b

/-- Every careful move. -/
theorem step (h : Orderly w) (hcareful : w.Careful m) (hstep : w.step settings m = some w') :
    Orderly w' := by
  cases m with
  | start request =>
    obtain rfl := Option.some.inj hstep
    exact h.start request
  | turn i now files choice =>
    obtain ⟨job, s', job', hi, hturn, rfl⟩ :=
      moveJob_eq_some (f := fun s job => job.turn settings s i now files choice) hstep
    exact h.turn hi (fun _ => hcareful job hi) (jobTurn hturn)
  | importWrite i t =>
    obtain ⟨job, s', job', hi, hturn, rfl⟩ :=
      moveJob_eq_some (f := fun s job => job.importWrite s t) hstep
    exact h.turn hi (fun _ => careful_importWrite hturn) (jobTurn_importWrite hturn)
  | importExit i failure =>
    obtain ⟨job, s', job', hi, hturn, rfl⟩ :=
      moveJob_eq_some (f := fun s job => job.importExit s failure) hstep
    exact h.turn hi (fun _ => careful_importExit hturn) (jobTurn_importExit hturn)
  | raise i =>
    obtain ⟨job, s', job', hi, hturn, rfl⟩ :=
      moveJob_eq_some (f := fun s job => job.raise s) hstep
    refine h.turn hi (fun hbusy => ?_) (jobTurn_raise hturn)
    exact absurd ((raise_not_busy hturn).symm.trans hbusy) Bool.false_ne_true

/-- What the agent finds when it starts. -/
theorem init {found : FoundIndex β} {store : Store β} :
    Orderly (BuildHost.init found store : BuildHost P) where
  closed := by
    show Closed (directory found.entry)
    cases hd : directory found.entry with
    | none => exact closed_none
    | some t =>
      have hsource : sourceTree found.entry = some t := by
        rw [sourceTree, linked_of_directory hd, hd]
        rfl
      rw [← hsource]
      exact found.closed
  elsewhere t ht := by
    have hsource : sourceTree found.entry = some t := by
      rw [sourceTree, show linked found.entry = some t from ht]
      rfl
    exact Option.mem_toList.mpr hsource
  finished t ht := by
    rw [← Option.mem_toList.mp ht]
    exact found.closed
  whole hw := by
    obtain ⟨t, ht⟩ := Option.isSome_iff_exists.mp hw
    refine ⟨t, Option.mem_toList.mpr ?_, ht⟩
    show sourceTree found.entry = some t
    rw [sourceTree, linked_of_directory ht, ht]
    rfl
  jobs i job hi := by cases hi
  apart i j job other b hi := by cases hi

end Orderly

/-- What the push of a request has brought into the store is the tree that a finished import
left; an object store keeps its files. -/
def Published (w : BuildHost P) (job : Job P) : Prop :=
  ∃ t ∈ w.shared.finished, SameFiles job.got (some t) ∧
    (P.isLocal = true → Same job.got (some t))

theorem Brought.published (hP : P.Documented) (hclosed : ∀ t ∈ w.shared.finished, Closed (some t))
    (h : Brought P w.shared.finished job.got) : Published w job := by
  obtain ⟨t, ht, hcopy⟩ := h
  refine ⟨t, ht, ?_⟩
  cases P with
  | localDir =>
    have hsame : Same job.got (some t) := copytree_copies (hclosed t ht) hcopy
    exact ⟨fun p content => by rw [hsame p], fun _ => hsame⟩
  | s3Compatible rclone => exact ⟨hP.up _ _ hcopy, fun hlocal => by cases hlocal⟩

/-- In every run whose builds and pushes keep out of each other's way, a push that has
answered `ok` has published the tree of one finished import. -/
theorem push_published (P : Provider β) (hP : P.Documented) (settings : Settings)
    (found : FoundIndex β) (store : Store β) (moves : List (BuildMove β)) (w : BuildHost P)
    (hrun : Runs.exec (BuildHost.step settings) (.init found store) moves = some w)
    (hcareful : Runs.Guarded (BuildHost.step settings) BuildHost.Careful
      (.init found store : BuildHost P) moves)
    (job : Job P) (hmem : job ∈ w.jobs) (b : String) (hok : job.pc = .ended (.ok (some b))) :
    Published w job := by
  have horderly : Orderly w :=
    Runs.guarded_invariant (fun _ _ _ h hc hs => h.step hc hs) hcareful hrun .init
  obtain ⟨i, hi⟩ := List.mem_iff_getElem?.mp hmem
  exact ((horderly.jobs i job hi).got (by rw [hok]; rfl)).published hP horderly.finished

/-! ## Runs of the local provider -/

section Local

instance (w : BuildHost P) (job : Job P) : Decidable (job.Careful w) := by
  unfold Job.Careful
  split <;> infer_instance

instance (w : BuildHost P) : DecidablePred w.Careful
  | .turn i _ _ _ =>
    match h : w.jobs[i]? with
    | none => isTrue fun job hjob => by cases h.symm.trans hjob
    | some job => decidable_of_iff (job.Careful w) (by simp [BuildHost.Careful, h])
  | .start _ => isTrue trivial
  | .importWrite _ _ => isTrue trivial
  | .importExit _ _ => isTrue trivial
  | .raise _ => isTrue trivial

def agentSettings : Settings := ⟨"schema.json", "yikv_import_pipeline", "build_db/users"⟩

def noIndex : FoundIndex Nat := ⟨none, closed_none⟩

def usersBody : BuildIndexBody := ⟨none, some "data", none, by decide⟩

/-- Turns of request `i`, in which every check succeeds. -/
def turns (i n : Nat) (choice : List Path) : List (BuildMove Nat) :=
  List.replicate n (.turn i 0 ⟨id, fun _ => true, fun _ => true, fun _ => true⟩ choice)

/-- A push of one file, to its answer. -/
def pushTurns (i : Nat) : List (BuildMove Nat) :=
  turns i 4 [] ++ turns i 1 [["table.json"]] ++ turns i 8 []

def publish : List (BuildMove Nat) :=
  .start (.publishIndex usersBody (some "20")) :: turns 0 5 [] ++
    [.importWrite 0 (oneFile 1), .importExit 0 none] ++ pushTurns 0 ++ turns 0 1 []

theorem publish_published : ∃ w : BuildHost (.localDir : Provider Nat),
    Runs.exec (BuildHost.step agentSettings) (.init noIndex ∅) publish = some w ∧
      ∃ job ∈ w.jobs, job.pc = .ended (.ok (some "20")) ∧ Published w job := by
  obtain ⟨w, hrun, job, hmem, hok⟩ : ∃ w : BuildHost (.localDir : Provider Nat),
      Runs.exec (BuildHost.step agentSettings) (.init noIndex ∅) publish = some w ∧
        ∃ job ∈ w.jobs, job.pc = .ended (.ok (some "20")) :=
    ⟨_, rfl, _, List.mem_cons_self, rfl⟩
  exact ⟨w, hrun, job, hmem, hok, push_published .localDir trivial agentSettings noIndex ∅
    publish w hrun (by decide) job hmem "20" hok⟩

/-- A `/pushIndex` while the import of a `/buildIndex` runs. -/
def pushDuringImport : List (BuildMove Nat) :=
  .start (.buildIndex usersBody) :: turns 0 5 [] ++
    [.importWrite 0 (oneFile 1), .start (.pushIndex (some "20"))] ++ pushTurns 1

/-- A push answers `ok` before any import has finished. -/
theorem pushDuringImport_unpublished : ∃ w : BuildHost (.localDir : Provider Nat),
    Runs.exec (BuildHost.step agentSettings) (.init noIndex ∅) pushDuringImport = some w ∧
      ∃ job ∈ w.jobs, job.pc = .ended (.ok (some "20")) ∧ ¬ Published w job := by
  refine ⟨_, rfl, _, List.mem_cons_of_mem _ List.mem_cons_self, rfl, ?_⟩
  rintro ⟨t, ht, -⟩
  cases ht

end Local

end YikvServer.Agent
