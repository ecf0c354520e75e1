import YikvServer.Agent.Published

/-!
# Builds that are answered with 400

`_build_index_impl` checks the schema file first, and the data directory or the input file
only when `_remove_local_build_index` has removed `BUILD_DB/<table>`.
-/
namespace YikvServer.Agent

open YikvServer.Theory YikvServer.Theory.FileTree YikvServer.Artifact

variable {β : Type} {P : Provider β} {settings : Settings} {s s' : Shared β} {i j : Nat}
  {job job' other : Job P} {w w' : BuildHost P} {m : BuildMove β}

/-! ## The import lock -/

/-- What the import lock says of request `i`. -/
structure LockOk (s : Shared β) (i : Nat) (job : Job P) : Prop where
  held : job.inside = true → s.lock = some i
  locks : job.pc.early = true → job.request.locks = true

theorem locks_of_enter {St : Type} {request : BuildRequest}
    (h : (request.enter : JobPc St).early = true) : request.locks = true := by
  cases request with
  | pushIndex buildId => cases h
  | _ => rfl

theorem afterBuild_early {St : Type} {request : BuildRequest} :
    (request.afterBuild : JobPc St).early = false := by
  cases request <;> rfl

theorem conclude_early {St : Type} {request : BuildRequest}
    {result : Except HttpError (Option String)} :
    (request.conclude result : JobPc St).early = false := by
  unfold BuildRequest.conclude
  split
  · rfl
  · rfl

/-- A request that goes on in the `with` block, or outside of it. -/
theorem LockOk.goOn (h : LockOk s i job) (hlock : s'.lock = s.lock)
    (hin : job'.inside = true → job.inside = true)
    (hearly : job'.pc.early = true → job'.request.locks = true) : LockOk s' i job' where
  held hin' := hlock.trans (h.held (hin hin'))
  locks := hearly

theorem LockOk.turn (h : LockOk s i job) (hturn : JobTurn i s job s' job') : LockOk s' i job' := by
  cases hturn with
  | acquire hpc hlock => exact ⟨fun _ => rfl, locks_of_enter⟩
  | check pc hpc hnext hbuilds =>
    exact h.goOn rfl (fun _ => inside_of_early hpc) fun _ => h.locks hpc
  | remove body index pc hpc hindex hnext =>
    have hearly : job.pc.early = true := by rw [hpc]; rfl
    exact h.goOn rfl (fun _ => inside_of_early hearly) fun _ => h.locks hearly
  | write t pc hpc ht hnext =>
    have hearly := early_of_builds hpc
    exact h.goOn rfl (fun _ => inside_of_early hearly) fun _ => h.locks hearly
  | built hpc =>
    have hearly : job.pc.early = true := by rw [hpc]; rfl
    refine h.goOn rfl (fun _ => inside_of_early hearly) fun he => ?_
    exact absurd (afterBuild_early.symm.trans he) Bool.false_ne_true
  | isDir hpc hsome =>
    refine h.goOn rfl (fun hin => ?_) fun he => by cases he
    exact inside_of_busy (by rw [hpc]; rfl) hin
  | push pc effect pc' hpc hturn hpushed =>
    refine h.goOn rfl (fun hin => ?_) fun he => by cases he
    exact inside_of_busy (by rw [hpc]; rfl) hin
  | done b hpc =>
    refine h.goOn rfl (fun hin => ?_) fun he => ?_
    · exact inside_of_busy (by rw [hpc]; rfl) (inside_conclude hin)
    · exact absurd (conclude_early.symm.trans he) Bool.false_ne_true
  | fail e source hpc hsource =>
    refine h.goOn rfl (fun hin => ?_) fun he => ?_
    · exact inside_of_busy hpc (inside_conclude hin)
    · exact absurd (conclude_early.symm.trans he) Bool.false_ne_true
  | release result hpc => exact ⟨fun hin => (by cases hin), fun he => (by cases he)⟩

/-- A request takes the lock from nobody. -/
theorem JobTurn.lock_of_ne (hturn : JobTurn i s job s' job') (h : LockOk s i job)
    (hj : s.lock = some j) (hne : j ≠ i) : s'.lock = some j := by
  cases hturn with
  | acquire hpc hlock => cases hlock.symm.trans hj
  | release result hpc =>
    have hi : s.lock = some i := h.held (by unfold Job.inside; rw [hpc])
    exact absurd (Option.some.inj (hj.symm.trans hi)) hne
  | _ => exact hj

theorem JobTurn.request (hturn : JobTurn i s job s' job') : job'.request = job.request := by
  cases hturn with
  | _ => rfl

/-- Outside the `with` block nothing is removed or built. -/
theorem JobTurn.index_of_outside (hturn : JobTurn i s job s' job') (hout : job.inside = false) :
    s'.index = s.index := by
  cases hturn with
  | remove body index pc hpc hindex hnext =>
    unfold Job.inside at hout
    rw [hpc] at hout
    cases hout
  | write t pc hpc ht hnext =>
    exact absurd (hout.symm.trans (inside_of_early (early_of_builds hpc))) Bool.false_ne_true
  | _ => rfl

def Locked (w : BuildHost P) : Prop :=
  ∀ (i : Nat) (job : Job P), w.jobs[i]? = some job → LockOk w.shared i job

/-- One move of request `i`. -/
inductive JobMove (settings : Settings) (i : Nat) (s : Shared β) (job : Job P) (s' : Shared β)
    (job' : Job P) : Prop where
  | turn (now : Nat) (files : HostFiles) (choice : List Path)
      (h : job.turn settings s i now files choice = some (s', job'))
  | importWrite (t : SourceTree β) (h : job.importWrite s t = some (s', job'))
  | importExit (failure : Option String) (h : job.importExit s failure = some (s', job'))
  | raise (h : job.raise s = some (s', job'))

theorem JobMove.jobTurn (h : JobMove settings i s job s' job') : JobTurn i s job s' job' := by
  cases h with
  | turn now files choice h => exact Agent.jobTurn h
  | importWrite t h => exact jobTurn_importWrite h
  | importExit failure h => exact jobTurn_importExit h
  | raise h => exact jobTurn_raise h

/-- A request comes, or one moves. -/
theorem step_cases (h : w.step settings m = some w') :
    (∃ request, w' = { w with jobs := w.jobs ++ [⟨request, request.start, none, none⟩] }) ∨
      ∃ i job s' job', w.jobs[i]? = some job ∧ JobMove settings i w.shared job s' job' ∧
        w' = ⟨s', w.jobs.set i job'⟩ := by
  cases m with
  | start request => exact Or.inl ⟨request, (Option.some.inj h).symm⟩
  | turn i now files choice =>
    obtain ⟨job, s', job', hi, hf, rfl⟩ :=
      moveJob_eq_some (f := fun s job => job.turn settings s i now files choice) h
    exact Or.inr ⟨i, job, s', job', hi, .turn now files choice hf, rfl⟩
  | importWrite i t =>
    obtain ⟨job, s', job', hi, hf, rfl⟩ :=
      moveJob_eq_some (f := fun s job => job.importWrite s t) h
    exact Or.inr ⟨i, job, s', job', hi, .importWrite t hf, rfl⟩
  | importExit i failure =>
    obtain ⟨job, s', job', hi, hf, rfl⟩ :=
      moveJob_eq_some (f := fun s job => job.importExit s failure) h
    exact Or.inr ⟨i, job, s', job', hi, .importExit failure hf, rfl⟩
  | raise i =>
    obtain ⟨job, s', job', hi, hf, rfl⟩ :=
      moveJob_eq_some (f := fun s job => job.raise s) h
    exact Or.inr ⟨i, job, s', job', hi, .raise hf, rfl⟩

theorem Locked.step (h : Locked w) (hstep : w.step settings m = some w') : Locked w' := by
  rcases step_cases hstep with ⟨request, rfl⟩ | ⟨i, job, s', job', hi, hmove, rfl⟩
  · intro j other hj
    rcases Runs.getElem?_concat_cases hj with hj | rfl
    · exact h j other hj
    · cases request <;> exact ⟨fun hin => (by cases hin), fun he => (by cases he)⟩
  · intro j other hj
    rcases Runs.getElem?_set_cases hj with ⟨rfl, rfl⟩ | ⟨hne, hj⟩
    · exact (h j job hi).turn hmove.jobTurn
    · have hown := h j other hj
      refine ⟨fun hin => ?_, hown.locks⟩
      exact hmove.jobTurn.lock_of_ne (h i job hi) (hown.held hin) hne

theorem Locked.init {found : FoundIndex β} {store : Store β} :
    Locked (.init found store : BuildHost P) := by
  intro i job hi
  cases hi

/-! ## A request on its way to a 400 -/

/-- What `_remove_local_build_index` leaves: a special file. -/
def removed : Option (IndexEntry β) → Option (IndexEntry β)
  | some .special => some .special
  | _ => none

theorem removed_of_not_special {index : Option (IndexEntry β)} (h : index ≠ some .special) :
    removed index = none := by
  unfold removed
  split
  · exact absurd rfl h
  · rfl

theorem removed_eq_self {index : Option (IndexEntry β)} :
    removed index = index ↔ index = none ∨ index = some .special := by
  cases index with
  | none => simp [removed]
  | some entry => cases entry <;> simp [removed]

theorem sourceTree_removed {index : Option (IndexEntry β)} : sourceTree (removed index) = none := by
  cases index with
  | none => rfl
  | some entry => cases entry <;> rfl

/-- When request `i` is answered with 400 after its first check, `entry` stands at
`BUILD_DB/<table>`. -/
def Answering (entry : Option (IndexEntry β)) (s : Shared β) (job : Job P) : Prop :=
  match job.pc with
  | .acquire => False
  | .schema _ => False
  | .executable _ => entry = removed s.index
  | .remove _ => entry = removed s.index
  | .removing _ => entry = none
  | .input _ => entry = s.index ∧ removed s.index = s.index
  | .running => entry = removed s.index ∧
    ((sourceTree s.index).isSome = true ∨ removed s.index = s.index)
  | .isDir => entry = removed s.index ∧
    ((sourceTree s.index).isSome = true ∨ removed s.index = s.index)
  | .push _ => True
  | .release (.error e) => e.status = 400 → s.index = entry
  | .release (.ok _) => True
  | .ended _ => True

namespace Answering
variable {entry : Option (IndexEntry β)}

theorem conclude_error {e : HttpError} {source : Option (DirTree β)}
    (h : e.status = 400 → s.index = entry) :
    Answering entry s ({ job with source, pc := job.request.conclude (.error e) } : Job P) := by
  unfold Answering BuildRequest.conclude
  cases job.request.locks with
  | true => exact h
  | false => trivial

theorem conclude_ok {b : Option String} {source : Option (DirTree β)} :
    Answering entry s ({ job with source, pc := job.request.conclude (.ok b) } : Job P) := by
  unfold Answering BuildRequest.conclude
  cases job.request.locks with
  | true => trivial
  | false => trivial

/-- A check of the request that fails with another status than 400, or does not fail. -/
theorem goOn {failure : Option HttpError} {next : JobPc P.up.St}
    (hfail : ∀ e, failure = some e → e.status = 400 → s.index = entry)
    (hnext : Answering entry s (job.goto next)) : Answering entry s (job.goOn failure next) := by
  cases failure with
  | none => exact hnext
  | some e => exact conclude_error (hfail e rfl)

theorem ensureExecutable_status {files : HostFiles} {e : HttpError}
    (h : ensureExecutable settings files = some e) : e.status = 500 := by
  unfold ensureExecutable at h
  split at h
  · obtain rfl := Option.some.inj h
    rfl
  · split at h
    · cases h
    · obtain rfl := Option.some.inj h
      rfl

theorem turn {now : Nat} {files : HostFiles} {choice : List Path} (h : Answering entry s job)
    (hturn : job.turn settings s i now files choice = some (s', job')) :
    Answering entry s' job' := by
  obtain ⟨request, pc, source, got⟩ := job
  cases pc with
  | acquire => exact h.elim
  | schema body => exact h.elim
  | executable body =>
    cases hturn
    refine goOn (fun e he h400 => ?_) h
    exact absurd (h400.symm.trans (ensureExecutable_status he)) (by decide)
  | remove body =>
    simp only [Job.turn] at hturn
    split at hturn
    · next hdir =>
      cases hturn
      exact h.trans (by rw [hdir]; rfl)
    · next hspecial =>
      cases hturn
      exact ⟨h.trans (by rw [hspecial]; rfl), by rw [hspecial]; rfl⟩
    · next hspecial =>
      cases hturn
      exact ⟨h.trans (removed_of_not_special hspecial), rfl⟩
  | removing body =>
    simp only [Job.turn] at hturn
    split at hturn
    · obtain ⟨t', -, heq⟩ := Option.map_eq_some_iff.mp hturn
      cases heq
      cases t' with
      | none => exact ⟨h, rfl⟩
      | some t' => exact h
    · cases hturn
  | input body =>
    cases hturn
    exact goOn (fun e he h400 => h.1.symm) ⟨h.1.trans h.2.symm, Or.inr h.2⟩
  | running => cases hturn
  | isDir =>
    obtain ⟨rfl, rfl⟩ := Prod.mk.inj (Option.some.inj hturn)
    refine goOn (fun e he h400 => ?_) trivial
    rcases h.2 with hsome | hleft
    · rw [checkSource, if_pos hsome] at he
      cases he
    · exact hleft.symm.trans h.1.symm
  | push pc =>
    have hpush : ((pushStep P request.buildId now (Job.reads s ⟨request, .push pc, source, got⟩)
        s.store choice pc).map fun turn =>
          ({ s with store := turn.1.onStore s.store },
            (⟨request, .push turn.2, source, copied s.store got turn.1⟩ : Job P))) =
              some (s', job') → Answering entry s' job' := fun hmap => by
      obtain ⟨turn, -, heq⟩ := Option.map_eq_some_iff.mp hmap
      cases heq
      trivial
    cases pc with
    | done b =>
      obtain ⟨rfl, rfl⟩ := Prod.mk.inj (Option.some.inj hturn)
      split
      · exact conclude_error fun h400 => by cases h400
      · exact conclude_ok
    | failed =>
      cases hturn
      exact conclude_error fun h400 => by cases h400
    | _ => exact hpush hturn
  | release result =>
    cases hturn
    trivial
  | ended result => cases hturn

theorem move (h : Answering entry s job) (hmove : JobMove settings i s job s' job') :
    Answering entry s' job' := by
  cases hmove with
  | turn now files choice hturn => exact h.turn hturn
  | importWrite t hwrite =>
    obtain ⟨request, pc, source, got⟩ := job
    cases pc with
    | running =>
      simp only [Job.importWrite] at hwrite
      split at hwrite
      · cases hwrite
      · next hspecial =>
        cases hwrite
        exact ⟨h.1.trans (removed_of_not_special hspecial), Or.inl rfl⟩
    | _ => cases hwrite
  | importExit failure hexit =>
    obtain ⟨request, pc, source, got⟩ := job
    cases pc with
    | running =>
      cases failure with
      | none =>
        cases hexit
        cases request with
        | buildIndex body => trivial
        | _ => exact h
      | some detail =>
        cases hexit
        exact conclude_error fun h400 => by cases h400
    | _ => cases hexit
  | raise hraise =>
    obtain ⟨request, pc, source, got⟩ := job
    cases pc with
    | acquire => cases hraise
    | release result => cases hraise
    | ended result => cases hraise
    | _ =>
      cases hraise
      exact conclude_error fun h400 => by cases h400

/-- While a request is in the `with` block, or has left it, no other changes what it will
answer. -/
theorem frame (h : Answering entry s job) (hlocks : job.request.locks = true)
    (hindex : job.inside = true → s'.index = s.index) : Answering entry s' job := by
  have hinside : job.inside = true → Answering entry s' job := fun hin => by
    unfold Answering at h ⊢
    rw [hindex hin]
    exact h
  obtain ⟨request, pc, source, got⟩ := job
  cases pc with
  | acquire => exact h.elim
  | isDir => exact hinside hlocks
  | push pc => trivial
  | ended result => trivial
  | _ => exact hinside rfl

end Answering

/-- Request `i` is on its way to a 400. -/
def BuildHost.Answering (w : BuildHost P) (i : Nat) (entry : Option (IndexEntry β)) : Prop :=
  Locked w ∧ ∃ job : Job P, w.jobs[i]? = some job ∧ job.request.locks = true ∧
    Agent.Answering entry w.shared job

theorem BuildHost.Answering.step {entry : Option (IndexEntry β)} (h : w.Answering i entry)
    (hstep : w.step settings m = some w') : w'.Answering i entry := by
  obtain ⟨hlocked, job, hi, hlocks, hans⟩ := h
  refine ⟨hlocked.step hstep, ?_⟩
  rcases step_cases hstep with ⟨request, rfl⟩ | ⟨j, other, s', other', hj, hmove, rfl⟩
  · have hlt := (List.getElem?_eq_some_iff.mp hi).1
    exact ⟨job, (List.getElem?_append_left hlt).trans hi, hlocks, hans⟩
  · by_cases hne : j = i
    · subst hne
      obtain rfl := Option.some.inj (hj.symm.trans hi)
      have hlt := (List.getElem?_eq_some_iff.mp hi).1
      exact ⟨other', List.getElem?_set_self hlt, hmove.jobTurn.request.symm ▸ hlocks,
        hans.move hmove⟩
    · refine ⟨job, (List.getElem?_set_ne hne).trans hi, hlocks, hans.frame hlocks fun hin => ?_⟩
      refine hmove.jobTurn.index_of_outside (Bool.eq_false_iff.mpr fun hother => hne ?_)
      exact Option.some.inj (((hlocked j other hj).held hother).symm.trans
        ((hlocked i job hi).held hin))

/-- What stands at `BUILD_DB/<table>` when a build whose first check found `failure` is
answered with 400. -/
def standing (failure : Option HttpError) (before : Option (IndexEntry β)) :
    Option (IndexEntry β) :=
  if failure = none then removed before else before

theorem standing_eq_iff {failure : Option HttpError} {before : Option (IndexEntry β)} :
    standing failure before = before ↔
      failure ≠ none ∨ before = none ∨ before = some .special := by
  unfold standing
  split
  · next h => simp [h, removed_eq_self]
  · next h => simp [h]

theorem checkSource_standing_iff {failure : Option HttpError} {before : Option (IndexEntry β)}
    {files : HostFiles} :
    checkSource settings files (standing failure before) = checkSource settings files before ↔
      failure ≠ none ∨ sourceTree before = none := by
  unfold standing
  split
  · next h =>
    unfold checkSource
    rw [sourceTree_removed]
    cases hsource : sourceTree before with
    | none => simp
    | some t => simp [h]
  · next h => simp [h]

/-- The first check of a build. -/
theorem answering_of_schema {now : Nat} {files : HostFiles} {choice : List Path}
    {body : BuildIndexBody} (hlocked : Locked w) (hi : w.jobs[i]? = some job)
    (hpc : job.pc = .schema body) (hstep : w.step settings (.turn i now files choice) = some w') :
    w'.Answering i (standing (body.checkSchema settings files) w.shared.index) := by
  obtain ⟨job₀, s', job', hi₀, hturn, rfl⟩ :=
    moveJob_eq_some (f := fun s job => job.turn settings s i now files choice) hstep
  obtain rfl := Option.some.inj (hi.symm.trans hi₀)
  have hlocks : job.request.locks = true := (hlocked i job hi).locks (by rw [hpc]; rfl)
  refine ⟨hlocked.step hstep, job', ?_, (jobTurn hturn).request.symm ▸ hlocks, ?_⟩
  · exact List.getElem?_set_self (List.getElem?_eq_some_iff.mp hi).1
  · unfold Job.turn at hturn
    rw [hpc] at hturn
    obtain ⟨rfl, rfl⟩ := Prod.mk.inj (Option.some.inj hturn)
    cases hfail : body.checkSchema settings files with
    | none => exact rfl
    | some e => exact Answering.conclude_error fun _ => rfl

/-- In every run, a build that is answered with 400 leaves `BUILD_DB/<table>` as it stood
before its first check exactly when that check failed, nothing stood there or a special file
did, and leaves it as good for a push exactly when that check failed or there was nothing to push. -/
theorem rejected_unchanged_iff (P : Provider β) (settings : Settings) (found : FoundIndex β)
    (store : Store β) (earlier later : List (BuildMove β)) (w w' : BuildHost P) (i now : Nat)
    (files : HostFiles) (choice : List Path) (body : BuildIndexBody) (job job' : Job P)
    (e : HttpError)
    (hearlier : Runs.exec (BuildHost.step settings) (.init found store) earlier = some w)
    (hi : w.jobs[i]? = some job) (hpc : job.pc = .schema body)
    (hlater : Runs.exec (BuildHost.step settings) w (.turn i now files choice :: later) = some w')
    (hi' : w'.jobs[i]? = some job') (hanswer : job'.pc = .release (.error e))
    (h400 : e.status = 400) :
    (w'.shared.index = w.shared.index ↔
      body.checkSchema settings files ≠ none ∨ w.shared.index = none ∨
        w.shared.index = some .special) ∧
    ∀ files', checkSource settings files' w'.shared.index =
        checkSource settings files' w.shared.index ↔
      body.checkSchema settings files ≠ none ∨ sourceTree w.shared.index = none := by
  have hlocked : Locked w :=
    Runs.exec_invariant (fun _ _ _ h hstep => h.step hstep) hearlier .init
  obtain ⟨w₁, hfirst, hrest⟩ := Runs.exec_cons.mp hlater
  have hstart := answering_of_schema hlocked hi hpc hfirst
  obtain ⟨-, job₁, hi₁, -, hans⟩ :=
    Runs.exec_invariant (P := (BuildHost.Answering · i _)) (fun _ _ _ h hstep => h.step hstep)
      hrest hstart
  obtain rfl := Option.some.inj (hi'.symm.trans hi₁)
  unfold Answering at hans
  rw [hanswer] at hans
  rw [hans h400]
  exact ⟨standing_eq_iff, fun files' => checkSource_standing_iff⟩

/-! ## Builds of an index that exists -/

section Local

def usersIndex : FoundIndex Nat := ⟨some (.dir (oneFile 1).tree), (oneFile 1).closed⟩

/-- A host on which neither the schema file nor the data directory is found. -/
def noFiles : HostFiles := ⟨id, fun _ => false, fun _ => false, fun _ => true⟩

/-- A host on which only the data directory is missing. -/
def noDataDir : HostFiles := ⟨id, fun _ => true, fun _ => false, fun _ => true⟩

theorem schemaMissing_unchanged : ∃ w w' : BuildHost (.localDir : Provider Nat),
    Runs.exec (BuildHost.step agentSettings) (.init usersIndex ∅)
        (.start (.buildIndex usersBody) :: turns 0 1 []) = some w ∧
      Runs.exec (BuildHost.step agentSettings) w [.turn 0 0 noFiles []] = some w' ∧
      w'.shared.index = w.shared.index := by
  refine ⟨_, _, rfl, rfl, ?_⟩
  refine (rejected_unchanged_iff .localDir agentSettings usersIndex ∅
    (.start (.buildIndex usersBody) :: turns 0 1 []) [] _ _ 0 0 noFiles [] usersBody _ _ _ rfl
    rfl rfl rfl rfl rfl rfl).1.mpr (Or.inl ?_)
  decide

/-- A build whose data directory is missing. -/
def dataDirMissing : List (BuildMove Nat) :=
  .start (.buildIndex usersBody) :: turns 0 4 [] ++ turns 0 1 [["table.json"]] ++ turns 0 1 [] ++
    [.turn 0 0 noDataDir []]

/-- The directory is gone when the request is answered, and a push finds nothing. -/
theorem dataDirMissing_removed : ∃ w : BuildHost (.localDir : Provider Nat),
    Runs.exec (BuildHost.step agentSettings) (.init usersIndex ∅) dataDirMissing = some w ∧
      (∃ job ∈ w.jobs, job.pc = .release (.error ⟨400, "data_dir not a directory: data"⟩)) ∧
      (sourceTree usersIndex.entry).isSome = true ∧ usersIndex.entry ≠ w.shared.index ∧
      checkSource agentSettings noDataDir w.shared.index =
        some ⟨400, "index directory missing (run buildIndex first): build_db/users"⟩ := by
  refine ⟨_, rfl, ⟨_, List.mem_cons_self, rfl⟩, rfl, ?_, rfl⟩
  intro h
  cases h

end Local

end YikvServer.Agent
