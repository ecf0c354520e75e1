import YikvServer.Agent.Published
import YikvServer.Agent.Release
import YikvServer.Artifact.Delivery

/-!
# The moves of both hosts

The push that a request to the build host is at, the tree that it copies, and what each
statement of a request to the online host can do.
-/
namespace YikvServer.Artifact

open YikvServer.Theory YikvServer.Theory.FileTree

variable {β : Type} {P : Provider β} {w : World P} {i : Nat} {old run : PullRun P}
  {src src' : Option (DirTree β)} {store : Store β} {effect : Effect β} {pc pc' : PushPc P.up.St}

/-- A pull gives way to one that has nothing in hand and relies on what nobody changes. -/
theorem Intact.settle (h : Intact w) (hi : w.pulls[i]? = some old)
    (hseen : ∀ entry ∈ run.seen, entry ∈ w.completed)
    (hok : PullOk P w.store (w.dests run.args.dest) (w.torn run.args.dest) run.seen run.pc)
    (hchanges : ∀ b, run.pc.changes b = false) (hreads : ∀ b, run.pc.reads b = false)
    (hrelies : ∀ b, run.pc.relies b = true → ∀ (j : Nat) (other : PullRun P),
      w.pulls[j]? = some other → j ≠ i → other.args.dest = run.args.dest →
        other.pc.changes b = false) :
    Intact { w with pulls := w.pulls.set i run } where
  stored := h.stored
  kept := h.kept
  links := h.links
  pushes := h.pushes
  pushesApart := h.pushesApart
  seen j pull hj := by
    rcases Runs.getElem?_set_cases hj with ⟨rfl, rfl⟩ | ⟨-, hj⟩
    · exact hseen
    · exact h.seen j pull hj
  pulls j pull hj := by
    rcases Runs.getElem?_set_cases hj with ⟨rfl, rfl⟩ | ⟨-, hj⟩
    · exact hok
    · exact h.pulls j pull hj
  readsApart j k push pull b hj hk hb := by
    rcases Runs.getElem?_set_cases hk with ⟨rfl, rfl⟩ | ⟨-, hk⟩
    · exact hreads b
    · exact h.readsApart j k push pull b hj hk hb
  pullsApart j k pull other b hj hk hd hne hb := by
    rcases Runs.getElem?_set_cases hk with ⟨rfl, rfl⟩ | ⟨-, hk⟩
    · exact hchanges b
    · rcases Runs.getElem?_set_cases hj with ⟨rfl, rfl⟩ | ⟨-, hj⟩
      · exact absurd ((hchanges b).symm.trans hb) Bool.false_ne_true
      · exact h.pullsApart j k pull other b hj hk hd hne hb
  relied j k pull other b hj hk hd hb := by
    rcases Runs.getElem?_set_cases hj with ⟨rfl, rfl⟩ | ⟨hji, hpull⟩
    · exact absurd ((hchanges b).symm.trans hb) Bool.false_ne_true
    · rcases Runs.getElem?_set_cases hk with ⟨rfl, rfl⟩ | ⟨-, hk⟩
      · refine Bool.eq_false_iff.mpr fun hr => ?_
        have hno := hrelies b hr j pull hpull hji hd.symm
        exact Bool.false_ne_true (hno.symm.trans hb)
      · exact h.relied j k pull other b hpull hk hd hb

/-- A turn depends on the source only where the copy goes on, or begins. -/
theorem PushTurn.congr (h : PushTurn P src store pc effect pc')
    (hsrc : pc'.copies = true → src' = src) : PushTurn P src' store pc effect pc' := by
  cases h with
  | idle pc pc' hidle => exact .idle pc pc' hidle
  | replace b hb => exact .replace b hb
  | remove b t => exact .remove b t
  | scanLocal b order st hlocal hst =>
    rw [hsrc rfl]
    exact .scanLocal b order st hlocal hst
  | scanRemote b order st hremote hst =>
    rw [hsrc rfl]
    exact .scanRemote b order st hremote hst
  | make b st hb => exact .make b st hb
  | copy b st choice t st' hstep =>
    rw [hsrc rfl]
    exact .copy b st choice t st' hstep
  | copied b st hend => exact .copied b st hend

end YikvServer.Artifact

namespace YikvServer.Agent

open YikvServer.Theory YikvServer.Theory.FileTree YikvServer.Artifact

variable {β : Type} {P : Provider β} {settings : Settings} {s s' : Shared β} {i j now : Nat}
  {job job' other : Job P} {files : HostFiles} {choice : List Path} {b : String}

/-! ## Pushes -/

/-- The push that a request is at; without one it stands for a push that has ended. -/
def JobPc.pushPc {St : Type} : JobPc St → PushPc St
  | .push pc => pc
  | _ => .failed

/-- A run of `cmd_push` from the tree that a request copies. -/
structure AsPush (s : Shared β) (job : Job P) (run : PushRun P) : Prop where
  pc : run.pc = job.pc.pushPc
  source : job.pc.copies = true → job.reads s = some run.source.tree

structure AsPushes (w : BuildHost P) (pushes : List (PushRun P)) : Prop where
  length : pushes.length = w.jobs.length
  runs : ∀ (i : Nat) (job : Job P) (run : PushRun P), w.jobs[i]? = some job →
    pushes[i]? = some run → AsPush w.shared job run

theorem changes_pushPc {St : Type} (pc : JobPc St) (b : String) :
    pc.pushPc.changes b = pc.changes b := by
  cases pc <;> rfl

theorem idle_not_copies {St : Type} {pc : JobPc St} (h : pc.pushPc.Idle) : pc.copies = false := by
  cases pc with
  | push pc =>
    cases pc with
    | make b st => exact h.elim
    | copy b st => exact h.elim
    | _ => rfl
  | _ => rfl

theorem idle_conclude {request : BuildRequest} {result : Except HttpError (Option String)} :
    (request.conclude result : JobPc P.up.St).pushPc.Idle := by
  unfold BuildRequest.conclude
  split
  · trivial
  · trivial

namespace AsPushes

variable {w : BuildHost P} {pushes : List (PushRun P)}

theorem exists_run (h : AsPushes w pushes) (hi : w.jobs[i]? = some job) :
    ∃ run, pushes[i]? = some run ∧ AsPush w.shared job run := by
  have hlt : i < pushes.length := by
    rw [h.length]
    exact (List.getElem?_eq_some_iff.mp hi).1
  exact ⟨pushes[i], List.getElem?_eq_getElem hlt, h.runs i job _ hi (List.getElem?_eq_getElem hlt)⟩

theorem exists_job {run : PushRun P} (h : AsPushes w pushes) (hi : pushes[i]? = some run) :
    ∃ job, w.jobs[i]? = some job ∧ AsPush w.shared job run := by
  have hlt : i < w.jobs.length := by
    rw [← h.length]
    exact (List.getElem?_eq_some_iff.mp hi).1
  exact ⟨w.jobs[i], List.getElem?_eq_getElem hlt, h.runs i _ run (List.getElem?_eq_getElem hlt) hi⟩

/-- Nobody has a build in hand, as the requests say. -/
theorem changes_eq (h : AsPushes w pushes) (hfree : ∀ job ∈ w.jobs, job.pc.changes b = false)
    {run : PushRun P} (hrun : run ∈ pushes) : run.pc.changes b = false := by
  obtain ⟨i, hi⟩ := List.mem_iff_getElem?.mp hrun
  obtain ⟨job, hjob, has⟩ := h.exists_job hi
  rw [has.pc, changes_pushPc]
  exact hfree job (List.mem_of_getElem? hjob)

/-- One request moves, and what the others copy stays. -/
theorem set (h : AsPushes w pushes) {run : PushRun P} (hrun : AsPush s' job' run)
    (hother : ∀ (j : Nat) (other : Job P), w.jobs[j]? = some other → j ≠ i →
      other.pc.copies = true → other.reads s' = other.reads w.shared) :
    AsPushes ⟨s', w.jobs.set i job'⟩ (pushes.set i run) where
  length := by
    rw [List.length_set, List.length_set, h.length]
  runs j other run' hj hj' := by
    rcases Runs.getElem?_set_cases hj with ⟨rfl, rfl⟩ | ⟨hne, hj⟩
    · rcases Runs.getElem?_set_cases hj' with ⟨-, rfl⟩ | ⟨hne, -⟩
      · exact hrun
      · exact absurd rfl hne
    · rcases Runs.getElem?_set_cases hj' with ⟨rfl, -⟩ | ⟨-, hj'⟩
      · exact absurd rfl hne
      · obtain ⟨hpc, hsource⟩ := h.runs j other run' hj hj'
        exact ⟨hpc, fun hc => (hother j other hj hne hc).trans (hsource hc)⟩

end AsPushes

/-- What a request copies stays while another moves. -/
theorem Orderly.reads_frame {w : BuildHost P} (h : Orderly w) (hi : w.jobs[i]? = some job)
    (hcareful : job'.pc.busy = true → job.Careful w) (hturn : JobTurn i w.shared job s' job')
    (hj : w.jobs[j]? = some other) (hne : j ≠ i) (hc : other.pc.copies = true) :
    other.reads s' = other.reads w.shared := by
  cases hsource : other.source with
  | some t => rw [Job.reads, Job.reads, hsource]; rfl
  | none =>
    have hwhole := (h.others hi hcareful hturn hj hne).copying hc hsource
    cases hturn with
    | remove body index pc hpc hindex hnext => cases hwhole
    | write t pc hpc ht hnext =>
      exact absurd (((h.jobs i job hi).building hpc).symm.trans hwhole) Bool.false_ne_true
    | _ => rfl

/-- A statement outside a push leaves the store alone. -/
theorem JobTurn.leaves (h : JobTurn i s job s' job')
    (hpush : (∀ pc, job.pc ≠ .push pc) ∨ ∀ pc, job'.pc ≠ .push pc) :
    s'.store = s.store ∧ job'.pc.pushPc.Idle := by
  cases h with
  | acquire hpc hlock =>
    refine ⟨rfl, ?_⟩
    cases job with
    | mk request pc source got => cases request <;> trivial
  | check pc hpc hnext hbuilds =>
    refine ⟨rfl, ?_⟩
    cases pc with
    | push pc => cases hnext
    | _ => trivial
  | remove body index pc hpc hindex hnext =>
    refine ⟨rfl, ?_⟩
    cases pc with
    | push pc => cases hnext
    | _ => trivial
  | write t pc hpc ht hnext =>
    refine ⟨rfl, ?_⟩
    cases pc with
    | push pc => cases hnext
    | _ => trivial
  | built hpc =>
    refine ⟨rfl, ?_⟩
    cases job with
    | mk request pc source got => cases request <;> trivial
  | isDir hpc hsome => exact ⟨rfl, trivial⟩
  | push pc effect pc' hpc hturn hpushed =>
    rcases hpush with hpush | hpush
    · exact absurd hpc (hpush pc)
    · exact absurd rfl (hpush pc')
  | done b hpc => exact ⟨rfl, idle_conclude⟩
  | fail e source hpc hsource => exact ⟨rfl, idle_conclude⟩
  | release result hpc => exact ⟨rfl, trivial⟩

/-- A turn of a request is one of its push, or it leaves the store alone. -/
theorem turn_cases (h : job.turn settings s i now files choice = some (s', job')) :
    (∃ pc effect pc', job.pc = .push pc ∧ job.effect s now choice = effect ∧
      pushStep P job.request.buildId now (job.reads s) s.store choice pc = some (effect, pc') ∧
      s' = { s with store := effect.onStore s.store } ∧
      job' = { job with pc := .push pc', got := copied s.store job.got effect }) ∨
    (job.effect s now choice = .quiet ∧ s'.store = s.store ∧ job'.pc.pushPc.Idle) := by
  have hturn : JobTurn i s job s' job' := jobTurn h
  obtain ⟨request, pc, source, got⟩ := job
  cases pc with
  | push pc =>
    have hstep : ∀ effect pc', pushStep P request.buildId now (Job.reads s
        ⟨request, .push pc, source, got⟩) s.store choice pc = some (effect, pc') →
        Job.effect s ⟨request, .push pc, source, got⟩ now choice = effect := fun effect pc' hp => by
      simp only [Job.effect, hp, Option.map_some, Option.getD_some]
    have hmap : ((pushStep P request.buildId now (Job.reads s ⟨request, .push pc, source, got⟩)
        s.store choice pc).map fun turn =>
          (({ s with store := turn.1.onStore s.store } : Shared β),
            (⟨request, .push turn.2, source, copied s.store got turn.1⟩ : Job P))) =
              some (s', job') →
        ∃ effect pc', pushStep P request.buildId now (Job.reads s
          ⟨request, .push pc, source, got⟩) s.store choice pc = some (effect, pc') ∧
          s' = { s with store := effect.onStore s.store } ∧
          job' = ⟨request, .push pc', source, copied s.store got effect⟩ := fun hmap => by
      obtain ⟨⟨effect, pc'⟩, hp, heq⟩ := Option.map_eq_some_iff.mp hmap
      obtain ⟨rfl, rfl⟩ := Prod.mk.inj heq
      exact ⟨effect, pc', hp, rfl, rfl⟩
    cases pc with
    | done r =>
      obtain ⟨rfl, rfl⟩ := Prod.mk.inj (Option.some.inj h)
      exact Or.inr ⟨rfl, rfl, idle_conclude⟩
    | failed =>
      obtain ⟨rfl, rfl⟩ := Prod.mk.inj (Option.some.inj h)
      exact Or.inr ⟨rfl, rfl, idle_conclude⟩
    | _ =>
      obtain ⟨effect, pc', hp, hs', hjob'⟩ := hmap h
      exact Or.inl ⟨_, effect, pc', rfl, hstep effect pc' hp, hp, hs', hjob'⟩
  | _ =>
    obtain ⟨hstore, hidle⟩ := hturn.leaves (Or.inl fun pc heq => by cases heq)
    exact Or.inr ⟨rfl, hstore, hidle⟩

/-! ## Turns of the online host -/

section Online

variable {store : Store β} {config : ServerConfig} {host host' : Host β} {dest dest' : Dest β}
  {online : OnlineJob P} {pc pc' : RequestPc P.down.St} {effect : Effect β} {torn : List String}

/-- A request of a deployment or a switch has switched `active`. -/
def RequestPc.Switched {St : Type} : RequestPc St → Prop
  | .pull args (.print _) => args.switchActive = true
  | .pull args (.done _) => args.switchActive = true
  | .config _ => True
  | .unlink _ => True
  | .symlink _ => True
  | .reload _ => True
  | _ => False

/-- What one statement of a request to the online host can do: it is a turn of its pull or
of its switch, it goes on for the build that is there, it ends, or it takes up a version. -/
inductive OnlineTurn (P : Provider β) (store : Store β) (request : OnlineRequest) (host : Host β)
    (pc : RequestPc P.down.St) : Effect β → Host β → RequestPc P.down.St → Prop
  | pull (effect : Effect β) (pc' : RequestPc P.down.St) (hargs : pc'.args = pc.args)
      (htakes : pc.takesUp = pc.pullPc.takesUp)
      (hkeeps : ∀ args p, pc' = .pull args p → ∃ p', pc = .pull args p')
      (hswitched : pc'.Switched → ∃ b, pc.pullPc = .link b .replace)
      (hturn : PullTurn P pc.args store host.dest pc.pullPc effect pc'.pullPc) :
      OnlineTurn P store request host pc effect
        { host with dest := effect.onDest host.dest } pc'
  | stay (b : String) (served : Option ServerTable) (pc' : RequestPc P.down.St)
      (hpc : pc.pullPc = .print b) (hpc' : pc'.pullPc = .print b)
      (hserved : served = host.served ∨ served = none ∨
        served = some (.release "active") ∧ pc.Switched)
      (hkeeps : ∀ args p, pc' = .pull args p → ∃ p', pc = .pull args p')
      (hswitched : pc'.Switched → pc.Switched ∨
        ∃ release args r, request = .release release ∧ pc = .pull args (.done r)) :
      OnlineTurn P store request host pc .quiet { host with served } pc'
  | ends (pc' : RequestPc P.down.St)
      (hpc' : (∃ b, pc' = .failed b) ∨ ∃ b, pc' = .answered b) :
      OnlineTurn P store request host pc .quiet host pc'
  | adopt (buildId : Option String) (b : String) (hpc : pc = .switch buildId)
      (hid : Request.switchId host.dest buildId = some b) :
      OnlineTurn P store request host pc .quiet host (.link b .clear)

theorem onTorn_symlinkStep {lpc : LinkPc} {next : Option LinkPc} {target : String}
    (h : symlinkStep dest target lpc = some (effect, next)) : effect.onTorn torn = torn := by
  cases lpc with
  | clear =>
    simp only [symlinkStep] at h
    split at h <;> cases h <;> rfl
  | link =>
    simp only [symlinkStep] at h
    split at h <;> cases h
    rfl
  | replace =>
    simp only [symlinkStep] at h
    split at h <;> cases h
    rfl

/-- The last statement of a switch renames the link. -/
theorem symlinkStep_last {lpc : LinkPc} {target : String}
    (h : symlinkStep dest target lpc = some (effect, none)) : lpc = .replace := by
  cases lpc with
  | clear =>
    simp only [symlinkStep] at h
    split at h <;> cases h
  | link =>
    simp only [symlinkStep] at h
    split at h <;> cases h
  | replace => rfl

theorem pullStep_dest (args : PullArgs) (d : String) (pc : PullPc P.down.St) :
    pullStep P { args with dest := d } store dest choice pc =
      pullStep P args store dest choice pc := by
  cases pc with
  | pruning b rest => cases rest <;> rfl
  | _ => rfl

theorem done_of_pull {args : PullArgs} {p : PullPc P.down.St} {b : String}
    (h : PullTurn P args store dest p effect (.done b)) : p = .print b := by
  generalize hp' : PullPc.done b = p' at h
  cases h with
  | resolve p' hp => rcases hp with rfl | ⟨b, rfl | rfl⟩ <;> cases hp'
  | pruned r p' hp => rcases hp with ⟨-, rfl⟩ | ⟨-, rfl⟩ <;> cases hp'
  | link r lpc effect next hstep => cases next <;> cases hp'
  | remove r t hthere => cases t <;> cases hp'
  | exit r =>
    cases hp'
    rfl
  | _ => cases hp'

/-- A pull exits without switching only when it is not to switch. -/
theorem switched_of_pull {args : PullArgs} {d : String} {p p' : PullPc P.down.St}
    (h : PullTurn P { args with dest := d } store dest p effect p')
    (hswitched : (RequestPc.pull args p').Switched) (hpc : ∀ b, p ≠ .print b) :
    ∃ b, p = .link b .replace := by
  cases h with
  | resolve p' hp => rcases hp with rfl | ⟨b, rfl | rfl⟩ <;> cases hswitched
  | pruned b p' hp =>
    rcases hp with ⟨-, rfl⟩ | ⟨hno, rfl⟩
    · cases hswitched
    · exact absurd (hno.symm.trans hswitched) Bool.false_ne_true
  | link b lpc effect next hstep =>
    cases next with
    | none => exact ⟨b, congrArg _ (symlinkStep_last hstep)⟩
    | some next => cases hswitched
  | remove b t hthere => cases t <;> cases hswitched
  | exit b => exact absurd rfl (hpc b)
  | _ => cases hswitched

/-- A statement of the pull itself, before its last line. -/
theorem pull_onlineTurn {request : OnlineRequest} {seen : List (String × DirTree β)}
    {args : PullArgs} {p : PullPc P.down.St}
    (h : Request.step P store config (host, .pull args p) choice = some (host', pc'))
    (hprint : ∀ b, p ≠ .print b) (hdone : ∀ b, p ≠ .done b) (hfailed : p ≠ .failed) :
    ∃ effect, OnlineTurn P store request host (.pull args p) effect host' pc' ∧
      ∀ torn, (OnlineJob.effect store host.dest ⟨request, .pull args p, seen⟩ choice).onTorn torn =
        effect.onTorn torn := by
  rcases Request.step_pull h with ⟨effect, p', hstep, heq⟩ | ⟨b, hp, -⟩ | ⟨hp, -⟩
  · obtain ⟨rfl, rfl⟩ := Prod.mk.inj heq
    have hp : (RequestPc.pull args p).pullPc = p := by
      cases p with
      | done b => exact absurd rfl (hdone b)
      | _ => rfl
    have hturn : PullTurn P { args with dest := "releases" } store host.dest p effect p' :=
      pullTurn (by rw [pullStep_dest]; exact hstep)
    have hp' : (RequestPc.pull args p').pullPc = p' := by
      cases p' with
      | done b => exact absurd (done_of_pull hturn) (hprint b)
      | _ => rfl
    refine ⟨effect, .pull effect (.pull args p') rfl ?_ ?_ ?_ ?_, fun torn => ?_⟩
    · rfl
    · rintro args' q he
      obtain ⟨rfl, -⟩ := RequestPc.pull.inj he
      exact ⟨p, rfl⟩
    · rw [hp]
      exact fun hswitched => switched_of_pull hturn hswitched hprint
    · rw [hp, hp']
      exact hturn
    · simp only [OnlineJob.effect, hstep, Option.map_some, Option.getD_some]
  · exact absurd hp (hdone b)
  · exact absurd hp hfailed

theorem onlineTurn (h : online.request.step P store config (host, online.pc) choice =
    some (host', pc')) :
    ∃ effect, OnlineTurn P store online.request host online.pc effect host' pc' ∧
      ∀ torn, (online.effect store host.dest choice).onTorn torn = effect.onTorn torn := by
  obtain ⟨request, pc, seen⟩ := online
  have hrelease : (∀ args b, pc ≠ .pull args (.done b)) →
      Request.step P store config (host, pc) choice = some (host', pc') := fun hpc => by
    cases request with
    | release request => exact h
    | pullIndex buildId forceRefresh maxLocalVersions switchActive =>
      cases pc with
      | pull args p =>
        cases p with
        | done b => exact absurd rfl (hpc args b)
        | _ => exact h
      | _ => exact h
  cases pc with
  | pull args p =>
    cases p with
    | print b =>
      have h := hrelease fun args b he => by cases he
      obtain ⟨rfl, rfl⟩ := Prod.mk.inj (Option.some.inj h)
      refine ⟨.quiet, .stay b host.served _ rfl rfl (Or.inl rfl) ?_ fun hs => Or.inl hs,
        fun torn => rfl⟩
      rintro args' q he
      obtain ⟨rfl, -⟩ := RequestPc.pull.inj he
      exact ⟨_, rfl⟩
    | done b =>
      cases request with
      | pullIndex buildId forceRefresh maxLocalVersions switchActive =>
        obtain ⟨rfl, rfl⟩ := Prod.mk.inj (Option.some.inj h)
        refine ⟨.quiet, .ends _ ?_, fun torn => rfl⟩
        split
        · exact Or.inl ⟨_, rfl⟩
        · exact Or.inr ⟨_, rfl⟩
      | release request =>
        obtain ⟨rfl, rfl⟩ := Prod.mk.inj (Option.some.inj h)
        split
        · exact ⟨.quiet, .ends _ (Or.inl ⟨_, rfl⟩), fun torn => rfl⟩
        · exact ⟨.quiet, .stay b _ _ rfl rfl (Or.inl rfl) (fun args p he => by cases he)
            fun _ => Or.inr ⟨request, args, b, rfl, rfl⟩, fun torn => rfl⟩
    | failed =>
      have h := hrelease fun args b he => by cases he
      obtain ⟨rfl, rfl⟩ := Prod.mk.inj (Option.some.inj h)
      exact ⟨.quiet, .ends _ (Or.inl ⟨_, rfl⟩), fun torn => rfl⟩
    | _ =>
      have h := hrelease fun args b he => by cases he
      exact pull_onlineTurn h (fun b he => by cases he) (fun b he => by cases he)
        fun he => by cases he
  | switch buildId =>
    have h := hrelease fun args b he => by cases he
    simp only [Request.step] at h
    split at h
    · next b hb =>
      obtain ⟨rfl, rfl⟩ := Prod.mk.inj (Option.some.inj h)
      exact ⟨.quiet, .adopt buildId b rfl hb, fun torn => rfl⟩
    · obtain ⟨rfl, rfl⟩ := Prod.mk.inj (Option.some.inj h)
      exact ⟨.quiet, .ends _ (Or.inl ⟨_, rfl⟩), fun torn => rfl⟩
  | link b lpc =>
    have h := hrelease fun args b he => by cases he
    obtain ⟨⟨effect, next⟩, hstep, heq⟩ := Option.map_eq_some_iff.mp h
    obtain ⟨rfl, rfl⟩ := Prod.mk.inj heq
    have htorn : ∀ torn, (OnlineJob.effect store host.dest
        (⟨request, .link b lpc, seen⟩ : OnlineJob P) choice).onTorn torn = effect.onTorn torn :=
      fun torn => (onTorn_symlinkStep hstep).symm
    cases next with
    | none =>
      obtain rfl := symlinkStep_last hstep
      exact ⟨effect, .pull effect _ rfl rfl (fun args p he => by cases he) (fun _ => ⟨b, rfl⟩)
        (.link b .replace effect none hstep), htorn⟩
    | some next =>
      exact ⟨effect, .pull effect _ rfl rfl (fun args p he => by cases he) (fun hs => by cases hs)
        (.link b lpc effect (some next) hstep), htorn⟩
  | config b =>
    have h := hrelease fun args b he => by cases he
    obtain ⟨rfl, rfl⟩ := Prod.mk.inj (Option.some.inj h)
    split
    · exact ⟨.quiet, .stay b _ _ rfl rfl (Or.inl rfl) (fun args p he => by cases he)
        fun _ => Or.inl trivial, fun torn => rfl⟩
    · exact ⟨.quiet, .ends _ (Or.inl ⟨_, rfl⟩), fun torn => rfl⟩
  | unlink b =>
    have h := hrelease fun args b he => by cases he
    simp only [Request.step] at h
    split at h
    · cases h
    · obtain ⟨rfl, rfl⟩ := Prod.mk.inj (Option.some.inj h)
      exact ⟨.quiet, .stay b none _ rfl rfl (Or.inr (Or.inl rfl)) (fun args p he => by cases he)
        fun _ => Or.inl trivial, fun torn => rfl⟩
  | symlink b =>
    have h := hrelease fun args b he => by cases he
    simp only [Request.step] at h
    split at h
    · cases h
    · obtain ⟨rfl, rfl⟩ := Prod.mk.inj (Option.some.inj h)
      exact ⟨.quiet, .stay b _ _ rfl rfl (Or.inr (Or.inr ⟨rfl, trivial⟩))
        (fun args p he => by cases he) fun _ => Or.inl trivial, fun torn => rfl⟩
  | reload b =>
    have h := hrelease fun args b he => by cases he
    obtain ⟨rfl, rfl⟩ := Prod.mk.inj (Option.some.inj h)
    exact ⟨.quiet, .ends _ (Or.inr ⟨_, rfl⟩), fun torn => rfl⟩
  | answered b =>
    have h := hrelease fun args b he => by cases he
    cases h
  | failed b =>
    have h := hrelease fun args b he => by cases he
    cases h

/-- `active` leads where it led after every statement of a pull, except for the one that
renames the link. -/
theorem active_turn {args : PullArgs} {seen : List (String × DirTree β)} {p p' : PullPc P.down.St}
    (hok : PullOk P store dest torn seen p) (h : PullTurn P args store dest p effect p') :
    ((∀ b, p ≠ .link b .replace) ∧ ∀ b, (effect.onDest dest).lookup "active" = some (.link b) ↔
      dest.lookup "active" = some (.link b)) ∨
    ∃ b, p = .link b .replace ∧ p' = .print b ∧ effect = .replace "active.tmp" "active" := by
  have hwrite : ∀ (name : String) (t : Option (DirTree β)),
      (name ∉ dest ∨ (treeAt dest name).isSome = true) → ∀ b,
        ((Effect.write name t).onDest dest).lookup "active" = some (.link b) ↔
          dest.lookup "active" = some (.link b) := by
    intro name t hname b
    by_cases hactive : "active" = name
    · subst hactive
      refine iff_of_false (fun hl => ?_) fun hl => ?_
      · have hnone := treeAt_link hl
        rw [treeAt_write] at hnone
        subst hnone
        rw [Effect.onDest, AList.lookup_erase] at hl
        cases hl
      · rcases hname with hnot | hsome
        · rw [AList.lookup_eq_none.mpr hnot] at hl
          cases hl
        · rw [treeAt_link hl] at hsome
          cases hsome
    · rw [lookup_onDest_write t hactive]
  cases h with
  | remove r t hthere => exact Or.inl ⟨(fun b he => by cases he), hwrite r t (Or.inr hthere)⟩
  | make r st hnew => exact Or.inl ⟨(fun b he => by cases he), hwrite r _ (Or.inl hnew)⟩
  | copy r st choice t st' hstep =>
    obtain ⟨-, -, u, -, v, hv, -⟩ := hok
    exact Or.inl ⟨(fun b he => by cases he), hwrite r t (Or.inr (by rw [hv]; rfl))⟩
  | victim r victim rest t hthere =>
    exact Or.inl ⟨(fun b he => by cases he), hwrite victim t (Or.inr hthere)⟩
  | fail p hexits =>
    refine Or.inl ⟨fun b he => ?_, fun b => Iff.rfl⟩
    rw [he] at hexits
    exact hexits
  | link r lpc effect next hstep =>
    cases lpc with
    | clear =>
      refine Or.inl ⟨(fun b he => by cases he), fun b => ?_⟩
      simp only [symlinkStep] at hstep
      split at hstep <;> cases hstep
      · rw [Effect.onDest, AList.lookup_erase_ne (by decide)]
      · exact Iff.rfl
    | link =>
      refine Or.inl ⟨(fun b he => by cases he), fun b => ?_⟩
      simp only [symlinkStep] at hstep
      split at hstep <;> cases hstep
      rw [Effect.onDest, AList.lookup_insert_ne (by decide)]
    | replace =>
      right
      simp only [symlinkStep] at hstep
      split at hstep <;> cases hstep
      exact ⟨r, rfl, rfl, rfl⟩
  | _ => exact Or.inl ⟨(fun b he => by cases he), fun b => Iff.rfl⟩

end Online

end YikvServer.Agent
