import YikvServer.Agent.Turns

/-!
# What the requests of a build host have in hand

While builds and pushes keep out of each other's way: one request is in the `with` block, a
tree that is copied is the one that a finished import has left, and nobody else writes the
build that a push has in hand.
-/
namespace YikvServer.Agent

open YikvServer.Theory YikvServer.Theory.FileTree YikvServer.Artifact

variable {β : Type} {P : Provider β} {settings : Settings} {s s' : Shared β} {i j : Nat}
  {job job' other : Job P} {w w' : BuildHost P} {src src' : Option (DirTree β)}
  {store store' : Store β} {b : String}

/-- In the `with` block. -/
def Job.inside (job : Job P) : Bool :=
  match job.pc with
  | .acquire => false
  | .isDir => job.request.locks
  | .push _ => job.request.locks
  | .ended _ => false
  | _ => true

/-- A push that has ended its copy, and what follows when it is answered. -/
def JobPc.delivered {St : Type} : JobPc St → Bool
  | .push pc => pushed pc
  | .release (.ok (some _)) => true
  | .ended (.ok (some _)) => true
  | _ => false

/-- A tree that an undisturbed push has brought into the store. -/
def Brought (P : Provider β) (finished : List (DirTree β)) (got : Option (DirTree β)) : Prop :=
  ∃ t ∈ finished, P.up.Copies (some t) P.fresh got

/-- What holds of request `i`. -/
structure JobOk (s : Shared β) (i : Nat) (job : Job P) : Prop where
  lock : job.inside = true → s.lock = some i
  source : ∀ t, job.source = some t → t ∈ s.finished
  building : job.pc.builds = true → s.whole = false
  built : job.request.locks = true → job.pc = .isDir → (directory s.index).isSome = true →
    s.whole = true
  publishing : job.request.locks = true → ∀ pc, job.pc = .push pc → job.source = none →
    s.whole = true
  copying : job.pc.copies = true → job.source = none → s.whole = true
  push : ∀ pc, job.pc = .push pc → PushHold P (job.reads s) s.store pc
  got : job.pc.delivered = true → Brought P s.finished job.got

/-- The invariant. -/
structure Orderly (w : BuildHost P) : Prop where
  closed : Closed (directory w.shared.index)
  elsewhere : ∀ t, linked w.shared.index = some t → t ∈ w.shared.finished
  finished : ∀ t ∈ w.shared.finished, Closed (some t)
  whole : w.shared.whole = true → ∃ t ∈ w.shared.finished, directory w.shared.index = some t
  jobs : ∀ (i : Nat) (job : Job P), w.jobs[i]? = some job → JobOk w.shared i job
  apart : ∀ (i j : Nat) (job other : Job P) b, w.jobs[i]? = some job → w.jobs[j]? = some other →
    i ≠ j → job.pc.changes b = true → other.pc.changes b = false

/-! ## Lemmas on the statements -/

theorem inside_of_early (h : job.pc.early = true) : job.inside = true := by
  obtain ⟨request, pc, source, got⟩ := job
  cases pc <;> first | rfl | cases h

theorem early_of_builds {St : Type} {pc : JobPc St} (h : pc.builds = true) : pc.early = true := by
  cases pc <;> first | rfl | cases h

theorem inside_of_busy (h : job.pc.busy = true) (hlocks : job.request.locks = true) :
    job.inside = true := by
  obtain ⟨request, pc, source, got⟩ := job
  cases pc with
  | acquire => cases h
  | release result => cases h
  | ended result => cases h
  | isDir => exact hlocks
  | push pc => exact hlocks
  | _ => rfl

theorem push_of_copies {St : Type} {pc : JobPc St} (h : pc.copies = true) :
    ∃ p, pc = .push p := by
  cases pc with
  | push p => exact ⟨p, rfl⟩
  | _ => cases h

theorem Brought.mono {finished finished' : List (DirTree β)} {got : Option (DirTree β)}
    (h : Brought P finished got) (hsub : finished ⊆ finished') : Brought P finished' got := by
  obtain ⟨t, ht, hcopy⟩ := h
  exact ⟨t, hsub ht, hcopy⟩

theorem inside_conclude {result : Except HttpError (Option String)} {source : Option (DirTree β)}
    (h : ({ job with source, pc := job.request.conclude result } : Job P).inside = true) :
    job.request.locks = true := by
  cases hlocks : job.request.locks with
  | true => rfl
  | false =>
    simp only [Job.inside, BuildRequest.conclude, hlocks] at h
    exact h

theorem delivered_conclude {St : Type} {request : BuildRequest}
    {result : Except HttpError (Option String)} :
    (request.conclude result : JobPc St).delivered =
      (JobPc.ended result : JobPc St).delivered := by
  unfold BuildRequest.conclude
  split
  · cases result with
    | error e => rfl
    | ok b => cases b <;> rfl
  · rfl

/-- A request that goes on without a push. -/
theorem JobOk.plain (hlock : job.inside = true → s.lock = some i)
    (hsource : ∀ t, job.source = some t → t ∈ s.finished)
    (hbuilds : job.pc.builds = true → s.whole = false) (hpush : ∀ pc, job.pc ≠ .push pc)
    (hbuilt : job.request.locks = true → job.pc = .isDir →
      (directory s.index).isSome = true → s.whole = true)
    (hgot : job.pc.delivered = true → Brought P s.finished job.got) : JobOk s i job where
  lock := hlock
  source := hsource
  building := hbuilds
  built := hbuilt
  publishing _ pc hpc := absurd hpc (hpush pc)
  copying hcopies := by
    obtain ⟨pc, hpc⟩ := push_of_copies hcopies
    exact absurd hpc (hpush pc)
  push pc hpc := absurd hpc (hpush pc)
  got := hgot

/-- A request that goes on with its build. -/
theorem JobOk.of_early {pc : JobPc P.up.St} (hlock : s.lock = some i)
    (hsource : ∀ t, job.source = some t → t ∈ s.finished) (hpc : pc.early = true)
    (hbuilds : pc.builds = true → s.whole = false) : JobOk s i (job.goto pc) := by
  refine .plain (fun _ => hlock) hsource hbuilds ?_ ?_ ?_
  · rintro p rfl
    cases hpc
  · rintro - rfl
    cases hpc
  · intro hdel
    exfalso
    cases pc <;> first | cases hdel | cases hpc

/-- A request that goes on with its push. -/
theorem JobOk.of_push {pc : PushPc P.up.St} (hpc : job.pc = .push pc)
    (hlock : job.request.locks = true → s.lock = some i)
    (hsource : ∀ t, job.source = some t → t ∈ s.finished)
    (hwhole : job.request.locks = true → job.source = none → s.whole = true)
    (hcopies : (JobPc.push pc).copies = true → job.source = none → s.whole = true)
    (hhold : PushHold P (job.reads s) s.store pc)
    (hgot : pushed pc = true → Brought P s.finished job.got) : JobOk s i job where
  lock hin := by
    unfold Job.inside at hin
    rw [hpc] at hin
    exact hlock hin
  source := hsource
  building hb := by
    rw [hpc] at hb
    cases hb
  built _ he := by
    rw [hpc] at he
    cases he
  publishing hlocks _ _ := hwhole hlocks
  copying hc := by
    rw [hpc] at hc
    exact hcopies hc
  push p hp := by
    rw [hpc] at hp
    obtain rfl := JobPc.push.inj hp
    exact hhold
  got hd := by
    rw [hpc] at hd
    exact hgot hd

/-- A request that ends. -/
theorem JobOk.conclude (h : JobOk s i job) (hbusy : job.pc.busy = true)
    {result : Except HttpError (Option String)} {source : Option (DirTree β)}
    (hsource : ∀ t, source = some t → t ∈ s.finished)
    (hgot : (JobPc.ended result : JobPc P.up.St).delivered = true → Brought P s.finished job.got) :
    JobOk s i ({ job with source, pc := job.request.conclude result } : Job P) := by
  have hpc : ∀ pc : JobPc P.up.St, job.request.conclude result = pc →
      pc = .release result ∨ pc = .ended result := fun pc hpc => by
    unfold BuildRequest.conclude at hpc
    split at hpc
    · exact Or.inl hpc.symm
    · exact Or.inr hpc.symm
  refine .plain (fun hin => h.lock (inside_of_busy hbusy (inside_conclude hin))) hsource ?_ ?_ ?_ ?_
  · intro hbuilds
    rcases hpc _ rfl with he | he
    · rw [he] at hbuilds
      cases hbuilds
    · rw [he] at hbuilds
      cases hbuilds
  · intro pc he
    rcases hpc _ he with hr | hr
    · cases hr
    · cases hr
  · intro _ he
    rcases hpc _ he with hr | hr
    · cases hr
    · cases hr
  · intro hdel
    exact hgot (delivered_conclude.symm.trans hdel)

/-- A request outside the `with` block which reads nothing that changes. -/
theorem JobOk.outside (h : JobOk s i job) (hout : job.inside = false)
    (hfinished : s.finished ⊆ s'.finished) (hstore : s'.store = s.store)
    (hcopies : job.pc.copies = true → job.source ≠ none) : JobOk s' i job where
  lock hin := absurd (hout.symm.trans hin) Bool.false_ne_true
  source t ht := hfinished (h.source t ht)
  building hbuilds :=
    absurd (hout.symm.trans (inside_of_early (early_of_builds hbuilds))) Bool.false_ne_true
  built hlocks hpc :=
    absurd (hout.symm.trans (inside_of_busy (by rw [hpc]; rfl) hlocks)) Bool.false_ne_true
  publishing hlocks pc hpc :=
    absurd (hout.symm.trans (inside_of_busy (by rw [hpc]; rfl) hlocks)) Bool.false_ne_true
  copying hc hsource := absurd hsource (hcopies hc)
  push pc hpc := by
    refine (h.push pc hpc).frame (fun hc => ?_) fun b _ => by rw [hstore]
    have hsource := hcopies (by rw [hpc]; exact hc)
    obtain ⟨t, ht⟩ := Option.ne_none_iff_exists'.mp hsource
    rw [Job.reads, Job.reads, ht]
    rfl
  got hdel := (h.got hdel).mono hfinished

namespace Orderly

/-- Only one request is in the `with` block. -/
theorem inside_unique (h : Orderly w) (hi : w.jobs[i]? = some job) (hj : w.jobs[j]? = some other)
    (hne : j ≠ i) (hin : job.inside = true) : other.inside = false := by
  refine Bool.eq_false_iff.mpr fun hother => hne ?_
  exact Option.some.inj (((h.jobs j other hj).lock hother).symm.trans ((h.jobs i job hi).lock hin))

/-- A request whose directory is being deleted or rebuilt is not copying it. -/
theorem not_copies (h : Orderly w) (hj : w.jobs[j]? = some other)
    (hwhole : w.shared.whole = false) (hc : other.pc.copies = true) : other.source ≠ none :=
  fun hsource =>
    Bool.false_ne_true (hwhole.symm.trans ((h.jobs j other hj).copying hc hsource))

/-- Nobody else has a build in hand that a push writes or takes. -/
theorem alone (h : Orderly w) (hi : w.jobs[i]? = some job) (hcareful : job.Careful w)
    {pc pc' : PushPc P.up.St} {effect : Effect β} (hpc : job.pc = .push pc)
    (hturn : PushTurn P (job.reads w.shared) w.shared.store pc effect pc')
    (hb : effect.writes b ∨ pc'.changes b = true) (hj : w.jobs[j]? = some other) (hne : j ≠ i) :
    other.pc.changes b = false := by
  unfold Job.Careful at hcareful
  rw [hpc] at hcareful
  rcases hturn.takes hb with hin | ⟨rfl, hmem⟩ | ⟨rfl, hremote⟩ | ⟨st, rfl, hmem⟩
  · exact h.apart i j job other b hi hj (Ne.symm hne) (by rw [hpc]; exact hin)
  · exact hcareful hmem other (List.mem_of_getElem? hj)
  · have hlocal : P.isLocal ≠ true := by
      rw [hremote]
      exact Bool.false_ne_true
    exact (hcareful.2.resolve_left hlocal).2 other (List.mem_of_getElem? hj)
  · have hlocal := ((h.jobs i job hi).push _ hpc).1
    refine Bool.eq_false_iff.mpr fun hc => hmem ?_
    obtain ⟨request, opc, source, got⟩ := other
    cases opc with
    | push p => exact ((h.jobs j _ hj).push p rfl).mem_store hlocal hc
    | _ => cases hc

end Orderly

end YikvServer.Agent
