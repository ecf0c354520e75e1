import YikvServer.Theory.Prog
import YikvServer.Theory.Runs
import Mathlib.Data.List.Range
import Mathlib.Data.List.Perm.Subperm
import Mathlib.Data.List.Nodup

/-!
# Serial explanations of interleaved programs

Each job of a pool is a program whose store changes come last. A job that has
not changed the store yet is *stable* while the rest of it would do what the
whole job would do from the current store. If no move of one job spoils the
stability of another, every complete interleaving leaves the store that the
jobs leave one after another, in the order of their changes.
-/
namespace YikvServer.Theory.Interleave

open Prog

variable {ε Op α σ : Type} {Res : Op → Type} (exec : (o : Op) → σ → Res o × σ)

/-- The shared store and what is left of each job. -/
structure Pool (σ : Type) (ε : Type) {Op : Type} (Res : Op → Type) (α : Type) where
  store : σ
  left : List (Prog ε Res α)

/-- Perform the next operation of one program. -/
def advance (s : σ) : Prog ε Res α → Option (σ × Prog ε Res α)
  | .step o k => some ((exec o s).2, k (exec o s).1)
  | _ => none

/-- Job `i` performs its next operation. -/
def move (P : Pool σ ε Res α) (i : Nat) : Option (Pool σ ε Res α) :=
  (P.left[i]?).bind fun q =>
    (advance exec P.store q).map fun r => ⟨r.1, P.left.set i r.2⟩

/-- The jobs one after another, each run alone. -/
def serial (jobs : List (Prog ε Res α)) (s : σ) : σ :=
  jobs.foldl (fun s p => (run exec p s).2) s

/-- The rest of a job does what the whole job would do from here. -/
def Stable (p q : Prog ε Res α) (s : σ) : Prop := (run exec q s).2 = (run exec p s).2

/-- No result depends on the store. -/
def Blind : Prog ε Res α → Prop
  | .step o k => (∀ s t, (exec o s).1 = (exec o t).1) ∧ ∀ r, Blind (k r)
  | _ => True

/-- What is left of a blind job: all of its effect, whatever the store, or none. -/
def Unread (p q : Prog ε Res α) : Prop :=
  (Blind exec q ∧ WritesLast exec q ∧ ∀ s, Stable exec p q s) ∨ Quiet exec q

/-- The move of `i` keeps the other unfinished jobs stable. -/
def Undisturbed (jobs : List (Prog ε Res α)) (P : Pool σ ε Res α) (i : Nat) : Prop :=
  ∀ P', move exec P i = some P' → ∀ j p q, j ≠ i → jobs[j]? = some p → P.left[j]? = some q →
    ¬ Quiet exec q → Stable exec p q P.store → Stable exec p q P'.store

variable {exec} {jobs : List (Prog ε Res α)} {P P' : Pool σ ε Res α} {s₀ : σ} {i : Nat}

theorem move_eq_some : move exec P i = some P' ↔
    ∃ o k, P.left[i]? = some (.step o k) ∧
      P' = ⟨(exec o P.store).2, P.left.set i (k (exec o P.store).1)⟩ := by
  constructor
  · intro h
    obtain ⟨q, hq, h⟩ := Option.bind_eq_some_iff.mp h
    cases q with
    | step o k => exact ⟨o, k, hq, (Option.some.inj h).symm⟩
    | pure a => cases h
    | fail e => cases h
  · rintro ⟨o, k, hq, rfl⟩
    simp [move, hq, advance]

theorem Unread.step {p : Prog ε Res α} {o : Op} {k : Res o → Prog ε Res α}
    (h : Unread exec p (.step o k)) (s : σ) : Unread exec p (k (exec o s).1) := by
  rcases h with ⟨⟨hsame, hblind⟩, hw, hstable⟩ | ⟨-, hquiet⟩
  · rcases hw with ⟨hread, hw⟩ | hlast
    · refine Or.inl ⟨hblind _, hw _, fun t => ?_⟩
      have ht := hstable t
      unfold Stable at ht ⊢
      rwa [run_step, hread t, hsame t s] at ht
    · exact Or.inr (hlast _)
  · exact Or.inr (hquiet _)

/-- The jobs named by a list of positions. -/
def pick (jobs : List (Prog ε Res α)) (order : List Nat) : List (Prog ε Res α) :=
  order.filterMap fun i => jobs[i]?

theorem serial_pick_snoc {order : List Nat} {p : Prog ε Res α} (hp : jobs[i]? = some p) (s : σ) :
    serial exec (pick jobs (order ++ [i])) s =
      (run exec p (serial exec (pick jobs order) s)).2 := by
  simp [pick, serial, hp]

/-- The store is explained by the jobs in `order`; these change nothing any more,
and every other job is stable. -/
structure Explained (exec : (o : Op) → σ → Res o × σ) (jobs : List (Prog ε Res α)) (s₀ : σ)
    (P : Pool σ ε Res α) (order : List Nat) : Prop where
  length_eq : P.left.length = jobs.length
  nodup : order.Nodup
  bound : ∀ i ∈ order, i < jobs.length
  store_eq : P.store = serial exec (pick jobs order) s₀
  quiet : ∀ i ∈ order, ∀ q, P.left[i]? = some q → Quiet exec q
  stable : ∀ i, i ∉ order → ∀ p q, jobs[i]? = some p → P.left[i]? = some q →
    WritesLast exec q ∧ Stable exec p q P.store

theorem explained_start (hw : ∀ p ∈ jobs, WritesLast exec p) :
    Explained exec jobs s₀ ⟨s₀, jobs⟩ [] := by
  refine ⟨rfl, List.nodup_nil, by simp, rfl, by simp, ?_⟩
  intro i _ p q hp hq
  have he : p = q := Option.some.inj (hp.symm.trans hq)
  subst he
  exact ⟨hw p (List.mem_of_getElem? hp), rfl⟩

/-- A job with nothing left to change can be explained where the store stands. -/
theorem Explained.absorb {order : List Nat} (h : Explained exec jobs s₀ P order)
    (hi : i ∉ order) {p q : Prog ε Res α} (hp : jobs[i]? = some p) (hq : P.left[i]? = some q)
    (hquiet : Quiet exec q) : Explained exec jobs s₀ P (order ++ [i]) := by
  have hlt : i < jobs.length := (List.getElem?_eq_some_iff.mp hp).1
  have hstay : (run exec p P.store).2 = P.store := by
    rw [← (h.stable i hi p q hp hq).2, run_quiet hquiet]
  refine ⟨h.length_eq, ?_, ?_, ?_, ?_, ?_⟩
  · exact List.nodup_append.mpr ⟨h.nodup, by simp, by
      intro a ha b hb
      obtain rfl := List.mem_singleton.mp hb
      exact fun hab => hi (hab ▸ ha)⟩
  · intro j hj
    rcases List.mem_append.mp hj with hj | hj
    · exact h.bound j hj
    · exact (List.mem_singleton.mp hj) ▸ hlt
  · rw [serial_pick_snoc hp, ← h.store_eq, hstay]
  · intro j hj r hr
    rcases List.mem_append.mp hj with hj | hj
    · exact h.quiet j hj r hr
    · obtain rfl := List.mem_singleton.mp hj
      exact (Option.some.inj (hq.symm.trans hr)) ▸ hquiet
  · intro j hj
    exact h.stable j fun hmem => hj (List.mem_append_left _ hmem)

/-- All jobs of `is` that have nothing left to change can be explained at once. -/
theorem Explained.flush {order : List Nat} (h : Explained exec jobs s₀ P order)
    (is : List Nat) : ∃ order', Explained exec jobs s₀ P order' ∧ order ⊆ order' ∧
      ∀ i ∈ is, ∀ q, P.left[i]? = some q → Quiet exec q → i ∈ order' := by
  induction is with
  | nil => exact ⟨order, h, List.Subset.refl _, by simp⟩
  | cons i is ih =>
    obtain ⟨order', h', hsub, hall⟩ := ih
    by_cases hin : i ∈ order' ∨ ∀ q, P.left[i]? = some q → ¬ Quiet exec q
    · refine ⟨order', h', hsub, ?_⟩
      intro j hj q hq hquiet
      rcases List.mem_cons.mp hj with rfl | hj
      · exact hin.resolve_right fun hno => hno q hq hquiet
      · exact hall j hj q hq hquiet
    · push Not at hin
      obtain ⟨hi, q, hq, hquiet⟩ := hin
      have hlt : i < jobs.length := h'.length_eq ▸ (List.getElem?_eq_some_iff.mp hq).1
      obtain ⟨p, hp⟩ : ∃ p, jobs[i]? = some p := ⟨_, List.getElem?_eq_getElem hlt⟩
      refine ⟨order' ++ [i], h'.absorb hi hp hq hquiet,
        fun j hj => List.mem_append_left _ (hsub hj), ?_⟩
      intro j hj r hr hrq
      rcases List.mem_cons.mp hj with rfl | hj
      · simp
      · exact List.mem_append_left _ (hall j hj r hr hrq)

/-- One undisturbed move keeps the store explained: a read changes nothing, and
a change appends its job to the order. -/
theorem Explained.move {order : List Nat} (h : Explained exec jobs s₀ P order)
    (hguard : Undisturbed exec jobs P i) (hmove : Interleave.move exec P i = some P') :
    ∃ order', Explained exec jobs s₀ P' order' := by
  obtain ⟨order', h', -, hflush⟩ := h.flush (List.range jobs.length)
  obtain ⟨o, k, hq, rfl⟩ := move_eq_some.mp hmove
  have hlt : i < P.left.length := (List.getElem?_eq_some_iff.mp hq).1
  have hlt' : i < jobs.length := h'.length_eq ▸ hlt
  obtain ⟨p, hp⟩ : ∃ p, jobs[i]? = some p := ⟨_, List.getElem?_eq_getElem hlt'⟩
  have hself : (P.left.set i (k (exec o P.store).1))[i]? = some (k (exec o P.store).1) := by
    simp [hlt]
  have hother : ∀ j, j ≠ i → (P.left.set i (k (exec o P.store).1))[j]? = P.left[j]? := by
    intro j hj
    exact List.getElem?_set_ne (Ne.symm hj)
  have hlen : (P.left.set i (k (exec o P.store).1)).length = jobs.length := by
    rw [List.length_set, h'.length_eq]
  -- A read leaves every other job where it was.
  have hread : (exec o P.store).2 = P.store → (i ∈ order' → Quiet exec (k (exec o P.store).1)) →
      (i ∉ order' → WritesLast exec (k (exec o P.store).1)) →
      ∃ order', Explained exec jobs s₀
        ⟨(exec o P.store).2, P.left.set i (k (exec o P.store).1)⟩ order' := by
    intro hsame hin hout
    refine ⟨order', hlen, h'.nodup, h'.bound, hsame.trans h'.store_eq, ?_, ?_⟩
    · intro j hj r hr
      by_cases hji : j = i
      · subst hji
        rw [hself] at hr
        exact Option.some.inj hr ▸ hin hj
      · exact h'.quiet j hj r ((hother j hji).symm.trans hr)
    · intro j hj p' r hp' hr
      by_cases hji : j = i
      · subst hji
        rw [hself] at hr
        obtain rfl := Option.some.inj hr
        refine ⟨hout hj, ?_⟩
        have hst := (h'.stable j hj p' _ hp' hq).2
        unfold Stable at hst ⊢
        rw [run_step] at hst
        rw [hst]
        simp only [hsame]
      · obtain ⟨hw, hst⟩ := h'.stable j hj p' r hp' ((hother j hji).symm.trans hr)
        refine ⟨hw, ?_⟩
        simpa only [hsame] using hst
  by_cases hin : i ∈ order'
  · obtain ⟨hro, hrest⟩ := h'.quiet i hin _ hq
    exact hread (hro _) (fun _ => hrest _) fun hno => absurd hin hno
  · obtain ⟨hw, hst⟩ := h'.stable i hin p _ hp hq
    rcases hw with ⟨hro, hrest⟩ | hlast
    · exact hread (hro _) (fun hyes => absurd hyes hin) fun _ => hrest _
    · -- The change: the job is explained by its own run from here.
      have hrun : (run exec p P.store).2 = (exec o P.store).2 := by
        rw [← hst, run_step, run_quiet (hlast _)]
      refine ⟨order' ++ [i], hlen, ?_, ?_, ?_, ?_, ?_⟩
      · exact List.nodup_append.mpr ⟨h'.nodup, by simp, by
          intro a ha b hb
          obtain rfl := List.mem_singleton.mp hb
          exact fun hab => hin (hab ▸ ha)⟩
      · intro j hj
        rcases List.mem_append.mp hj with hj | hj
        · exact h'.bound j hj
        · exact (List.mem_singleton.mp hj) ▸ hlt'
      · rw [serial_pick_snoc hp, ← h'.store_eq, hrun]
      · intro j hj r hr
        by_cases hji : j = i
        · subst hji
          rw [hself] at hr
          exact Option.some.inj hr ▸ hlast _
        · have hj' : j ∈ order' := by
            rcases List.mem_append.mp hj with hj | hj
            · exact hj
            · exact absurd (List.mem_singleton.mp hj) hji
          exact h'.quiet j hj' r ((hother j hji).symm.trans hr)
      · intro j hj p' r hp' hr
        have hji : j ≠ i := fun he => hj (by simp [he])
        have hj' : j ∉ order' := fun hmem => hj (List.mem_append_left _ hmem)
        have hr' : P.left[j]? = some r := (hother j hji).symm.trans hr
        obtain ⟨hw, hst'⟩ := h'.stable j hj' p' r hp' hr'
        have hjlt : j < jobs.length := (List.getElem?_eq_some_iff.mp hp').1
        have hnq : ¬ Quiet exec r := fun hquiet =>
          hj' (hflush j (List.mem_range.mpr hjlt) r hr' hquiet)
        exact ⟨hw, hguard _ hmove j p' r hji hp' hr' hnq hst'⟩

theorem pick_range (jobs : List (Prog ε Res α)) :
    pick jobs (List.range jobs.length) = jobs := by
  induction jobs with
  | nil => rfl
  | cons p ps ih =>
    have hrest : (List.range ps.length).filterMap (fun i => (p :: ps)[i + 1]?) = ps := by
      simpa [pick] using ih
    rw [List.length_cons, List.range_succ_eq_map]
    simpa [pick, List.filterMap_map, Function.comp_def] using hrest

/-- Picking every position once, in any order, gives the jobs in that order. -/
theorem pick_perm {order : List Nat} (h : order.Perm (List.range jobs.length)) :
    (pick jobs order).Perm jobs :=
  (h.filterMap _).trans (List.Perm.of_eq (pick_range jobs))

/-- A complete run in which no move disturbs another job leaves the store of
some serial order of the jobs. -/
theorem serializable {sched : List Nat} (hw : ∀ p ∈ jobs, WritesLast exec p)
    (hrun : Runs.exec (move exec) ⟨s₀, jobs⟩ sched = some P)
    (hguard : Runs.Guarded (move exec) (Undisturbed exec jobs) ⟨s₀, jobs⟩ sched)
    (hdone : ∀ q ∈ P.left, q.finished = true) :
    ∃ order : List (Prog ε Res α), order.Perm jobs ∧ P.store = serial exec order s₀ := by
  have hinv : ∃ order, Explained exec jobs s₀ P order :=
    Runs.guarded_invariant (P := fun P => ∃ order, Explained exec jobs s₀ P order)
      (fun _ _ _ ⟨_, h⟩ hok hm => h.move hok hm) hguard hrun ⟨[], explained_start hw⟩
  obtain ⟨order, h⟩ := hinv
  obtain ⟨order', h', -, hflush⟩ := h.flush (List.range jobs.length)
  have hall : ∀ i < jobs.length, i ∈ order' := by
    intro i hi
    have hlt : i < P.left.length := h'.length_eq ▸ hi
    have hq : P.left[i]? = some P.left[i] := List.getElem?_eq_getElem hlt
    refine hflush i (List.mem_range.mpr hi) _ hq ?_
    have hfin := hdone _ (List.getElem_mem hlt)
    cases hcase : P.left[i] with
    | step o k => rw [hcase] at hfin; cases hfin
    | pure a => trivial
    | fail e => trivial
  have hperm : order'.Perm (List.range jobs.length) :=
    (List.perm_ext_iff_of_nodup h'.nodup List.nodup_range).mpr fun i =>
      ⟨fun hi => List.mem_range.mpr (h'.bound i hi), fun hi => hall i (List.mem_range.mp hi)⟩
  exact ⟨pick jobs order', pick_perm hperm, h'.store_eq⟩

end YikvServer.Theory.Interleave
