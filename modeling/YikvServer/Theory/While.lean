import Mathlib.Logic.Basic

/-!
# While loops

A loop with a guard and a body on a state. It is run with fuel, and running out of fuel
is `none`, never a result. A loop ends when some fuel is enough; it then ends in one state
only. An invariant with a variant makes a loop end, and an invariant that keeps the guard
true keeps it running for ever.
-/
namespace YikvServer.Theory.While

variable {σ : Type*} {guard : σ → Bool} {body : σ → σ} {s t t' : σ} {fuel fuel' : Nat}

/-- `while (guard) body` with so many turns at most. -/
def run (guard : σ → Bool) (body : σ → σ) : Nat → σ → Option σ
  | 0, s => if guard s then none else some s
  | fuel + 1, s => if guard s then run guard body fuel (body s) else some s

/-- The loop ends in this state. -/
def Ends (guard : σ → Bool) (body : σ → σ) (s t : σ) : Prop :=
  ∃ fuel, run guard body fuel s = some t

theorem run_stop (h : guard s = false) (fuel : Nat) : run guard body fuel s = some s := by
  cases fuel with
  | zero => simp [run, h]
  | succ fuel => simp [run, h]

theorem run_turn (h : guard s = true) (fuel : Nat) :
    run guard body (fuel + 1) s = run guard body fuel (body s) := by
  simp [run, h]

/-- More fuel changes no result. -/
theorem run_mono (h : run guard body fuel s = some t) (hle : fuel ≤ fuel') :
    run guard body fuel' s = some t := by
  induction fuel generalizing s fuel' with
  | zero =>
    cases hg : guard s with
    | true => simp [run, hg] at h
    | false =>
      rw [run_stop hg] at h ⊢
      exact h
  | succ fuel ih =>
    cases hg : guard s with
    | true =>
      cases fuel' with
      | zero => omega
      | succ fuel' =>
        rw [run_turn hg] at h ⊢
        exact ih h (Nat.le_of_succ_le_succ hle)
    | false =>
      rw [run_stop hg] at h ⊢
      exact h

theorem Ends.unique (h : Ends guard body s t) (h' : Ends guard body s t') : t = t' := by
  obtain ⟨fuel, hrun⟩ := h
  obtain ⟨fuel', hrun'⟩ := h'
  rcases Nat.le_total fuel fuel' with hle | hle
  · exact Option.some.inj ((run_mono hrun hle).symm.trans hrun')
  · exact Option.some.inj (hrun.symm.trans (run_mono hrun' hle))

/-- Total correctness: the body keeps the invariant and lowers the variant. -/
theorem ends_of_variant {I : σ → Prop} (variant : σ → Nat)
    (hbody : ∀ s, I s → guard s = true → I (body s) ∧ variant (body s) < variant s)
    (hs : I s) : ∃ t, Ends guard body s t ∧ I t ∧ guard t = false := by
  induction hv : variant s using Nat.strongRecOn generalizing s with
  | ind v ih =>
    cases hg : guard s with
    | false => exact ⟨s, ⟨0, run_stop hg 0⟩, hs, hg⟩
    | true =>
      obtain ⟨hI, hlt⟩ := hbody s hs hg
      obtain ⟨t, ⟨fuel, hrun⟩, ht, hstop⟩ := ih _ (hv ▸ hlt) hI rfl
      exact ⟨t, ⟨fuel + 1, (run_turn hg fuel).trans hrun⟩, ht, hstop⟩

/-- Divergence: where the invariant holds the guard is true, and the body keeps it. -/
theorem not_ends_of_invariant {I : σ → Prop} (hguard : ∀ s, I s → guard s = true)
    (hbody : ∀ s, I s → I (body s)) (hs : I s) : ¬ ∃ t, Ends guard body s t := by
  rintro ⟨t, fuel, hrun⟩
  induction fuel generalizing s with
  | zero => simp [run, hguard s hs] at hrun
  | succ fuel ih =>
    rw [run_turn (hguard s hs)] at hrun
    exact ih (hbody s hs) hrun

end YikvServer.Theory.While
