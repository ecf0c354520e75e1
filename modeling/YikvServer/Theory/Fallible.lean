import Mathlib.Data.List.Forall2

/-!
# Fallible steps

When a chain of steps that can fail has a result: each step has one, and the next starts
from it.
-/
namespace YikvServer.Theory

variable {ε α β : Type} {x : Except ε α}

theorem bind_eq_ok {f : α → Except ε β} {b : β} :
    (x >>= f) = .ok b ↔ ∃ a, x = .ok a ∧ f a = .ok b := by
  cases x with
  | error e => exact iff_of_false (fun h => nomatch h) fun ⟨_, h, _⟩ => nomatch h
  | ok a =>
    constructor
    · exact fun h => ⟨a, rfl, h⟩
    · rintro ⟨_, ⟨rfl⟩, h⟩
      exact h

theorem ok_bind (a : α) (f : α → Except ε β) : ((.ok a : Except ε α) >>= f) = f a := rfl

theorem error_bind (e : ε) (f : α → Except ε β) : ((.error e : Except ε α) >>= f) = .error e := rfl

theorem map_eq_ok {f : α → β} {b : β} : x.map f = .ok b ↔ ∃ a, x = .ok a ∧ f a = b := by
  cases x with
  | error e => exact iff_of_false (fun h => nomatch h) fun ⟨_, h, _⟩ => nomatch h
  | ok a =>
    constructor
    · exact fun h => ⟨a, rfl, Except.ok.inj h⟩
    · rintro ⟨_, ⟨rfl⟩, rfl⟩
      rfl

theorem mapM_eq_ok {f : α → Except ε β} {as : List α} {bs : List β} :
    as.mapM f = .ok bs ↔ List.Forall₂ (fun a b => f a = .ok b) as bs := by
  induction as generalizing bs with
  | nil =>
    rw [List.mapM_nil, List.forall₂_nil_left_iff]
    exact ⟨fun h => (Except.ok.inj h).symm, fun h => congrArg Except.ok h.symm⟩
  | cons a as ih =>
    rw [List.mapM_cons, List.forall₂_cons_left_iff]
    simp only [bind_eq_ok]
    constructor
    · rintro ⟨b, hb, rest, hrest, ⟨rfl⟩⟩
      exact ⟨b, rest, hb, ih.mp hrest, rfl⟩
    · rintro ⟨b, rest, hb, hrest, rfl⟩
      exact ⟨b, hb, rest, ih.mpr hrest, rfl⟩

theorem foldlM_cons_eq_ok {σ : Type} {step : σ → α → Except ε σ} {a : α} {as : List α}
    {s s' : σ} : (a :: as).foldlM step s = .ok s' ↔
      ∃ mid, step s a = .ok mid ∧ as.foldlM step mid = .ok s' := by
  rw [List.foldlM_cons, bind_eq_ok]

/-- What each step of a fold sets or leaves is at the end as it was set last. -/
theorem foldlM_observe {σ : Type} {observe : σ → β} {step : σ → α → Except ε σ}
    {sets : α → Option β}
    (hstep : ∀ s a s', step s a = .ok s' → observe s' = (sets a).getD (observe s))
    {as : List α} {s s' : σ} (h : as.foldlM step s = .ok s') :
    observe s' = ((as.filterMap sets).getLast?).getD (observe s) := by
  induction as generalizing s with
  | nil =>
    obtain rfl := Except.ok.inj h
    rfl
  | cons a as ih =>
    obtain ⟨mid, hmid, hrest⟩ := foldlM_cons_eq_ok.mp h
    rw [ih hrest, hstep s a mid hmid, List.filterMap_cons]
    cases hset : sets a with
    | none => rfl
    | some b => rw [List.getLast?_cons, Option.getD_some, Option.getD_some]

end YikvServer.Theory
