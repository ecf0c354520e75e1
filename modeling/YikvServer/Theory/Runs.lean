import Mathlib.Data.List.Basic

/-!
# Runs of a labelled step function

A system is a partial step function: the label says which party moves and how
an outside choice falls, and `none` means that the move is not enabled. A run is
a list of labels, so every interleaving is a list and every reachable state is
the end of one. Guarded runs restrict the state before each move.
-/
namespace YikvServer.Theory.Runs

variable {σ α : Type*} {step : σ → α → Option σ} {s s' s'' : σ} {a : α} {as bs : List α}

/-- The state after the labels in order; `none` when one of them is not enabled. -/
def exec (step : σ → α → Option σ) : σ → List α → Option σ
  | s, [] => some s
  | s, a :: as => (step s a).bind fun s' => exec step s' as

@[simp] theorem exec_nil : exec step s [] = some s := rfl

theorem exec_cons : exec step s (a :: as) = some s'' ↔
    ∃ s', step s a = some s' ∧ exec step s' as = some s'' := by
  simp [exec, Option.bind_eq_some_iff]

/-- One more label. -/
theorem exec_append (h : exec step s as = some s') (ha : step s' a = some s'') :
    exec step s (as ++ [a]) = some s'' := by
  induction as generalizing s with
  | nil =>
    obtain rfl := Option.some.inj h
    exact exec_cons.mpr ⟨s'', ha, rfl⟩
  | cons b as ih =>
    obtain ⟨t, ht, hrest⟩ := exec_cons.mp h
    exact exec_cons.mpr ⟨t, ht, ih hrest⟩

/-- A run in two parts. -/
theorem exec_concat : exec step s (as ++ bs) = some s'' ↔
    ∃ s', exec step s as = some s' ∧ exec step s' bs = some s'' := by
  induction as generalizing s with
  | nil => simp
  | cons a as ih =>
    simp only [List.cons_append, exec_cons, ih]
    exact ⟨fun ⟨t, ht, s', hs', hrest⟩ => ⟨s', ⟨t, ht, hs'⟩, hrest⟩,
      fun ⟨s', ⟨t, ht, hs'⟩, hrest⟩ => ⟨t, ht, s', hs', hrest⟩⟩

/-- What every step preserves, every run preserves. -/
theorem exec_invariant {P : σ → Prop} (hstep : ∀ s a s', P s → step s a = some s' → P s')
    (h : exec step s as = some s') (hs : P s) : P s' := by
  induction as generalizing s with
  | nil =>
    obtain rfl := Option.some.inj h
    exact hs
  | cons a as ih =>
    obtain ⟨t, ht, hrest⟩ := exec_cons.mp h
    exact ih hrest (hstep s a t hs ht)

/-- Each step is the same step of another system: so is each run. -/
theorem exec_map {σ' : Type*} {step' : σ' → α → Option σ'} {f : σ → σ'}
    (hstep : ∀ s a s', step s a = some s' → step' (f s) a = some (f s'))
    (h : exec step s as = some s') : exec step' (f s) as = some (f s') := by
  induction as generalizing s with
  | nil => exact congrArg (some ∘ f) (Option.some.inj h)
  | cons a as ih =>
    obtain ⟨t, ht, hrest⟩ := exec_cons.mp h
    exact exec_cons.mpr ⟨f t, hstep s a t ht, ih hrest⟩

/-- A run that comes to `P` passes a state in which `Q` holds, where no other step does. -/
theorem exec_passes {P Q : σ → Prop}
    (hstep : ∀ s a s', step s a = some s' → P s' → P s ∨ Q s)
    (h : exec step s as = some s') (hs : ¬ P s) (hs' : P s') :
    ∃ bs t, bs <+: as ∧ exec step s bs = some t ∧ Q t := by
  induction as generalizing s with
  | nil =>
    obtain rfl := Option.some.inj h
    exact absurd hs' hs
  | cons a as ih =>
    obtain ⟨t, ht, hrest⟩ := exec_cons.mp h
    by_cases hP : P t
    · have hQ : Q s := (hstep s a t ht hP).resolve_left hs
      exact ⟨[], s, List.nil_prefix, rfl, hQ⟩
    · obtain ⟨bs, u, hbs, hu, hQ⟩ := ih hrest hP
      exact ⟨a :: bs, u, List.cons_prefix_cons.mpr ⟨rfl, hbs⟩, exec_cons.mpr ⟨t, ht, hu⟩, hQ⟩

/-- Every move of the run meets `ok` in the state before it. -/
def Guarded (step : σ → α → Option σ) (ok : σ → α → Prop) : σ → List α → Prop
  | _, [] => True
  | s, a :: as => ok s a ∧ ∀ s', step s a = some s' → Guarded step ok s' as

/-- A condition that can be evaluated in each state can be evaluated along a run. -/
instance Guarded.decide {ok : σ → α → Prop} [∀ s a, Decidable (ok s a)] :
    (s : σ) → (as : List α) → Decidable (Guarded step ok s as)
  | _, [] => isTrue trivial
  | s, a :: as =>
    match h : step s a with
    | none => decidable_of_iff (ok s a) (by simp [Guarded, h])
    | some s' =>
      have : Decidable (Guarded step ok s' as) := Guarded.decide s' as
      decidable_of_iff (ok s a ∧ Guarded step ok s' as) (by simp [Guarded, h])

theorem Guarded.cons {ok : σ → α → Prop} (ha : ok s a) (hstep : step s a = some s')
    (h : Guarded step ok s' as) : Guarded step ok s (a :: as) := by
  refine ⟨ha, fun t ht => ?_⟩
  obtain rfl := Option.some.inj (hstep.symm.trans ht)
  exact h

/-- What every guarded step preserves, every guarded run preserves. -/
theorem guarded_invariant {P : σ → Prop} {ok : σ → α → Prop}
    (hstep : ∀ s a s', P s → ok s a → step s a = some s' → P s')
    (hok : Guarded step ok s as) (h : exec step s as = some s') (hs : P s) : P s' := by
  induction as generalizing s with
  | nil =>
    obtain rfl := Option.some.inj h
    exact hs
  | cons a as ih =>
    obtain ⟨t, ht, hrest⟩ := exec_cons.mp h
    exact ih (hok.2 t ht) hrest (hstep s a t hs hok.1 ht)

/-- A condition that no step can leave without harm is met all along exactly by the runs
that come to no harm. -/
theorem guarded_iff {I G : σ → Prop} {ok : σ → α → Prop}
    (hstep : ∀ s a s', I s → ok s a → step s a = some s' → I s')
    (hgood : ∀ s, I s → G s)
    (hharm : ∀ s a s', I s → step s a = some s' → G s' → ok s a)
    (h : exec step s as = some s') (hs : I s) :
    Guarded step ok s as ↔ ∀ bs, bs <+: as → ∀ t, exec step s bs = some t → G t := by
  induction as generalizing s with
  | nil =>
    refine iff_of_true trivial fun bs hbs t ht => ?_
    obtain rfl := List.prefix_nil.mp hbs
    obtain rfl := Option.some.inj ht
    exact hgood _ hs
  | cons a as ih =>
    obtain ⟨u, hu, hrest⟩ := exec_cons.mp h
    constructor
    · rintro ⟨hok, hguard⟩ bs hbs t ht
      cases bs with
      | nil =>
        obtain rfl := Option.some.inj ht
        exact hgood _ hs
      | cons b bs =>
        obtain ⟨rfl, htail⟩ := List.cons_prefix_cons.mp hbs
        obtain ⟨v, hv, ht⟩ := exec_cons.mp ht
        obtain rfl := Option.some.inj (hu.symm.trans hv)
        exact (ih hrest (hstep s b u hs hok hu)).mp (hguard u hu) bs htail t ht
    · intro hall
      have hok : ok s a := by
        refine hharm s a u hs hu (hall [a] ?_ u (exec_cons.mpr ⟨u, hu, rfl⟩))
        exact List.cons_prefix_cons.mpr ⟨rfl, List.nil_prefix⟩
      refine ⟨hok, fun v hv => ?_⟩
      obtain rfl := Option.some.inj (hu.symm.trans hv)
      refine (ih hrest (hstep s a u hs hok hu)).mpr fun bs hbs t ht => ?_
      exact hall (a :: bs) (List.cons_prefix_cons.mpr ⟨rfl, hbs⟩) t (exec_cons.mpr ⟨u, hu, ht⟩)

/-- Each guarded step is a guarded step of another system: so is each guarded run. -/
theorem guarded_simulation {σ' α' : Type*} {step' : σ' → α' → Option σ'} {f : σ → σ'}
    {P : σ → Prop} {ok : σ → α → Prop} {ok' : σ' → α' → Prop}
    (hstep : ∀ s a s', P s → ok s a → step s a = some s' →
      P s' ∧ ∃ b, ok' (f s) b ∧ step' (f s) b = some (f s'))
    (hok : Guarded step ok s as) (h : exec step s as = some s') (hs : P s) :
    ∃ bs, exec step' (f s) bs = some (f s') ∧ Guarded step' ok' (f s) bs := by
  induction as generalizing s with
  | nil =>
    obtain rfl := Option.some.inj h
    exact ⟨[], rfl, trivial⟩
  | cons a as ih =>
    obtain ⟨t, ht, hrest⟩ := exec_cons.mp h
    obtain ⟨hP, b, hb, hbt⟩ := hstep s a t hs hok.1 ht
    obtain ⟨bs, hbs, hguard⟩ := ih (hok.2 t ht) hrest hP
    refine ⟨b :: bs, exec_cons.mpr ⟨f t, hbt, hbs⟩, hb, fun u hu => ?_⟩
    obtain rfl := Option.some.inj (hbt.symm.trans hu)
    exact hguard

/-- A condition on the labels alone guards every run of such labels. -/
theorem guarded_of_forall {ok : α → Prop} (h : ∀ a ∈ as, ok a) :
    Guarded step (fun _ a => ok a) s as := by
  induction as generalizing s with
  | nil => trivial
  | cons a as ih =>
    exact ⟨h a List.mem_cons_self, fun _ _ => ih fun b hb => h b (List.mem_cons_of_mem _ hb)⟩

/-! ## Parties that stand in a list -/

/-- The parties after one of them has moved. -/
theorem getElem?_set_cases {l : List σ} {i j : Nat} {x y : σ}
    (h : (l.set i x)[j]? = some y) : j = i ∧ y = x ∨ j ≠ i ∧ l[j]? = some y := by
  by_cases hj : j = i
  · subst hj
    rw [List.getElem?_set_self'] at h
    obtain ⟨_, -, rfl⟩ := Option.map_eq_some_iff.mp h
    exact Or.inl ⟨rfl, rfl⟩
  · rw [List.getElem?_set_ne (Ne.symm hj)] at h
    exact Or.inr ⟨hj, h⟩

/-- The parties after one has joined. -/
theorem getElem?_concat_cases {l : List σ} {j : Nat} {x y : σ}
    (h : (l ++ [x])[j]? = some y) : l[j]? = some y ∨ y = x := by
  rw [List.getElem?_append] at h
  split at h
  · exact Or.inl h
  · exact Or.inr (List.mem_singleton.mp (List.mem_of_getElem? h))

end YikvServer.Theory.Runs
