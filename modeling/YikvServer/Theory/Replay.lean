import Mathlib.Logic.Function.Basic
import Mathlib.Data.List.Basic

/-!
# Replaying row changes

A store maps keys to rows, a row has a value for each field. A change of one row
deletes it, inserts it when it is absent, or overlays some fields on it, starting
from a default row. Running a stretch of changes again after it was run once, or
in part, leads to the same end: that is `applyOps_replay`.
-/
namespace YikvServer.Theory.Replay

variable {K F : Type} {V : F → Type}

inductive Change (V : F → Type) where
  | skip
  | delete
  | insert (row : ∀ f, V f)
  | upsert (set : ∀ f, Option (V f))

def overlay (set : ∀ f, Option (V f)) (row : ∀ f, V f) : ∀ f, V f := fun f => (set f).getD (row f)

namespace Change

/-- The row after the change; `d` is the default row. -/
def apply (d : ∀ f, V f) : Change V → Option (∀ f, V f) → Option (∀ f, V f)
  | .skip, r => r
  | .delete, _ => none
  | .insert x, r => some (r.getD x)
  | .upsert set, r => some (overlay set (r.getD d))

/-- The value the change puts in a field of a row that is there. -/
def sets : Change V → ∀ f, Option (V f)
  | .upsert set => set
  | _ => fun _ => none

end Change

def applyAll (d : ∀ f, V f) (L : List (Change V)) (r : Option (∀ f, V f)) : Option (∀ f, V f) :=
  L.foldl (fun r c => c.apply d r) r

/-- The last value that the changes put in a field. -/
def assigned : List (Change V) → ∀ f, Option (V f)
  | [], _ => none
  | c :: L, f => (assigned L f).or (c.sets f)

variable {d : ∀ f, V f} {L P H : List (Change V)} {c g : Change V} {r s t : Option (∀ f, V f)}

theorem applyAll_append : applyAll d (P ++ H) r = applyAll d H (applyAll d P r) := by
  simp [applyAll]

/-- After a deletion nothing of the old row is left. -/
theorem applyAll_of_delete (h : Change.delete ∈ L) (r s : Option (∀ f, V f)) :
    applyAll d L r = applyAll d L s := by
  obtain ⟨P, H, rfl⟩ := List.append_of_mem h
  rw [applyAll_append, applyAll_append]
  rfl

theorem overlay_overlay (u v : ∀ f, Option (V f)) (x : ∀ f, V f) :
    overlay u (overlay v x) = overlay (fun f => (u f).or (v f)) x := by
  funext f
  simp only [overlay]
  cases u f <;> rfl

theorem Change.apply_some (h : c ≠ .delete) (x : ∀ f, V f) :
    c.apply d (some x) = some (overlay c.sets x) := by
  cases c with
  | delete => exact absurd rfl h
  | _ => rfl

/-- Without a deletion a row that is there is overlaid. -/
theorem applyAll_some (h : .delete ∉ L) (x : ∀ f, V f) :
    applyAll d L (some x) = some (overlay (assigned L) x) := by
  induction L generalizing x with
  | nil => rfl
  | cons c L ih =>
    rw [List.mem_cons, not_or] at h
    have hstep : applyAll d (c :: L) (some x) = applyAll d L (c.apply d (some x)) := rfl
    rw [hstep, Change.apply_some (Ne.symm h.1), ih h.2, overlay_overlay]
    rfl

/-- Without a deletion an absent row stays absent and nothing is assigned, or it is
created with every assigned value. -/
theorem applyAll_none (h : .delete ∉ L) :
    (applyAll d L none = none ∧ ∀ f, assigned L f = none) ∨
      ∃ e, applyAll d L none = some e ∧ ∀ f v, assigned L f = some v → e f = v := by
  induction L with
  | nil => exact Or.inl ⟨rfl, fun _ => rfl⟩
  | cons c L ih =>
    rw [List.mem_cons, not_or] at h
    have hstep : applyAll d (c :: L) none = applyAll d L (c.apply d none) := rfl
    rw [hstep]
    cases c with
    | delete => exact absurd rfl h.1
    | skip =>
      refine (ih h.2).imp (fun hn => ⟨hn.1, fun f => ?_⟩)
        fun ⟨e, he, hv⟩ => ⟨e, he, fun f v hf => ?_⟩
      · simp [assigned, Change.sets, hn.2 f]
      · exact hv f v (by simpa [assigned, Change.sets] using hf)
    | insert x =>
      refine Or.inr ⟨_, applyAll_some h.2 x, fun f v hf => ?_⟩
      have hf' : assigned L f = some v := by simpa [assigned, Change.sets] using hf
      simp [overlay, hf']
    | upsert set =>
      refine Or.inr ⟨_, applyAll_some h.2 (overlay set d), fun f v hf => ?_⟩
      have hf' : (assigned L f).or (set f) = some v := hf
      rw [overlay_overlay]
      simp [overlay, hf']

/-- If the stretch `P ++ g :: H` and its rest `g :: H` both lead from `s` to `t`, then
the stretch still leads to `t` once `g` was run. -/
theorem applyAll_replay (hall : applyAll d (P ++ g :: H) s = t)
    (hrest : applyAll d (g :: H) s = t) : applyAll d (P ++ g :: H) (g.apply d s) = t := by
  rw [applyAll_append] at hall ⊢
  change applyAll d H (g.apply d (applyAll d P s)) = t at hall
  change applyAll d H (g.apply d s) = t at hrest
  show applyAll d H (g.apply d (applyAll d P (g.apply d s))) = t
  by_cases hH : .delete ∈ H
  · rw [← hrest]
    exact applyAll_of_delete hH _ _
  -- A deletion in the stretch makes the state before it irrelevant.
  by_cases hP : .delete ∈ P
  · rw [applyAll_of_delete hP (g.apply d s) s]
    exact hall
  cases g with
  | skip => exact hall
  | delete => exact hrest
  | insert x =>
    cases s with
    | some r => exact hall
    | none =>
      simp only [Change.apply, Option.getD_none, applyAll_some hP, Option.getD_some] at hall hrest ⊢
      rw [applyAll_some hH] at hall hrest ⊢
      rw [← hrest]
      congr 1
      funext f
      rcases applyAll_none (d := d) hP with ⟨hnone, hset⟩ | ⟨e, he, hset⟩
      · simp [overlay, hset f]
      · rw [he, ← hrest] at hall
        have hf := congrFun (Option.some.inj hall) f
        simp only [overlay, Option.getD_some] at hf ⊢
        cases hHf : assigned H f with
        | some v => rfl
        | none =>
          cases hPf : assigned P f with
          | none => rfl
          | some v => simpa [hHf, hset f v hPf] using hf
  | upsert set =>
    simp only [Change.apply, applyAll_some hP, Option.getD_some] at hall hrest ⊢
    rw [applyAll_some hH] at hall hrest ⊢
    rw [← hrest]
    congr 1
    funext f
    rw [← hrest] at hall
    have hf := congrFun (Option.some.inj hall) f
    simp only [overlay] at hf ⊢
    cases hHf : assigned H f with
    | some v => rfl
    | none =>
      cases hset : set f with
      | some v => rfl
      | none =>
        simp only [hHf, hset, Option.getD_none] at hf ⊢
        cases hPf : assigned P f with
        | none => rfl
        | some v =>
          rw [← hf]
          cases s with
          | some r => simp [applyAll_some hP, overlay, hPf]
          | none =>
            rcases applyAll_none (d := d) hP with ⟨-, hno⟩ | ⟨e, he, hv⟩
            · rw [hno f] at hPf
              cases hPf
            · simp [he, hv f v hPf]

theorem assigned_append (f : F) : assigned (P ++ H) f = (assigned H f).or (assigned P f) := by
  induction P with
  | nil => simp [assigned]
  | cons c P ih => simp only [List.cons_append, assigned, ih, Option.or_assoc]

/-- Running a prefix first does not change where the whole stretch leads. -/
theorem applyAll_prefix (h : P <+: L) (r : Option (∀ f, V f)) :
    applyAll d L (applyAll d P r) = applyAll d L r := by
  by_cases hL : .delete ∈ L
  · exact applyAll_of_delete hL _ _
  obtain ⟨H, rfl⟩ := h
  have hP : Change.delete ∉ P := fun hmem => hL (List.mem_append_left H hmem)
  have hH : Change.delete ∉ H := fun hmem => hL (List.mem_append_right P hmem)
  -- What the prefix has put in a field, it puts there again.
  have hagain : ∀ e : ∀ f, V f, (∀ f v, assigned P f = some v → e f = v) →
      overlay (assigned (P ++ H)) e = overlay (assigned H) e := by
    intro e he
    funext f
    simp only [overlay, assigned_append]
    cases hHf : assigned H f with
    | some v => rfl
    | none =>
      cases hPf : assigned P f with
      | none => rfl
      | some v => exact (he f v hPf).symm
  have hsome : ∀ e : ∀ f, V f, (∀ f v, assigned P f = some v → e f = v) →
      applyAll d P r = some e → applyAll d (P ++ H) (applyAll d P r) = applyAll d (P ++ H) r := by
    intro e he hr
    rw [hr, applyAll_some hL, hagain e he, applyAll_append, hr, applyAll_some hH]
  cases r with
  | some x =>
    refine hsome _ (fun f v hv => ?_) (applyAll_some hP x)
    simp [overlay, hv]
  | none =>
    rcases applyAll_none (d := d) hP with ⟨hnone, -⟩ | ⟨e, hr, he⟩
    · rw [hnone]
    · exact hsome e he hr

/-! ## Stores -/

variable [DecidableEq K]

/-- A change of the row of one key. -/
abbrev Op (K : Type) (V : F → Type) := K × Change V

def applyOp (d : ∀ f, V f) (store : K → Option (∀ f, V f)) (op : Op K V) : K → Option (∀ f, V f) :=
  Function.update store op.1 (op.2.apply d (store op.1))

def applyOps (d : ∀ f, V f) (ops : List (Op K V)) (store : K → Option (∀ f, V f)) :
    K → Option (∀ f, V f) :=
  ops.foldl (applyOp d) store

/-- The changes of one key. -/
def changesOf (k : K) (ops : List (Op K V)) : List (Change V) :=
  ops.filterMap fun op => if op.1 = k then some op.2 else none

variable {store final : K → Option (∀ f, V f)} {op : Op K V} {ops before rest : List (Op K V)}

theorem applyOps_append : applyOps d (before ++ rest) store =
    applyOps d rest (applyOps d before store) := by
  simp [applyOps]

theorem applyOp_apply (k : K) : applyOp d store op k =
    if op.1 = k then op.2.apply d (store k) else store k := by
  unfold applyOp
  by_cases h : op.1 = k
  · subst h
    simp
  · rw [if_neg h, Function.update_of_ne (Ne.symm h)]

/-- Each row sees the changes of its own key only. -/
theorem applyOps_apply (k : K) :
    applyOps d ops store k = applyAll d (changesOf k ops) (store k) := by
  induction ops generalizing store with
  | nil => rfl
  | cons op ops ih =>
    have hstep : applyOps d (op :: ops) store = applyOps d ops (applyOp d store op) := rfl
    rw [hstep, ih, applyOp_apply]
    by_cases h : op.1 = k
    · simp [changesOf, h, applyAll]
    · simp [changesOf, h]

/-- The whole-store form of `applyAll_replay`. -/
theorem applyOps_replay (hall : applyOps d (before ++ op :: rest) store = final)
    (hrest : applyOps d (op :: rest) store = final) :
    applyOps d (before ++ op :: rest) (applyOp d store op) = final := by
  funext k
  have hall' := congrFun hall k
  have hrest' := congrFun hrest k
  rw [applyOps_apply] at hall' hrest' ⊢
  by_cases h : op.1 = k
  · have hsplit : changesOf k (before ++ op :: rest) =
        changesOf k before ++ op.2 :: changesOf k rest := by
      simp [changesOf, h]
    have hcons : changesOf k (op :: rest) = op.2 :: changesOf k rest := by
      simp [changesOf, h]
    rw [hsplit] at hall' ⊢
    rw [hcons] at hrest'
    rw [applyOp_apply, if_pos h]
    exact applyAll_replay hall' hrest'
  · rw [applyOp_apply, if_neg h]
    exact hall'

/-- The whole-store form of `applyAll_prefix`. -/
theorem applyOps_prefix (h : before <+: ops) (store : K → Option (∀ f, V f)) :
    applyOps d ops (applyOps d before store) = applyOps d ops store := by
  funext k
  simp only [applyOps_apply]
  exact applyAll_prefix (h.filterMap _) (store k)

end YikvServer.Theory.Replay
