import Mathlib.Logic.Basic
import Mathlib.Data.List.Basic

/-!
# Programs over a shared store

A program is a tree of atomic store operations. It ends with a value, or stops
with an error; operations already performed stay performed. The same tree has a
sequential meaning (`run`) and is what a scheduler interleaves one operation at
a time. `Quiet` programs never change the store.
-/
namespace YikvServer.Theory

inductive Prog (ε : Type) {Op : Type} (Res : Op → Type) (α : Type) where
  | pure (a : α)
  | fail (e : ε)
  | step (o : Op) (k : Res o → Prog ε Res α)

namespace Prog

variable {ε Op : Type} {Res : Op → Type} {α β σ : Type}

def bind : Prog ε Res α → (α → Prog ε Res β) → Prog ε Res β
  | .pure a, f => f a
  | .fail e, _ => .fail e
  | .step o k, f => .step o fun r => bind (k r) f

instance : Monad (Prog ε Res) where
  pure := .pure
  bind := bind

/-- One atomic operation, with its result. -/
def perform (o : Op) : Prog ε Res (Res o) := .step o .pure

/-- A computation that touches no store, as a program. -/
def lift : Except ε α → Prog ε Res α
  | .ok a => .pure a
  | .error e => .fail e

@[simp] theorem pure_bind' (a : α) (f : α → Prog ε Res β) : (Prog.pure a >>= f) = f a := rfl
@[simp] theorem fail_bind (e : ε) (f : α → Prog ε Res β) :
    ((Prog.fail e : Prog ε Res α) >>= f) = .fail e := rfl
@[simp] theorem step_bind (o : Op) (k : Res o → Prog ε Res α) (f : α → Prog ε Res β) :
    (Prog.step o k >>= f) = .step o fun r => k r >>= f := rfl
@[simp] theorem perform_bind (o : Op) (f : Res o → Prog ε Res β) :
    (perform o >>= f) = .step o f := rfl
@[simp] theorem lift_ok (a : α) : (lift (.ok a) : Prog ε Res α) = .pure a := rfl

theorem bind_assoc' {γ : Type} (p : Prog ε Res α) (f : α → Prog ε Res β)
    (g : β → Prog ε Res γ) : (p >>= f) >>= g = p >>= fun a => f a >>= g := by
  induction p with
  | pure a => rfl
  | fail e => rfl
  | step o k ih => exact congrArg (Prog.step o) (funext ih)

/-- Replace the error end by another program. -/
def handle {ε' : Type} : Prog ε Res α → (ε → Prog ε' Res α) → Prog ε' Res α
  | .pure a, _ => .pure a
  | .fail e, h => h e
  | .step o k, h => .step o fun r => handle (k r) h

/-- The error end under another name. -/
def mapError {ε' : Type} (g : ε → ε') (p : Prog ε Res α) : Prog ε' Res α :=
  p.handle fun e => .fail (g e)

section MapError
variable {ε' : Type} (g : ε → ε')

@[simp] theorem mapError_pure (a : α) :
    (Prog.pure a : Prog ε Res α).mapError g = .pure a := rfl
@[simp] theorem mapError_fail (e : ε) :
    (Prog.fail e : Prog ε Res α).mapError g = .fail (g e) := rfl
@[simp] theorem mapError_step (o : Op) (k : Res o → Prog ε Res α) :
    (Prog.step o k).mapError g = .step o fun r => (k r).mapError g := rfl

@[simp] theorem mapError_lift (x : Except ε α) :
    (lift x : Prog ε Res α).mapError g = lift (x.mapError g) := by
  cases x <;> rfl

@[simp] theorem mapError_bind (p : Prog ε Res α) (f : α → Prog ε Res β) :
    (p >>= f).mapError g = p.mapError g >>= fun a => (f a).mapError g := by
  induction p with
  | pure a => rfl
  | fail e => rfl
  | step o k ih => exact congrArg (Prog.step o) (funext ih)

end MapError

/-- A program that has ended has no operation left. -/
def finished : Prog ε Res α → Bool
  | .step _ _ => false
  | _ => true

section Run
variable (exec : (o : Op) → σ → Res o × σ)

/-- Run alone to the end: the outcome and the store it leaves. -/
def run : Prog ε Res α → σ → Except ε α × σ
  | .pure a, s => (.ok a, s)
  | .fail e, s => (.error e, s)
  | .step o k, s => run (k (exec o s).1) (exec o s).2

@[simp] theorem run_pure (a : α) (s : σ) :
    run exec (.pure a : Prog ε Res α) s = (.ok a, s) := rfl
@[simp] theorem run_fail (e : ε) (s : σ) :
    run exec (.fail e : Prog ε Res α) s = (.error e, s) := rfl
@[simp] theorem run_step (o : Op) (k : Res o → Prog ε Res α) (s : σ) :
    run exec (.step o k) s = run exec (k (exec o s).1) (exec o s).2 := rfl

theorem run_bind (p : Prog ε Res α) (f : α → Prog ε Res β) (s : σ) :
    run exec (p >>= f) s =
      match run exec p s with
      | (.ok a, t) => run exec (f a) t
      | (.error e, t) => (.error e, t) := by
  induction p generalizing s with
  | pure a => rfl
  | fail e => rfl
  | step o k ih => exact ih _ _

theorem run_handle {ε' : Type} (p : Prog ε Res α) (h : ε → Prog ε' Res α) (s : σ) :
    run exec (p.handle h) s =
      match run exec p s with
      | (.ok a, t) => (.ok a, t)
      | (.error e, t) => run exec (h e) t := by
  induction p generalizing s with
  | pure a => rfl
  | fail e => rfl
  | step o k ih => exact ih _ _

theorem run_mapError {ε' : Type} (g : ε → ε') (p : Prog ε Res α) (s : σ) :
    run exec (p.mapError g) s = ((run exec p s).1.mapError g, (run exec p s).2) := by
  induction p generalizing s with
  | pure a => rfl
  | fail e => rfl
  | step o k ih => exact ih _ _

/-- The operations that a run alone performs, in order. -/
def trace : Prog ε Res α → σ → List Op
  | .step o k, s => o :: trace (k (exec o s).1) (exec o s).2
  | _, _ => []

@[simp] theorem trace_pure (a : α) (s : σ) :
    trace exec (.pure a : Prog ε Res α) s = [] := rfl
@[simp] theorem trace_fail (e : ε) (s : σ) :
    trace exec (.fail e : Prog ε Res α) s = [] := rfl
@[simp] theorem trace_step (o : Op) (k : Res o → Prog ε Res α) (s : σ) :
    trace exec (.step o k) s = o :: trace exec (k (exec o s).1) (exec o s).2 := rfl

/-- From any store, and whatever happens to it in between, the program performs
exactly these operations. -/
def Performs : Prog ε Res α → List Op → Prop
  | .step o k, L => ∃ L', L = o :: L' ∧ ∀ s, Performs (k (exec o s).1) L'
  | _, L => L = []

theorem Performs.trace_eq {p : Prog ε Res α} {L : List Op} (h : Performs exec p L) (s : σ) :
    trace exec p s = L := by
  induction p generalizing L s with
  | pure a => exact h.symm
  | fail e => exact h.symm
  | step o k ih =>
    obtain ⟨L', rfl, hrest⟩ := h
    exact congrArg (o :: ·) (ih _ (hrest s) _)

/-- An operation that never changes the store, whatever it returns. -/
def Reads (o : Op) : Prop := ∀ s, (exec o s).2 = s

/-- Nothing that is left to do changes the store. -/
def Quiet : Prog ε Res α → Prop
  | .step o k => Reads exec o ∧ ∀ r, Quiet (k r)
  | _ => True

/-- Whatever changes the store is followed by nothing that does. -/
def WritesLast : Prog ε Res α → Prop
  | .step o k => (Reads exec o ∧ ∀ r, WritesLast (k r)) ∨ ∀ r, Quiet exec (k r)
  | _ => True

variable {exec}

theorem run_quiet {p : Prog ε Res α} (h : Quiet exec p) (s : σ) : (run exec p s).2 = s := by
  induction p generalizing s with
  | pure a => rfl
  | fail e => rfl
  | step o k ih => rw [run_step, ih _ (h.2 _), h.1 s]

end Run
end Prog
end YikvServer.Theory
