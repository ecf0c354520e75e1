import Mathlib.Logic.Function.Basic

/-!
# Operations on one key

An operation on a store acts at a key when it looks at the row of that key only and
changes no other row. Operations at different keys commute, and neither sees whether the
other has run.
-/
namespace YikvServer.Theory.Local

variable {K V R : Type} [DecidableEq K] {f g : (K → V) → R × (K → V)} {k l : K}

/-- The result and the new row are functions of the old row. -/
def ActsAt (k : K) (f : (K → V) → R × (K → V)) : Prop :=
  ∃ (result : V → R) (row : V → V), ∀ s, f s = (result (s k), Function.update s k (row (s k)))

/-- An operation that leaves the store as it is, with a result that does not depend on it. -/
theorem ActsAt.of_const {r : R} (h : ∀ s, f s = (r, s)) : ActsAt k f :=
  ⟨fun _ => r, fun v => v, fun s => by rw [h s, Function.update_eq_self]⟩

theorem ActsAt.other (hf : ActsAt k f) (hkl : l ≠ k) (s : K → V) : (f s).2 l = s l := by
  obtain ⟨result, row, hf⟩ := hf
  rw [hf s]
  exact Function.update_of_ne hkl _ s

/-- The result is the same wherever the row is. -/
theorem ActsAt.result_congr (hf : ActsAt k f) {s t : K → V} (h : s k = t k) :
    (f s).1 = (f t).1 := by
  obtain ⟨result, row, hf⟩ := hf
  rw [hf s, hf t, h]

theorem ActsAt.comm (hf : ActsAt k f) (hg : ActsAt l g) (hkl : k ≠ l) (s : K → V) :
    (g (f s).2).2 = (f (g s).2).2 := by
  obtain ⟨_, rowf, hf⟩ := hf
  obtain ⟨_, rowg, hg⟩ := hg
  simp only [hf, hg, Function.update_of_ne hkl, Function.update_of_ne hkl.symm]
  exact Function.update_comm hkl _ _ s

end YikvServer.Theory.Local
