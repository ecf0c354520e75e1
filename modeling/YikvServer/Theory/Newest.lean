import Mathlib.Data.List.Sort
import Mathlib.Order.Defs.LinearOrder

/-!
# The greatest elements of a list

`newest n l` are the `n` greatest of finitely many elements of a linear order. An element
is among them when fewer than `n` others are greater.
-/
namespace YikvServer.Theory.Newest

variable {α : Type*} [LinearOrder α] {l : List α} {a b : α} {n : Nat}

def newest (n : Nat) (l : List α) : List α := (l.insertionSort (· ≥ ·)).take n

theorem mem_of_mem_newest (h : a ∈ newest n l) : a ∈ l :=
  (List.mem_insertionSort (· ≥ ·)).mp (List.mem_of_mem_take h)

theorem length_newest (n : Nat) (l : List α) : (newest n l).length = min n l.length := by
  rw [newest, List.length_take, List.length_insertionSort]

/-- In a descending list the first `n` are those that fewer than `n` exceed. -/
theorem mem_take_iff (h : l.Pairwise (· > ·)) (ha : a ∈ l) :
    a ∈ l.take n ↔ (l.filter (a < ·)).length < n := by
  induction l generalizing n with
  | nil => cases ha
  | cons x rest ih =>
    obtain ⟨hx, hrest⟩ := List.pairwise_cons.mp h
    cases n with
    | zero => simp
    | succ n =>
      rw [List.take_succ_cons, List.mem_cons]
      by_cases hax : a = x
      · subst hax
        have hnone : (a :: rest).filter (a < ·) = [] := by
          refine List.filter_eq_nil_iff.mpr fun y hy => ?_
          rcases List.mem_cons.mp hy with rfl | hy
          · simp
          · simpa using (hx y hy).le
        simp [hnone]
      · have hmem : a ∈ rest := (List.mem_cons.mp ha).resolve_left hax
        rw [List.filter_cons_of_pos (by simpa using hx a hmem), List.length_cons, ih hrest hmem]
        simp [hax]

theorem mem_newest_iff (hl : l.Nodup) (ha : a ∈ l) :
    a ∈ newest n l ↔ (l.filter (a < ·)).length < n := by
  have hperm := List.perm_insertionSort (· ≥ ·) l
  have hdesc : (l.insertionSort (· ≥ ·)).Pairwise (· > ·) := by
    have hnodup : (l.insertionSort (· ≥ ·)).Pairwise (· ≠ ·) := hperm.nodup_iff.mpr hl
    exact ((List.pairwise_insertionSort (· ≥ ·) l).and hnodup).imp
      fun h => lt_of_le_of_ne h.1 h.2.symm
  rw [newest, mem_take_iff hdesc (hperm.mem_iff.mpr ha), (hperm.filter _).length_eq]

/-- What is greater than one of the newest is one of them. -/
theorem newest_upward (hl : l.Nodup) (ha : a ∈ newest n l) (hb : b ∈ l) (hab : a < b) :
    b ∈ newest n l := by
  have hcount := (mem_newest_iff hl (mem_of_mem_newest ha)).mp ha
  refine (mem_newest_iff hl hb).mpr (lt_of_le_of_lt ?_ hcount)
  refine (List.monotone_filter_right l fun x hx => ?_).length_le
  simp only [decide_eq_true_eq] at hx ⊢
  exact hab.trans hx

/-- What is left out is less than each of the newest. -/
theorem lt_of_not_mem_newest (hl : l.Nodup) (ha : a ∈ newest n l) (hb : b ∈ l)
    (hnot : b ∉ newest n l) : b < a := by
  rcases lt_trichotomy b a with h | rfl | h
  · exact h
  · exact absurd ha hnot
  · exact absurd (newest_upward hl ha hb h) hnot

/-- When an element is left out there are `n` newest ones. -/
theorem length_newest_of_not_mem (hb : b ∈ l) (hnot : b ∉ newest n l) :
    (newest n l).length = n := by
  rw [length_newest]
  by_contra hlen
  have hall : newest n l = l.insertionSort (· ≥ ·) :=
    List.take_of_length_le (by rw [List.length_insertionSort]; omega)
  exact hnot (hall ▸ (List.mem_insertionSort (· ≥ ·)).mpr hb)

end YikvServer.Theory.Newest
