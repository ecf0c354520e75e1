import Mathlib.Data.List.Basic

/-!
# Growing vectors and pointers into them

A vector holds its items in one block of some capacity. When an item is pushed beyond the
capacity, all items move to a new block, and every pointer into the old one dangles.
Pointers are to be kept only while there is room.
-/
namespace YikvServer.Theory.GrowingVector

/-- The items, the capacity of the block that holds them, and which block it is. -/
structure Vec (α : Type*) where
  items : List α
  capacity : Nat
  block : Nat

structure Ptr where
  block : Nat
  index : Nat
  deriving DecidableEq

variable {α : Type*} {v : Vec α} {p : Ptr} {x : α} {ptrs : List Ptr}

namespace Vec

def empty : Vec α := ⟨[], 0, 0⟩

def reserve (v : Vec α) (n : Nat) : Vec α :=
  if n ≤ v.capacity then v else { v with capacity := n, block := v.block + 1 }

/-- A full vector moves to a block of at least twice the capacity. -/
def pushBack (v : Vec α) (x : α) : Vec α :=
  if v.items.length < v.capacity then { v with items := v.items ++ [x] }
  else ⟨v.items ++ [x], max 1 (2 * v.capacity), v.block + 1⟩

/-- `&v.back()`. -/
def back (v : Vec α) : Ptr := ⟨v.block, v.items.length - 1⟩

/-- What a pointer leads to; none when it dangles. -/
def deref (v : Vec α) (p : Ptr) : Option α :=
  if p.block = v.block then v.items[p.index]? else none

/-- The pointers lead to all the items, in order. -/
def Tracks (v : Vec α) (ptrs : List Ptr) : Prop := ptrs.map v.deref = v.items.map some

theorem tracks_reserve (n : Nat) : ((empty : Vec α).reserve n).Tracks [] := by
  unfold reserve
  split <;> rfl

theorem capacity_reserve (n : Nat) :
    ((empty : Vec α).reserve n).items = [] ∧ n ≤ ((empty : Vec α).reserve n).capacity := by
  unfold reserve
  split
  · rename_i hle
    exact ⟨rfl, hle⟩
  · exact ⟨rfl, Nat.le_refl n⟩

theorem pushBack_of_lt (h : v.items.length < v.capacity) :
    v.pushBack x = { v with items := v.items ++ [x] } := if_pos h

/-- While there is room, a pointer that led to an item still does. -/
theorem deref_pushBack (h : v.items.length < v.capacity) {y : α} (hp : v.deref p = some y) :
    (v.pushBack x).deref p = some y := by
  unfold deref at hp ⊢
  rw [pushBack_of_lt h]
  split at hp
  · rename_i hblock
    rw [if_pos hblock]
    have hlt := (List.getElem?_eq_some_iff.mp hp).1
    rw [List.getElem?_append_left hlt, hp]
  · cases hp

theorem deref_back (h : v.items.length < v.capacity) :
    (v.pushBack x).deref (v.pushBack x).back = some x := by
  rw [pushBack_of_lt h]
  simp [deref, back]

theorem Tracks.pushBack (h : v.Tracks ptrs) (hroom : v.items.length < v.capacity) :
    (v.pushBack x).Tracks (ptrs ++ [(v.pushBack x).back]) := by
  have hold : ptrs.map (v.pushBack x).deref = v.items.map some := by
    refine Eq.trans (List.map_congr_left fun p hp => ?_) h
    have hmem : v.deref p ∈ v.items.map some := h ▸ List.mem_map_of_mem hp
    obtain ⟨y, -, hy⟩ := List.mem_map.mp hmem
    rw [← hy]
    exact deref_pushBack hroom hy.symm
  unfold Tracks
  rw [List.map_append, hold, List.map_singleton, deref_back hroom, pushBack_of_lt hroom,
    List.map_append]
  rfl

/-- All items can be read through the pointers. -/
theorem Tracks.mapM_deref (h : v.Tracks ptrs) : ptrs.mapM v.deref = some v.items := by
  have hall : ∀ (ps : List Ptr) (xs : List α), ps.map v.deref = xs.map some →
      ps.mapM v.deref = some xs := by
    intro ps
    induction ps with
    | nil =>
      intro xs he
      obtain rfl := List.map_eq_nil_iff.mp he.symm
      rfl
    | cons p ps ih =>
      intro xs he
      cases xs with
      | nil => cases he
      | cons x xs =>
        obtain ⟨hx, hxs⟩ := List.cons.inj he
        rw [List.mapM_cons, hx, ih xs hxs]
        rfl
  exact hall ptrs v.items h

theorem Tracks.length (h : v.Tracks ptrs) : ptrs.length = v.items.length := by
  have hlen := congrArg List.length h
  rwa [List.length_map, List.length_map] at hlen

end Vec
end YikvServer.Theory.GrowingVector
