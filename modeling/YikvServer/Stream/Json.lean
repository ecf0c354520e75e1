import YikvServer.Index.Store
import Mathlib.Data.String.Basic

/-!
# JSON messages

A parsed message. An object lists its members in text order; what the code walks
is the `std::map` that inserting them in this order builds, sorted by key and with
the last value of a repeated key. Parsing and the numeric conversions belong to
nlohmann::json and enter as the parameter `Nlohmann`.
-/
namespace YikvServer.Stream

open YikvServer.Index

inductive Json where
  | null
  | boolean (b : Bool)
  | integer (v : Int)
  | float (bits : UInt64)
  | string (s : String)
  | array (items : List Json)
  | object (members : List (String × Json))

namespace Json

def isNull : Json → Bool
  | .null => true
  | _ => false

end Json

/-- `std::map::insert_or_assign` on the sorted members. -/
def insertMember (key : String) (val : Json) : List (String × Json) → List (String × Json)
  | [] => [(key, val)]
  | (k, v) :: rest =>
    if key = k then (key, val) :: rest
    else if key < k then (key, val) :: (k, v) :: rest
    else (k, v) :: insertMember key val rest

theorem mem_insertMember {key k : String} {val v : Json} {members : List (String × Json)}
    (h : (k, v) ∈ insertMember key val members) : (k, v) = (key, val) ∨ (k, v) ∈ members := by
  induction members with
  | nil => exact Or.inl (List.mem_singleton.mp h)
  | cons m rest ih =>
    simp only [insertMember] at h
    split at h
    · rcases List.mem_cons.mp h with h | h
      · exact Or.inl h
      · exact Or.inr (List.mem_cons_of_mem _ h)
    · split at h
      · exact List.mem_cons.mp h
      · rcases List.mem_cons.mp h with h | h
        · exact Or.inr (h ▸ List.mem_cons_self)
        · exact (ih h).imp_right (List.mem_cons_of_mem _)

theorem insertMember_sorted {key : String} {val : Json} {members : List (String × Json)}
    (h : members.Pairwise (·.1 < ·.1)) : (insertMember key val members).Pairwise (·.1 < ·.1) := by
  induction members with
  | nil => exact List.pairwise_singleton _ _
  | cons m rest ih =>
    obtain ⟨hm, hrest⟩ := List.pairwise_cons.mp h
    simp only [insertMember]
    split
    · rename_i he
      exact List.pairwise_cons.mpr ⟨fun p hp => he ▸ hm p hp, hrest⟩
    · split
      · rename_i hlt
        refine List.pairwise_cons.mpr ⟨fun p hp => ?_, h⟩
        rcases List.mem_cons.mp hp with rfl | hp
        · exact hlt
        · exact lt_trans hlt (hm p hp)
      · rename_i hne hnlt
        refine List.pairwise_cons.mpr ⟨fun p hp => ?_, ih hrest⟩
        obtain ⟨k, v⟩ := p
        rcases mem_insertMember hp with hp | hp
        · obtain ⟨rfl, rfl⟩ := Prod.mk.inj hp
          exact lt_of_le_of_ne (not_lt.mp hnlt) (Ne.symm hne)
        · exact hm _ hp

/-- An object as the code sees it: distinct keys in increasing order. -/
structure JsonObject where
  items : List (String × Json)
  sorted : items.Pairwise (·.1 < ·.1)

namespace JsonObject

def ofMembers : List (String × Json) → JsonObject
  | members => ⟨members.foldl (fun acc m => insertMember m.1 m.2 acc) [], by
      suffices h : ∀ acc : List (String × Json), acc.Pairwise (·.1 < ·.1) →
          (members.foldl (fun acc m => insertMember m.1 m.2 acc) acc).Pairwise (·.1 < ·.1) from
        h [] List.Pairwise.nil
      induction members with
      | nil => exact fun acc h => h
      | cons m rest ih => exact fun acc h => ih _ (insertMember_sorted h)⟩

/-- `obj.contains(key)` and `obj[key]` in one. -/
def find (obj : JsonObject) (key : String) : Option Json := obj.items.lookup key

theorem keys_nodup (obj : JsonObject) : (obj.items.map Prod.fst).Nodup :=
  List.pairwise_map.mpr (obj.sorted.imp fun h => ne_of_lt h)

end JsonObject

/-- `nlohmann::json::exception`. -/
structure JsonException where
  what : String
  deriving DecidableEq, Repr

/-- The part of nlohmann::json that is outside the repository: `json::parse`,
`get<bool>` and, by the kind of value wanted, `get<int32_t>`, `get<int64_t>`,
`get<float>`, `get<double>` and `get<std::string>`. -/
structure Nlohmann where
  parse : String → Except JsonException Json
  getBool : Json → Except JsonException Bool
  get : (e : Elem) → Json → Except JsonException e.Val
  get_string : ∀ s, get .str (.string s) = .ok s
  get_array : ∀ e items v, get e (.array items) ≠ .ok v

attribute [simp] Nlohmann.get_string

/-- The library on integers, booleans and strings, and on the listed texts. -/
def plainJson (texts : List (String × Json)) : Nlohmann where
  parse s :=
    match texts.lookup s with
    | some j => .ok j
    | none => .error ⟨"parse error"⟩
  getBool
    | .boolean b => .ok b
    | _ => .error ⟨"type must be boolean"⟩
  get
    | .i32, .integer v => .ok (Int32.ofInt v)
    | .i32, .boolean b => .ok (if b then (1 : Int32) else (0 : Int32))
    | .i64, .integer v => .ok (Int64.ofInt v)
    | .str, .string s => .ok s
    | .str, _ => .error ⟨"type must be string"⟩
    | _, _ => .error ⟨"type must be number"⟩
  get_string _ := rfl
  get_array e items v := by cases e <;> simp

end YikvServer.Stream
