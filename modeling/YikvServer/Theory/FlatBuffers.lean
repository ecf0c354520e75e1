import YikvServer.Theory.Fallible
import Mathlib.Data.Nat.Digits.Defs

/-!
# FlatBuffers

The layout of a FlatBuffer as reads of little-endian numbers relative to the position of a
table, a vector or a string. A read that is not within the buffer is an error. The verifier
is that of the C++ library without its limits on depth and number of tables, and reading
what it has accepted stays within the buffer.
-/
namespace YikvServer.Theory.FlatBuffers

abbrev Buffer := List UInt8

/-- A read of bytes that are not all in the buffer. -/
structure Overread where
  pos : Int
  size : Nat
  deriving DecidableEq, Repr

abbrev Read := Except Overread

/-- Every read was within the buffer. -/
def Inside {α : Type} (r : Read α) : Prop := ∃ a, r = .ok a

/-! ## Accessors -/

section Accessors
variable (buf : Buffer)

/-- So many bytes from a position on. -/
def bytes (pos : Int) (n : Nat) : Read (List UInt8) :=
  if 0 ≤ pos ∧ pos + n ≤ buf.length then .ok ((buf.drop pos.toNat).take n) else .error ⟨pos, n⟩

def littleEndian (bs : List UInt8) : Nat := Nat.ofDigits 256 (bs.map (·.toNat))

/-- `ReadScalar`, of so many bytes. -/
def scalar (pos : Int) (n : Nat) : Read Nat := (bytes buf pos n).map littleEndian

/-- A `soffset_t`. -/
def soffset (pos : Int) : Read Int := (scalar buf pos 4).map fun n => (n : Int).bmod (2 ^ 32)

/-- `GetRoot`. -/
def getRoot : Read Int := (scalar buf 0 4).map fun n => (n : Int)

/-- `Table::GetOptionalFieldOffset`. -/
def fieldOffset (table : Int) (field : Nat) : Read Nat := do
  let vtable := table - (← soffset buf table)
  let vtsize ← scalar buf vtable 2
  if field < vtsize then scalar buf (vtable + field) 2 else pure 0

/-- `Table::GetField`, of a scalar of so many bytes that is zero by default. -/
def getField (n : Nat) (table : Int) (field : Nat) : Read Nat := do
  let off ← fieldOffset buf table field
  if off ≠ 0 then scalar buf (table + off) n else pure 0

/-- `Table::GetPointer`. -/
def getPointer (table : Int) (field : Nat) : Read (Option Int) := do
  let off ← fieldOffset buf table field
  if off ≠ 0 then
    let o ← scalar buf (table + off) 4
    pure (some (table + off + o))
  else pure none

/-- `Vector::size`. -/
def size (vec : Int) : Read Nat := scalar buf vec 4

/-- `Vector<Offset<T>>::Get`, where the stride times the index is a `uoffset_t`. -/
def element (vec : Int) (i : Nat) : Read Int := do
  let location := vec + 4 + ((i * 4 % 2 ^ 32 : Nat) : Int)
  let o ← scalar buf location 4
  pure (location + o)

/-- `String::str`. -/
def str (s : Int) : Read (List UInt8) := do
  let n ← size buf s
  bytes buf (s + 4) n

/-- `data()` and `size()` of a vector of scalars of so many bytes. -/
def scalars (n : Nat) (vec : Int) : Read (List Nat) := do
  let len ← size buf vec
  let data ← bytes buf (vec + 4) (n * len)
  pure ((List.range len).map fun i => littleEndian ((data.drop (n * i)).take n))

/-- What the elements of a vector of offsets lead to, in order. -/
def elements {α : Type} (read : Int → Read α) (vec : Int) : Read (List α) := do
  let len ← size buf vec
  (List.range len).mapM fun i => do
    let p ← element buf vec i
    read p

/-- The turns of a range-for over so many offsets: `end()` is `data() + 4 * size()`, where the
product is a `uoffset_t`. -/
def turns (len : Nat) : Nat := len * 4 % 2 ^ 32 / 4

/-- What the elements that a range-for comes to lead to, in order. -/
def iterated {α : Type} (read : Int → Read α) (vec : Int) : Read (List α) := do
  let len ← size buf vec
  (List.range (turns len)).mapM fun i => do
    let p ← element buf vec i
    read p

end Accessors

/-! ## The verifier -/

/-- A check that reads only what has been checked before. -/
def check (r : Read Bool) : Bool :=
  match r with
  | .ok b => b
  | .error _ => false

section Verifier
variable (buf : Buffer)

/-- `Verify(elem, elem_len)`. -/
def verifyRange (pos : Int) (n : Nat) : Bool := n < buf.length && 0 ≤ pos && pos + n ≤ buf.length

/-- `Verify<T>(elem)`, with `VerifyAlignment`. -/
def verifyScalar (n : Nat) (pos : Int) : Bool := pos % n = 0 && verifyRange buf pos n

def verifyTableStart (table : Int) : Bool :=
  verifyScalar buf 4 table && check do
    let vtable := table - (← soffset buf table)
    if verifyScalar buf 2 vtable then
      let vsize ← scalar buf vtable 2
      pure (vsize % 2 = 0 && verifyRange buf vtable vsize)
    else pure false

/-- `Table::VerifyField`. -/
def verifyField (n : Nat) (table : Int) (field : Nat) : Bool := check do
  let off ← fieldOffset buf table field
  pure (off = 0 || verifyScalar buf n (table + off))

/-- `Verifier::VerifyOffset`. -/
def verifyOffset (start : Int) : Bool :=
  verifyScalar buf 4 start && check do
    let o ← scalar buf start 4
    pure (o ≠ 0 && o < 2 ^ 31 && verifyRange buf (start + o) 1)

/-- `Table::VerifyOffset`. -/
def verifyOffsetField (table : Int) (field : Nat) : Bool := check do
  let off ← fieldOffset buf table field
  pure (off = 0 || verifyOffset buf (table + off))

/-- `Table::VerifyOffsetRequired`. -/
def verifyOffsetRequired (table : Int) (field : Nat) : Bool := check do
  let off ← fieldOffset buf table field
  pure (off ≠ 0 && verifyOffset buf (table + off))

/-- A pointer of a table, which may be null. -/
def verifyPointer (verify : Int → Bool) (table : Int) (field : Nat) : Bool := check do
  let p ← getPointer buf table field
  pure (p.all verify)

/-- `FLATBUFFERS_MAX_BUFFER_SIZE`. -/
def maxSize : Nat := 2 ^ 31 - 1

/-- `VerifyVectorOrString`. -/
def verifyVector (elemSize : Nat) (vec : Int) : Bool :=
  verifyScalar buf 4 vec && check do
    let n ← size buf vec
    pure (n < maxSize / elemSize && verifyRange buf vec (4 + elemSize * n))

/-- `VerifyString`: the byte after the text is zero. -/
def verifyString (s : Int) : Bool :=
  verifyVector buf 1 s && check do
    let n ← size buf s
    if verifyRange buf (s + 4 + n) 1 then
      let terminator ← scalar buf (s + 4 + n) 1
      pure (terminator = 0)
    else pure false

/-- `VerifyVector`, and then `VerifyVectorOfStrings` or `VerifyVectorOfTables`. -/
def verifyElements (verify : Int → Bool) (vec : Int) : Bool :=
  verifyVector buf 4 vec && check do
    let ps ← elements buf pure vec
    pure (ps.all verify)

/-- `VerifyBuffer<T>(nullptr)`. -/
def verifyBuffer (verify : Int → Bool) : Bool :=
  12 ≤ buf.length && verifyOffset buf 0 && check do
    let root ← getRoot buf
    pure (verify root)

end Verifier

/-! ## What the verifier accepts is read within the buffer -/

section Accepted
variable {α β : Type} {buf : Buffer} {r : Read α} {f : α → Read β} {table vec pos : Int}
  {field n : Nat}

theorem inside_bind : Inside (r >>= f) ↔ ∃ a, r = .ok a ∧ Inside (f a) := by
  unfold Inside
  simp only [bind_eq_ok]
  exact ⟨fun ⟨b, a, ha, hb⟩ => ⟨a, ha, b, hb⟩, fun ⟨a, ha, b, hb⟩ => ⟨b, a, ha, hb⟩⟩

theorem inside_map (h : Inside r) (g : α → β) : Inside (r.map g) := by
  obtain ⟨a, rfl⟩ := h
  exact ⟨g a, rfl⟩

theorem check_iff {b : Read Bool} : check b = true ↔ b = .ok true := by
  cases b with
  | error e => exact iff_of_false (fun h => nomatch h) fun h => nomatch h
  | ok b => simp [check]

theorem inside_bytes (h : verifyRange buf pos n = true) : Inside (bytes buf pos n) := by
  simp only [verifyRange, Bool.and_eq_true, decide_eq_true_eq] at h
  exact ⟨_, if_pos ⟨h.1.2, h.2⟩⟩

theorem length_bytes {bs : List UInt8} (h : bytes buf pos n = .ok bs) : bs.length = n := by
  unfold bytes at h
  split at h
  · next hin =>
    obtain rfl := Except.ok.inj h
    rw [List.length_take, List.length_drop]
    omega
  · cases h

theorem inside_scalar_of_range (h : verifyRange buf pos n = true) :
    Inside (scalar buf pos n) := inside_map (inside_bytes h) _

theorem inside_scalar (h : verifyScalar buf n pos = true) : Inside (scalar buf pos n) := by
  simp only [verifyScalar, Bool.and_eq_true] at h
  exact inside_scalar_of_range h.2

/-- A part of what was read can be read. -/
theorem inside_bytes_sub {m k : Nat} (h : verifyRange buf pos n = true) (hsub : m + k ≤ n) :
    Inside (bytes buf (pos + m) k) := by
  simp only [verifyRange, Bool.and_eq_true, decide_eq_true_eq] at h
  exact ⟨_, if_pos ⟨by omega, by omega⟩⟩

theorem inside_getField (h : verifyField buf n table field = true) :
    Inside (getField buf n table field) := by
  obtain ⟨off, hoff, h⟩ := bind_eq_ok.mp (check_iff.mp h)
  have hfield : (off = 0 || verifyScalar buf n (table + off)) = true := Except.ok.inj h
  refine inside_bind.mpr ⟨off, hoff, ?_⟩
  split
  · next hne =>
    rw [decide_eq_false hne, Bool.false_or] at hfield
    exact inside_scalar hfield
  · exact ⟨0, rfl⟩

theorem inside_getPointer_of_offset {off : Nat} (hoff : fieldOffset buf table field = .ok off)
    (h : off = 0 ∨ verifyOffset buf (table + off) = true) :
    Inside (getPointer buf table field) := by
  refine inside_bind.mpr ⟨off, hoff, ?_⟩
  split
  · next hne =>
    have hoffset := h.resolve_left hne
    simp only [verifyOffset, Bool.and_eq_true] at hoffset
    exact inside_bind.mpr (Exists.imp (fun _ ho => ⟨ho, _, rfl⟩) (inside_scalar hoffset.1))
  · exact ⟨none, rfl⟩

theorem inside_getPointer (h : verifyOffsetField buf table field = true) :
    Inside (getPointer buf table field) := by
  obtain ⟨off, hoff, h⟩ := bind_eq_ok.mp (check_iff.mp h)
  have hfield : (off = 0 || verifyOffset buf (table + off)) = true := Except.ok.inj h
  simp only [Bool.or_eq_true, decide_eq_true_eq] at hfield
  exact inside_getPointer_of_offset hoff hfield

theorem inside_getPointer_of_required (h : verifyOffsetRequired buf table field = true) :
    Inside (getPointer buf table field) := by
  obtain ⟨off, hoff, h⟩ := bind_eq_ok.mp (check_iff.mp h)
  have hfield : (off ≠ 0 && verifyOffset buf (table + off)) = true := Except.ok.inj h
  simp only [Bool.and_eq_true] at hfield
  exact inside_getPointer_of_offset hoff (.inr hfield.2)

/-- What a pointer that was accepted leads to was accepted. -/
theorem verifyPointer_some {verify : Int → Bool} (h : verifyPointer buf verify table field = true)
    {p : Int} (hp : getPointer buf table field = .ok (some p)) : verify p = true := by
  obtain ⟨q, hq, h⟩ := bind_eq_ok.mp (check_iff.mp h)
  rw [hp] at hq
  obtain rfl := Except.ok.inj hq
  exact Except.ok.inj h

theorem verifyVector_size (h : verifyVector buf n vec = true) :
    ∃ len, size buf vec = .ok len ∧ len < maxSize / n ∧
      verifyRange buf vec (4 + n * len) = true := by
  simp only [verifyVector, Bool.and_eq_true] at h
  obtain ⟨len, hlen, h⟩ := bind_eq_ok.mp (check_iff.mp h.2)
  have hbounds : (len < maxSize / n && verifyRange buf vec (4 + n * len)) = true :=
    Except.ok.inj h
  simp only [Bool.and_eq_true, decide_eq_true_eq] at hbounds
  exact ⟨len, hlen, hbounds⟩

theorem inside_str (h : verifyString buf vec = true) : Inside (str buf vec) := by
  simp only [verifyString, Bool.and_eq_true] at h
  obtain ⟨len, hlen, -, hrange⟩ := verifyVector_size h.1
  rw [Nat.one_mul] at hrange
  exact inside_bind.mpr ⟨len, hlen, inside_bytes_sub hrange le_rfl⟩

theorem inside_scalars (h : verifyVector buf n vec = true) : Inside (scalars buf n vec) := by
  obtain ⟨len, hlen, -, hrange⟩ := verifyVector_size h
  obtain ⟨data, hdata⟩ : Inside (bytes buf (vec + 4) (n * len)) :=
    inside_bytes_sub hrange le_rfl
  exact inside_bind.mpr ⟨len, hlen, inside_bind.mpr ⟨data, hdata, _, rfl⟩⟩

theorem inside_mapM {γ : Type} {f : α → Read β} {g : β → Read γ} {as : List α} {bs : List β}
    (hf : List.Forall₂ (fun a b => f a = .ok b) as bs) (hg : ∀ b ∈ bs, Inside (g b)) :
    Inside (as.mapM fun a => f a >>= g) := by
  induction hf with
  | nil => exact ⟨[], rfl⟩
  | cons hb _ ih =>
    obtain ⟨x, hx⟩ := hg _ List.mem_cons_self
    obtain ⟨xs, hxs⟩ := ih fun b hb => hg b (List.mem_cons_of_mem _ hb)
    rw [List.mapM_cons]
    exact ⟨x :: xs, bind_eq_ok.mpr ⟨x, bind_eq_ok.mpr ⟨_, hb, hx⟩, bind_eq_ok.mpr ⟨xs, hxs, rfl⟩⟩⟩

theorem inside_elements {verify : Int → Bool} {read : Int → Read α}
    (h : verifyElements buf verify vec = true)
    (hread : ∀ p, verify p = true → Inside (read p)) : Inside (elements buf read vec) := by
  simp only [verifyElements, Bool.and_eq_true] at h
  obtain ⟨ps, hps, h⟩ := bind_eq_ok.mp (check_iff.mp h.2)
  have hall : ps.all verify = true := Except.ok.inj h
  obtain ⟨len, hlen, hmap⟩ := bind_eq_ok.mp hps
  have helements : List.Forall₂ (fun i p => element buf vec i = .ok p) (List.range len) ps :=
    mapM_eq_ok.mp (by simpa using hmap)
  exact inside_bind.mpr ⟨len, hlen,
    inside_mapM helements fun p hp => hread p (List.all_eq_true.mp hall p hp)⟩

/-- In a vector that `Verify` accepts a range-for comes to every element. -/
theorem iterated_eq_elements {verify : Int → Bool} (read : Int → Read α)
    (h : verifyElements buf verify vec = true) : iterated buf read vec = elements buf read vec := by
  simp only [verifyElements, Bool.and_eq_true] at h
  obtain ⟨len, hlen, hlt, -⟩ := verifyVector_size h.1
  have hturns : turns len = len := by
    have hmax : maxSize / 4 < 2 ^ 30 := by decide
    unfold turns
    omega
  unfold iterated elements
  rw [hlen, ok_bind, ok_bind, hturns]

theorem verifyBuffer_root {verify : Int → Bool} (h : verifyBuffer buf verify = true) :
    ∃ root, getRoot buf = .ok root ∧ verify root = true := by
  simp only [verifyBuffer, Bool.and_eq_true] at h
  obtain ⟨root, hroot, h⟩ := bind_eq_ok.mp (check_iff.mp h.2)
  exact ⟨root, hroot, Except.ok.inj h⟩

end Accepted
end YikvServer.Theory.FlatBuffers
