import YikvServer.Theory.FlatBuffers
import Mathlib.Algebra.Group.Nat.Defs

/-!
# Building a FlatBuffer

`FlatBufferBuilder` of the C++ library. The buffer grows towards lower addresses, so that
what is in it is found by its distance from the end, its offset, which further growth does
not change. An assertion that fails ends the program. The assertion that bounds the size of
the buffer is left to the statements, and so is an arithmetic that wraps above it.
-/
namespace YikvServer.Theory.FlatBuffers

/-! ## Programs with assertions -/

/-- A program over a state, which an assertion can end. -/
abbrev Asserted (σ α : Type) := StateT σ Option α

section Asserted
variable {σ α β : Type} {m : Asserted σ α} {f : α → Asserted σ β} {s : σ} {Q R : α → σ → Prop}

def assert (c : Prop) [Decidable c] : Asserted σ Unit := fun s => if c then some ((), s) else none

/-- No assertion fails, and the end is as it should be. -/
def Ends (m : Asserted σ α) (s : σ) (Q : α → σ → Prop) : Prop :=
  ∃ a s', m.run s = some (a, s') ∧ Q a s'

theorem Ends.imp (h : Ends m s Q) (himp : ∀ a s', Q a s' → R a s') : Ends m s R := by
  obtain ⟨a, s', hrun, hQ⟩ := h
  exact ⟨a, s', hrun, himp a s' hQ⟩

theorem ends_pure {a : α} : Ends (pure a : Asserted σ α) s Q ↔ Q a s := by
  constructor
  · rintro ⟨_, _, ⟨rfl⟩, h⟩
    exact h
  · exact fun h => ⟨a, s, rfl, h⟩

theorem ends_bind {T : β → σ → Prop} :
    Ends (m >>= f) s T ↔ Ends m s fun a s' => Ends (f a) s' T := by
  constructor
  · rintro ⟨b, t, hrun, hT⟩
    rw [StateT.run_bind] at hrun
    obtain ⟨⟨a, s'⟩, hm, hf⟩ := Option.bind_eq_some_iff.mp hrun
    exact ⟨a, s', hm, b, t, hf, hT⟩
  · rintro ⟨a, s', hm, b, t, hf, hT⟩
    refine ⟨b, t, ?_, hT⟩
    rw [StateT.run_bind]
    exact Option.bind_eq_some_iff.mpr ⟨(a, s'), hm, hf⟩

theorem ends_get {Q : σ → σ → Prop} : Ends (get : Asserted σ σ) s Q ↔ Q s s := by
  constructor
  · rintro ⟨_, _, ⟨rfl⟩, h⟩
    exact h
  · exact fun h => ⟨s, s, rfl, h⟩

theorem ends_modify {g : σ → σ} {Q : Unit → σ → Prop} :
    Ends (modify g : Asserted σ Unit) s Q ↔ Q () (g s) := by
  constructor
  · rintro ⟨_, _, ⟨rfl⟩, h⟩
    exact h
  · exact fun h => ⟨(), g s, rfl, h⟩

theorem ends_assert {c : Prop} [Decidable c] {Q : Unit → σ → Prop} :
    Ends (assert c) s Q ↔ c ∧ Q () s := by
  by_cases hc : c
  · constructor
    · rintro ⟨_, _, hrun, h⟩
      obtain ⟨rfl, rfl⟩ := Prod.mk.inj (Option.some.inj ((if_pos hc).symm.trans hrun))
      exact ⟨hc, h⟩
    · rintro ⟨-, h⟩
      exact ⟨(), s, if_pos hc, h⟩
  · constructor
    · rintro ⟨_, _, hrun, -⟩
      cases (if_neg hc).symm.trans hrun
    · exact fun h => absurd h.1 hc

/-- A loop ends as it should when each turn keeps what is true of the turns so far. -/
theorem ends_forM {f : α → Asserted σ PUnit} (Inv : List α → σ → Prop) {as : List α}
    (hturn : ∀ before a after s, as = before ++ a :: after → Inv before s →
      Ends (f a) s fun _ s' => Inv (before ++ [a]) s')
    (h : Inv [] s) : Ends (as.forM f) s fun _ s' => Inv as s' := by
  suffices hrest : ∀ rest before s, as = before ++ rest → Inv before s →
      Ends (rest.forM f) s fun _ s' => Inv as s' from hrest as [] s rfl h
  intro rest
  induction rest with
  | nil =>
    intro before s has hinv
    rw [has, List.append_nil]
    exact ends_pure.mpr hinv
  | cons a rest ih =>
    intro before s has hinv
    refine ends_bind.mpr ((hturn before a rest s has hinv).imp fun _ s' hinv' => ?_)
    exact ih (before ++ [a]) s' (by rw [has, List.append_assoc, List.singleton_append]) hinv'

end Asserted

/-! ## Numbers as bytes -/

/-- A number in so many bytes, the lowest first. -/
def scalarBytes : Nat → Nat → List UInt8
  | 0, _ => []
  | n + 1, v => UInt8.ofNat v :: scalarBytes n (v / 256)

@[simp] theorem length_scalarBytes (n v : Nat) : (scalarBytes n v).length = n := by
  induction n generalizing v with
  | zero => rfl
  | succ n ih => rw [scalarBytes, List.length_cons, ih]

/-- What is written and read back is the number, as far as the bytes go. -/
theorem littleEndian_scalarBytes (n v : Nat) :
    littleEndian (scalarBytes n v) = v % 256 ^ n := by
  induction n generalizing v with
  | zero =>
    rw [Nat.pow_zero, Nat.mod_one]
    rfl
  | succ n ih =>
    have htail : littleEndian (scalarBytes (n + 1) v) =
        v % 256 + 256 * littleEndian (scalarBytes n (v / 256)) := by
      rw [scalarBytes, littleEndian, List.map_cons, Nat.ofDigits_cons, UInt8.toNat_ofNat']
      rfl
    rw [htail, ih, Nat.pow_succ', Nat.mod_mul]

/-! ## The builder -/

/-- `FieldLoc`. -/
structure FieldLoc where
  off : Nat
  id : Nat
  deriving DecidableEq, Repr

/-- `FlatBufferBuilder`: the bytes from `cur_` on, the offsets of the vtables and the fields
of the table being built, which share the scratch pad, and the flags. -/
structure Builder where
  buf : List UInt8 := []
  vtables : List Nat := []
  fieldLocs : List FieldLoc := []
  maxVoffset : Nat := 0
  nested : Bool := false
  finished : Bool := false
  minalign : Nat := 1
  deriving DecidableEq, Repr

abbrev Build := Asserted Builder

/-- `PaddingBytes`, on `size_t`. -/
def paddingBytes (bufSize scalarSize : Nat) : Nat :=
  ((~~~BitVec.ofNat 64 bufSize + 1) &&& (BitVec.ofNat 64 scalarSize - 1)).toNat

namespace Builder

/-- `GetSize`. -/
def size (b : Builder) : Nat := b.buf.length

def push (b : Builder) (bs : List UInt8) : Builder := { b with buf := bs ++ b.buf }

def fill (b : Builder) (n : Nat) : Builder := b.push (List.replicate n 0)

def trackMinAlign (b : Builder) (elemSize : Nat) : Builder :=
  if elemSize > b.minalign then { b with minalign := elemSize } else b

def align (b : Builder) (elemSize : Nat) : Builder :=
  (b.trackMinAlign elemSize).fill (paddingBytes b.size elemSize)

def preAlign (b : Builder) (len alignment : Nat) : Builder :=
  if len = 0 then b else (b.trackMinAlign alignment).fill (paddingBytes (b.size + len) alignment)

/-- `data_at`: the bytes from an offset on. -/
def dataAt (b : Builder) (offset : Nat) : List UInt8 := b.buf.drop (b.size - offset)

end Builder

/-- `PushElement`, of a scalar of so many bytes. -/
def pushElement (n v : Nat) : Build Nat := do
  modify fun b => (b.align n).push (scalarBytes n v)
  return (← get).size

def referTo (off : Nat) : Build Nat := do
  modify (·.align 4)
  let size := (← get).size
  assert (off ≠ 0 ∧ off ≤ size)
  return size - off + 4

def notNested : Build Unit := do
  let b ← get
  assert (b.nested = false)
  assert (b.fieldLocs = [])

def trackField (field off : Nat) : Build Unit :=
  modify fun b => { b with
    fieldLocs := b.fieldLocs ++ [⟨off, field⟩]
    maxVoffset := if field > b.maxVoffset then field else b.maxVoffset }

/-- `AddElement`, of a value that is or is not equal to the default. -/
def addElement (n field v : Nat) (isDefault : Bool) : Build Unit :=
  if isDefault then pure ()
  else do trackField field (← pushElement n v)

def addOffset (field off : Nat) : Build Unit :=
  if off = 0 then pure ()
  else do
    let r ← referTo off
    addElement 4 field r (r = 0)

def startTable : Build Nat := do
  notNested
  modify fun b => { b with nested := true }
  return (← get).size

/-- `WriteScalar`: the bytes from a place on are replaced. -/
def writeAt (buf : List UInt8) (pos : Nat) (bs : List UInt8) : List UInt8 :=
  buf.take pos ++ bs ++ buf.drop (pos + bs.length)

/-- `ReadScalar<voffset_t>`. -/
def voffsetAt (buf : List UInt8) (pos : Nat) : Nat := littleEndian ((buf.drop pos).take 2)

/-- The turn of `EndTable` for one field. -/
def writeFieldLoc (vtableOffsetLoc : Nat) (loc : FieldLoc) : Build Unit := do
  let b ← get
  assert (voffsetAt b.buf loc.id = 0)
  modify fun b => { b with buf := writeAt b.buf loc.id (scalarBytes 2 (vtableOffsetLoc - loc.off)) }

def clearOffsets : Build Unit :=
  modify fun b => { b with fieldLocs := [], maxVoffset := 0 }

/-- The vtable of the scratch pad that has the layout of the one at the front. -/
def sameVtable (b : Builder) : Option Nat :=
  b.vtables.find? fun offset =>
    voffsetAt (b.dataAt offset) 0 = voffsetAt b.buf 0 ∧
      (b.dataAt offset).take (voffsetAt b.buf 0) = b.buf.take (voffsetAt b.buf 0)

/-- A `soffset_t` in its bytes. -/
def soffsetBytes (i : Int) : List UInt8 := scalarBytes 4 (i % 4294967296).toNat

/-- The end of `EndTable`: the vtable at the front stays, or goes when one of the same layout
is there, and the table is made to lead to the one in use. -/
def useVtable (vtableOffsetLoc : Nat) : Build Unit := do
  let b ← get
  let same := sameVtable b
  let vtUse := same.getD b.size
  if same.isSome then
    modify fun b => { b with buf := b.buf.drop (b.size - vtableOffsetLoc) }
  if vtUse = (← get).size then
    modify fun b => { b with vtables := b.vtables ++ [vtUse] }
  modify fun b => { b with
    buf := writeAt b.buf (b.size - vtableOffsetLoc) (soffsetBytes (vtUse - vtableOffsetLoc)) }

def endTable (start : Nat) : Build Nat := do
  assert ((← get).nested = true)
  let vtableOffsetLoc ← pushElement 4 0
  modify fun b => { b with maxVoffset := max ((b.maxVoffset + 2) % 65536) 4 }
  modify fun b => b.fill b.maxVoffset
  let tableObjectSize := vtableOffsetLoc - start
  assert (tableObjectSize < 65536)
  modify fun b => { b with buf := writeAt b.buf 2 (scalarBytes 2 tableObjectSize) }
  modify fun b => { b with buf := writeAt b.buf 0 (scalarBytes 2 b.maxVoffset) }
  (← get).fieldLocs.forM (writeFieldLoc vtableOffsetLoc)
  clearOffsets
  useVtable vtableOffsetLoc
  modify fun b => { b with nested := false }
  return vtableOffsetLoc

/-- One call of `AddElement` or `AddOffset`. -/
inductive Add where
  | element (n field v : Nat) (isDefault : Bool)
  | offset (field off : Nat)
  deriving DecidableEq, Repr

def add : Add → Build Unit
  | .element n field v isDefault => addElement n field v isDefault
  | .offset field off => addOffset field off

/-- A table, by the calls between `StartTable` and `EndTable`. -/
def createTable (adds : List Add) : Build Nat := do
  let start ← startTable
  adds.forM add
  endTable start

/-- `Required`: the field is in the vtable of the table. -/
def required (table field : Nat) : Build Unit := do
  let b ← get
  let off := fieldOffset b.buf ((b.size : Int) - table) field
  assert (off.toOption.getD 0 ≠ 0)

/-- `CreateString`. -/
def createString (str : List UInt8) : Build Nat := do
  notNested
  modify fun b => ((b.preAlign (str.length + 1) 4).fill 1).push str
  pushElement 4 str.length

/-- `StartVector`. -/
def startVector (len elemSize : Nat) : Build Unit := do
  notNested
  modify fun b => { b with nested := true }
  modify fun b => (b.preAlign (len * elemSize) 4).preAlign (len * elemSize) elemSize

/-- `EndVector`. -/
def endVector (len : Nat) : Build Nat := do
  assert ((← get).nested = true)
  modify fun b => { b with nested := false }
  pushElement 4 len

/-- `CreateVector`, of scalars of so many bytes. -/
def createVector (n : Nat) (v : List Nat) : Build Nat := do
  startVector v.length n
  modify (·.push (v.flatMap (scalarBytes n)))
  endVector v.length

/-- `PushElement`, of an offset. -/
def pushOffset (off : Nat) : Build Unit := do
  let r ← referTo off
  let _ ← pushElement 4 r

/-- `CreateVector`, of offsets: the last is pushed first. -/
def createVectorOfOffsets (v : List Nat) : Build Nat := do
  startVector v.length 4
  v.reverse.forM pushOffset
  endVector v.length

def finish (root : Nat) : Build Unit := do
  assert ((← get).finished = false)
  notNested
  modify fun b => { b with vtables := [] }
  modify fun b => b.preAlign 4 b.minalign
  let r ← referTo root
  let _ ← pushElement 4 r
  modify fun b => { b with finished := true }

/-- What `GetBufferPointer` and `GetSize` give after `Finish` of what the program builds. -/
def built (m : Build Nat) : Option Buffer :=
  ((m >>= finish).run {}).map fun (_, b) => b.buf

end YikvServer.Theory.FlatBuffers
