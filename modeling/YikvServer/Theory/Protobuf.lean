import Mathlib.Data.List.Basic

/-!
# The protobuf wire format

Varints, fields and messages as bytes. A varint is any number of bytes with the high bit
and one without, so that encodings longer than needed are varints too; a field is a key,
which carries the number and the wire type, and a body of that type; a message is a list
of fields in any order.
-/
namespace YikvServer.Theory.Protobuf

/-- Seven bits a byte, the low ones first. -/
def groups : List UInt8 → Nat
  | [] => 0
  | b :: bs => b.toNat % 128 + 128 * groups bs

/-- The high bit is on all bytes but the last. -/
def Continued : List UInt8 → Prop
  | [] => False
  | [b] => b.toNat < 128
  | b :: b' :: bs => 128 ≤ b.toNat ∧ Continued (b' :: bs)

structure Varint where
  bytes : List UInt8
  continued : Continued bytes

def Varint.value (v : Varint) : Nat := groups v.bytes

variable {b : UInt8} {bs : List UInt8} {n : Nat}

theorem Continued.cons (hb : 128 ≤ b.toNat) (h : Continued bs) : Continued (b :: bs) := by
  cases bs with
  | nil => exact h.elim
  | cons b' bs => exact ⟨hb, h⟩

/-- The last byte of a varint, or one before it. -/
theorem Continued.cases (h : Continued (b :: bs)) :
    b.toNat < 128 ∧ bs = [] ∨ 128 ≤ b.toNat ∧ Continued bs := by
  cases bs with
  | nil => exact Or.inl ⟨h, rfl⟩
  | cons b' bs => exact Or.inr h

/-- The shortest varint of a number. -/
def minimal (n : Nat) : List UInt8 :=
  if n < 128 then [UInt8.ofNat n] else UInt8.ofNat (n % 128 + 128) :: minimal (n / 128)
termination_by n
decreasing_by omega

theorem minimal_of_lt (h : n < 128) : minimal n = [UInt8.ofNat n] := by
  rw [minimal, if_pos h]

theorem minimal_of_le (h : 128 ≤ n) :
    minimal n = UInt8.ofNat (n % 128 + 128) :: minimal (n / 128) := by
  rw [minimal, if_neg (by omega)]

theorem toNat_byte (h : n < 256) : (UInt8.ofNat n).toNat = n := by
  rw [UInt8.toNat_ofNat', Nat.mod_eq_of_lt h]

theorem continued_minimal (n : Nat) : Continued (minimal n) := by
  induction n using Nat.strongRecOn with
  | ind n ih =>
    by_cases h : n < 128
    · rw [minimal_of_lt h]
      show (UInt8.ofNat n).toNat < 128
      rwa [toNat_byte (by omega)]
    · rw [minimal_of_le (by omega)]
      refine Continued.cons ?_ (ih (n / 128) (by omega))
      rw [toNat_byte (by omega)]
      omega

theorem groups_minimal (n : Nat) : groups (minimal n) = n := by
  induction n using Nat.strongRecOn with
  | ind n ih =>
    by_cases h : n < 128
    · rw [minimal_of_lt h, groups, groups, toNat_byte (by omega)]
      omega
    · rw [minimal_of_le (by omega), groups, ih (n / 128) (by omega), toNat_byte (by omega)]
      omega

def Varint.ofNat (n : Nat) : Varint := ⟨minimal n, continued_minimal n⟩

@[simp] theorem Varint.value_ofNat (n : Nat) : (Varint.ofNat n).value = n := groups_minimal n

/-- The body of a field, by its wire type. -/
inductive Body where
  | varint (v : Varint)
  | fixed64 (bytes : List UInt8) (size : bytes.length = 8)
  | lengthDelimited (len : Varint) (payload : List UInt8) (size : payload.length = len.value)
  | fixed32 (bytes : List UInt8) (size : bytes.length = 4)

namespace Body

def wireType : Body → Nat
  | varint _ => 0
  | fixed64 _ _ => 1
  | lengthDelimited _ _ _ => 2
  | fixed32 _ _ => 5

def bytes : Body → List UInt8
  | varint v => v.bytes
  | fixed64 bytes _ => bytes
  | lengthDelimited len payload _ => len.bytes ++ payload
  | fixed32 bytes _ => bytes

def payload? : Body → Option (List UInt8)
  | lengthDelimited _ payload _ => some payload
  | _ => none

end Body

/-- The key is the number times eight and the wire type. -/
structure Field where
  key : Varint
  body : Body
  tagged : key.value % 8 = body.wireType

namespace Field

def number (f : Field) : Nat := f.key.value / 8

def bytes (f : Field) : List UInt8 := f.key.bytes ++ f.body.bytes

/-- The payload of a length-delimited field of this number. -/
def payloadOf (number : Nat) (f : Field) : Option (List UInt8) :=
  if f.number = number then f.body.payload? else none

/-- The field with the shortest key and length. -/
def ofPayload (number : Nat) (payload : List UInt8) : Field where
  key := .ofNat (number * 8 + 2)
  body := .lengthDelimited (.ofNat payload.length) payload (Varint.value_ofNat _).symm
  tagged := by
    rw [Varint.value_ofNat]
    show (number * 8 + 2) % 8 = 2
    omega

end Field

/-- The bytes of a message. -/
def encode (fields : List Field) : List UInt8 := fields.flatMap Field.bytes

/-- What a message says of an optional bytes field: its last payload counts. -/
def lastPayload (number : Nat) (fields : List Field) : Option (List UInt8) :=
  (fields.filterMap (Field.payloadOf number)).getLast?

theorem encode_cons (f : Field) (fields : List Field) :
    encode (f :: fields) = f.bytes ++ encode fields := rfl

/-- A later payload replaces what was there. -/
theorem lastPayload_cons (number : Nat) (f : Field) (fields : List Field) (old : List UInt8) :
    (lastPayload number (f :: fields)).getD old =
      (lastPayload number fields).getD ((f.payloadOf number).getD old) := by
  unfold lastPayload
  cases hf : f.payloadOf number with
  | none => rw [List.filterMap_cons_none hf]; rfl
  | some payload =>
    rw [List.filterMap_cons_some hf, List.getLast?_cons]
    rfl

end YikvServer.Theory.Protobuf
