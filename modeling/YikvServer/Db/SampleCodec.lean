import YikvServer.Theory.Protobuf
import Mathlib.Data.Nat.Bitwise

/-!
# The codec of `yikv_db_sample.py`

The sampler speaks gRPC without the protobuf runtime: it writes the one field of a request
and walks over the fields of a response by hand. Python's integers have no width; a slice
that ends beyond the buffer is cut off there.
-/
namespace YikvServer.Db.Sample

open YikvServer.Theory.Protobuf

/-- `ValueError`. -/
structure ValueError where
  message : String
  deriving DecidableEq, Repr

def pbEncodeVarint (n : Nat) : List UInt8 :=
  if n ≥ 0x80 then UInt8.ofNat ((n &&& 0x7F) ||| 0x80) :: pbEncodeVarint (n >>> 7)
  else [UInt8.ofNat n]
termination_by n
decreasing_by
  rw [Nat.shiftRight_eq_div_pow]
  omega

/-- The loop of `_pb_decode_varint`. -/
def pbDecodeLoop (buf : List UInt8) (x shift pos : Nat) : Except ValueError (Nat × Nat) :=
  if h : pos < buf.length then
    let b := buf[pos].toNat
    let x := x ||| ((b &&& 0x7F) <<< shift)
    if b &&& 0x80 = 0 then .ok (x, pos + 1) else pbDecodeLoop buf x (shift + 7) (pos + 1)
  else .error ⟨"truncated protobuf varint"⟩
termination_by buf.length - pos

def pbDecodeVarint (buf : List UInt8) (pos : Nat) : Except ValueError (Nat × Nat) :=
  pbDecodeLoop buf 0 0 pos

def pbWrapFbRequest (fbBody : List UInt8) : List UInt8 :=
  let tag := (1 <<< 3) ||| 2
  pbEncodeVarint tag ++ pbEncodeVarint fbBody.length ++ fbBody

/-- One turn of the loop of `_pb_unwrap_fb_response`, on `pos` and `payload`. -/
def pbUnwrapField (buf : List UInt8) (pos : Nat) (payload : List UInt8) :
    Except ValueError (Nat × List UInt8) :=
  match pbDecodeVarint buf pos with
  | .error e => .error e
  | .ok (key, pos) =>
    let field := key >>> 3
    let wt := key &&& 7
    if wt = 2 then
      match pbDecodeVarint buf pos with
      | .error e => .error e
      | .ok (ln, pos) =>
        let chunk := (buf.drop pos).take ln
        .ok (pos + ln, if field = 1 then chunk else payload)
    else if wt = 0 then
      match pbDecodeVarint buf pos with
      | .error e => .error e
      | .ok (_, pos) => .ok (pos, payload)
    else if wt = 5 then .ok (pos + 4, payload)
    else if wt = 1 then .ok (pos + 8, payload)
    else .error ⟨"unsupported protobuf wire type " ++ toString wt⟩

theorem pbDecodeLoop_lt {buf : List UInt8} {x shift pos n pos' : Nat}
    (h : pbDecodeLoop buf x shift pos = .ok (n, pos')) : pos < pos' := by
  induction x, shift, pos using pbDecodeLoop.induct buf with
  | case1 x shift pos hpos b hlast =>
    rw [pbDecodeLoop, dif_pos hpos, if_pos hlast] at h
    obtain ⟨-, rfl⟩ := Prod.mk.inj (Except.ok.inj h)
    exact Nat.lt_succ_self pos
  | case2 x shift pos hpos b _ hmore ih =>
    rw [pbDecodeLoop, dif_pos hpos, if_neg hmore] at h
    exact Nat.lt_of_succ_lt (ih h)
  | case3 x shift pos hpos =>
    rw [pbDecodeLoop, dif_neg hpos] at h
    cases h

/-- A turn that does not raise goes forward. -/
theorem pbUnwrapField_lt {buf payload payload' : List UInt8} {pos pos' : Nat}
    (h : pbUnwrapField buf pos payload = .ok (pos', payload')) : pos < pos' := by
  unfold pbUnwrapField at h
  split at h
  · cases h
  rename_i key pos₁ hkey
  have hlt : pos < pos₁ := pbDecodeLoop_lt hkey
  dsimp only at h
  split at h
  · split at h
    · cases h
    rename_i ln pos₂ hln
    have hlt₂ : pos₁ < pos₂ := pbDecodeLoop_lt hln
    obtain ⟨rfl, -⟩ := Prod.mk.inj (Except.ok.inj h)
    omega
  split at h
  · split at h
    · cases h
    rename_i v pos₂ hv
    have hlt₂ : pos₁ < pos₂ := pbDecodeLoop_lt hv
    obtain ⟨rfl, -⟩ := Prod.mk.inj (Except.ok.inj h)
    omega
  split at h
  · obtain ⟨rfl, -⟩ := Prod.mk.inj (Except.ok.inj h)
    omega
  split at h
  · obtain ⟨rfl, -⟩ := Prod.mk.inj (Except.ok.inj h)
    omega
  · cases h

/-- The loop, with where it ends. Every turn goes forward, so it ends on every buffer. -/
def pbUnwrapLoop (buf : List UInt8) (pos : Nat) (payload : List UInt8) :
    Except ValueError (Nat × List UInt8) :=
  if pos < buf.length then
    match h : pbUnwrapField buf pos payload with
    | .error e => .error e
    | .ok (pos', payload') => pbUnwrapLoop buf pos' payload'
  else .ok (pos, payload)
termination_by buf.length - pos
decreasing_by
  have hlt := pbUnwrapField_lt h
  omega

def pbUnwrapFbResponse (buf : List UInt8) : Except ValueError (List UInt8) :=
  (pbUnwrapLoop buf 0 []).map Prod.snd

/-! ## Varints -/

variable {buf pre post bytes payload : List UInt8} {x shift n : Nat} {b : UInt8}

theorem high_bit (b : UInt8) : b.toNat &&& 0x80 = 0 ↔ b.toNat < 128 := by
  have hlt := b.toNat_lt
  have hbit : b.toNat &&& 2 ^ 7 = (b.toNat.testBit 7).toNat * 2 ^ 7 := Nat.and_two_pow _ 7
  rw [show (0x80 : Nat) = 2 ^ 7 from rfl, hbit, Nat.testBit_eq_decide_div_mod_eq]
  by_cases hb : b.toNat < 128
  · have hdiv : b.toNat / 2 ^ 7 = 0 := Nat.div_eq_of_lt hb
    rw [hdiv]
    simp [hb]
  · have hdiv : b.toNat / 2 ^ 7 = 1 := by omega
    rw [hdiv]
    simp [hb]

/-- The bits of a byte go above those that were read before. -/
theorem or_group (h : x < 2 ^ shift) (b : UInt8) :
    x ||| ((b.toNat &&& 0x7F) <<< shift) = x + 2 ^ shift * (b.toNat % 128) := by
  have hlow : b.toNat &&& 0x7F = b.toNat % 128 := Nat.and_two_pow_sub_one_eq_mod b.toNat 7
  rw [hlow, Nat.shiftLeft_eq, Nat.mul_comm, Nat.or_comm, ← Nat.two_pow_add_eq_or_of_lt h,
    Nat.add_comm]

variable (pre post) in
theorem pbDecodeLoop_bytes (h : Continued bytes) (hx : x < 2 ^ shift) :
    pbDecodeLoop (pre ++ (bytes ++ post)) x shift pre.length =
      .ok (x + 2 ^ shift * groups bytes, pre.length + bytes.length) := by
  induction bytes generalizing pre x shift with
  | nil => exact h.elim
  | cons b bs ih =>
    have hpos : pre.length < (pre ++ (b :: bs ++ post)).length := by simp
    have hget : (pre ++ (b :: bs ++ post))[pre.length] = b := by simp
    rw [pbDecodeLoop, dif_pos hpos]
    dsimp only
    rw [hget, or_group hx]
    rcases h.cases with ⟨hb, rfl⟩ | ⟨hb, hrest⟩
    · rw [if_pos ((high_bit b).mpr hb)]
      rfl
    · have hbuf : pre ++ (b :: bs ++ post) = (pre ++ [b]) ++ (bs ++ post) := by simp
      have hlen : pre.length + 1 = (pre ++ [b]).length := by simp
      have hnext : x + 2 ^ shift * (b.toNat % 128) < 2 ^ (shift + 7) := by
        have hmod : b.toNat % 128 ≤ 127 := by omega
        calc x + 2 ^ shift * (b.toNat % 128)
            < 2 ^ shift + 2 ^ shift * 127 := by
              exact Nat.add_lt_add_of_lt_of_le hx (Nat.mul_le_mul_left _ hmod)
          _ = 2 ^ (shift + 7) := by rw [Nat.pow_add]; omega
      rw [if_neg (by rw [high_bit]; omega), hbuf, hlen, ih (pre ++ [b]) hrest hnext, groups, List.length_cons,
        List.length_append, Nat.pow_add, Nat.mul_add, Nat.mul_assoc, Nat.add_assoc]
      congr 2
      simp only [List.length_cons, List.length_nil]
      omega

/-- A varint is read wherever it stands. -/
theorem pbDecodeVarint_bytes (v : Varint) :
    pbDecodeVarint (pre ++ (v.bytes ++ post)) pre.length =
      .ok (v.value, pre.length + v.bytes.length) := by
  have hloop := pbDecodeLoop_bytes pre post v.continued (Nat.two_pow_pos 0)
  rw [Nat.pow_zero, Nat.zero_add, Nat.one_mul] at hloop
  exact hloop

theorem pbEncodeVarint_eq (n : Nat) : pbEncodeVarint n = (Varint.ofNat n).bytes := by
  show pbEncodeVarint n = minimal n
  induction n using Nat.strongRecOn with
  | ind n ih =>
    have hlow : n &&& 0x7F = n % 128 := Nat.and_two_pow_sub_one_eq_mod n 7
    have hor : (n % 128) ||| 0x80 = n % 128 + 128 := by
      have htop := Nat.two_pow_add_eq_or_of_lt (i := 7) (b := n % 128) (by omega) 1
      rw [Nat.or_comm, Nat.add_comm]
      exact htop.symm
    have hshift : n >>> 7 = n / 128 := Nat.shiftRight_eq_div_pow n 7
    rw [pbEncodeVarint]
    split
    · rename_i hge
      rw [minimal_of_le hge, hlow, hor, hshift, ih (n / 128) (by omega)]
    · rename_i hlt
      rw [minimal_of_lt (by omega)]

/-! ## Fields -/

variable (pre post) in
/-- One turn passes one field, whatever its wire type. -/
theorem pbUnwrapField_bytes (f : Field) (payload : List UInt8) :
    pbUnwrapField (pre ++ (f.bytes ++ post)) pre.length payload =
      .ok (pre.length + f.bytes.length, (f.payloadOf 1).getD payload) := by
  obtain ⟨key, body, htag⟩ := f
  have hbuf : pre ++ (Field.bytes ⟨key, body, htag⟩ ++ post) =
      pre ++ (key.bytes ++ (body.bytes ++ post)) := by simp [Field.bytes]
  have hbuf' : pre ++ (key.bytes ++ (body.bytes ++ post)) =
      (pre ++ key.bytes) ++ (body.bytes ++ post) := (List.append_assoc ..).symm
  have hpos : pre.length + key.bytes.length = (pre ++ key.bytes).length :=
    List.length_append.symm
  have hwt : key.value &&& 7 = body.wireType :=
    (Nat.and_two_pow_sub_one_eq_mod key.value 3).trans htag
  have hnum : key.value >>> 3 = Field.number ⟨key, body, htag⟩ :=
    Nat.shiftRight_eq_div_pow key.value 3
  have hlen : pre.length + (Field.bytes ⟨key, body, htag⟩).length =
      (pre ++ key.bytes).length + body.bytes.length := by
    simp [Field.bytes]
    omega
  rw [hlen, hbuf]
  unfold pbUnwrapField
  rw [pbDecodeVarint_bytes key]
  dsimp only
  rw [hwt, hnum, hpos]
  cases body with
  | varint v =>
    rw [hbuf', Body.bytes, pbDecodeVarint_bytes v]
    simp [Body.wireType, Field.payloadOf, Body.payload?]
  | fixed64 bytes size =>
    simp [Body.wireType, Body.bytes, Field.payloadOf, Body.payload?, size]
  | fixed32 bytes size =>
    simp [Body.wireType, Body.bytes, Field.payloadOf, Body.payload?, size]
  | lengthDelimited len chunk size =>
    have hbuf'' : (pre ++ key.bytes) ++ (len.bytes ++ chunk ++ post) =
        (pre ++ key.bytes) ++ (len.bytes ++ (chunk ++ post)) := by simp
    have hdrop : ((pre ++ key.bytes) ++ (len.bytes ++ (chunk ++ post))).drop
        ((pre ++ key.bytes).length + len.bytes.length) = chunk ++ post := by
      rw [← List.append_assoc, ← List.length_append, List.drop_left]
    have hchunk : (chunk ++ post).take len.value = chunk := by
      rw [← size, List.take_left]
    rw [hbuf', Body.bytes, hbuf'', pbDecodeVarint_bytes len]
    dsimp only
    rw [hdrop, hchunk, if_pos (show (Body.lengthDelimited len chunk size).wireType = 2 from rfl),
      show (len.bytes ++ chunk).length = _ from List.length_append, size, Nat.add_assoc]
    congr 2
    unfold Field.payloadOf
    split <;> rfl

variable (pre) in
/-- The loop passes a message field by field and ends at its last byte. -/
theorem pbUnwrapLoop_encode (fields : List Field) (payload : List UInt8) :
    pbUnwrapLoop (pre ++ encode fields) pre.length payload =
      .ok ((pre ++ encode fields).length, (lastPayload 1 fields).getD payload) := by
  induction fields generalizing pre payload with
  | nil =>
    rw [pbUnwrapLoop, if_neg (by simp [encode])]
    simp [encode, lastPayload]
  | cons f fields ih =>
    have hfield := pbUnwrapField_bytes pre (encode fields) f payload
    have hkey : f.key.bytes ≠ [] := fun he => by
      have hcontinued := f.key.continued
      rw [he] at hcontinued
      exact hcontinued
    have hpos : pre.length < (pre ++ (f.bytes ++ encode fields)).length := by
      have hlen := List.length_pos_iff.mpr hkey
      simp only [List.length_append, Field.bytes]
      omega
    rw [encode_cons, pbUnwrapLoop, if_pos hpos]
    split
    · rename_i e he
      rw [hfield] at he
      cases he
    · rename_i pos' payload' he
      rw [hfield] at he
      obtain ⟨rfl, rfl⟩ := Prod.mk.inj (Except.ok.inj he)
      have hbuf : pre ++ (f.bytes ++ encode fields) = (pre ++ f.bytes) ++ encode fields :=
        (List.append_assoc ..).symm
      rw [hbuf, ← List.length_append, ih, lastPayload_cons]

theorem pbWrapFbRequest_eq (x : List UInt8) :
    pbWrapFbRequest x = encode [Field.ofPayload 1 x] := by
  simp [pbWrapFbRequest, pbEncodeVarint_eq, encode, Field.bytes, Field.ofPayload, Body.bytes]

/-- What is wrapped is unwrapped again; and every message, of any fields in any order, is
walked to its end, with the last payload of field 1 as the result, or nothing. -/
theorem pbUnwrap_correct :
    (∀ x, pbUnwrapFbResponse (pbWrapFbRequest x) = .ok x) ∧
      ∀ fields : List Field,
        pbUnwrapLoop (encode fields) 0 [] =
          .ok ((encode fields).length, (lastPayload 1 fields).getD []) ∧
        pbUnwrapFbResponse (encode fields) = .ok ((lastPayload 1 fields).getD []) := by
  have hloop : ∀ fields : List Field, pbUnwrapLoop (encode fields) 0 [] =
      .ok ((encode fields).length, (lastPayload 1 fields).getD []) := fun fields =>
    pbUnwrapLoop_encode [] fields []
  have hmessage : ∀ fields : List Field,
      pbUnwrapFbResponse (encode fields) = .ok ((lastPayload 1 fields).getD []) := by
    intro fields
    unfold pbUnwrapFbResponse
    rw [hloop]
    rfl
  refine ⟨fun x => ?_, fun fields => ⟨hloop fields, hmessage fields⟩⟩
  rw [pbWrapFbRequest_eq, hmessage]
  simp [lastPayload, Field.payloadOf, Field.number, Field.ofPayload, Body.payload?]

end YikvServer.Db.Sample
