import YikvServer.Theory.FlatBufferBuilder
import Mathlib.Algebra.GroupWithZero.Nat

/-!
# Where a builder puts what it builds

A finished buffer ends with what is in a builder at any time before, and is as long as the
greatest alignment asked for requires. What is read and verified at an offset of a builder,
in whatever buffer it becomes, stays so as the builder grows.
-/
namespace YikvServer.Theory.FlatBuffers

/-! ## Padding -/

theorem dvd_eight {n : Nat} : n ∣ 8 ↔ n = 1 ∨ n = 2 ∨ n = 4 ∨ n = 8 := by
  constructor
  · intro h
    have hle := Nat.le_of_dvd (by decide) h
    have hall : ∀ m ≤ 8, m ∣ 8 → m = 1 ∨ m = 2 ∨ m = 4 ∨ m = 8 := by decide
    exact hall n hle h
  · rintro (rfl | rfl | rfl | rfl) <;> decide

theorem dvd_max_left {a b : Nat} (ha : a ∣ 8) (hb : b ∣ 8) : a ∣ max a b := by
  obtain rfl | rfl | rfl | rfl := dvd_eight.mp ha <;>
    obtain rfl | rfl | rfl | rfl := dvd_eight.mp hb <;> decide

theorem dvd_max_right {a b : Nat} (ha : a ∣ 8) (hb : b ∣ 8) : b ∣ max a b := by
  rw [Nat.max_comm]
  exact dvd_max_left hb ha

theorem max_dvd {a b : Nat} (ha : a ∣ 8) (hb : b ∣ 8) : max a b ∣ 8 := by
  rcases Nat.le_total a b with h | h
  · rwa [Nat.max_eq_right h]
  · rwa [Nat.max_eq_left h]

theorem paddingBytes_eq {n : Nat} (hn : n ∣ 8) (size : Nat) :
    paddingBytes size n =
      (18446744073709551616 - size % 18446744073709551616) % 18446744073709551616 % n := by
  have hneg : ~~~BitVec.ofNat 64 size + 1 = -BitVec.ofNat 64 size :=
    (BitVec.neg_eq_not_add _).symm
  have hmask : ∀ k, n = 2 ^ k → (BitVec.ofNat 64 n - 1).toNat = 2 ^ k - 1 →
      paddingBytes size n =
        (18446744073709551616 - size % 18446744073709551616) % 18446744073709551616 % n := by
    intro k hk hsub
    rw [paddingBytes, BitVec.toNat_and, hsub, Nat.and_two_pow_sub_one_eq_mod, ← hk, hneg,
      BitVec.toNat_neg, BitVec.toNat_ofNat]
  obtain rfl | rfl | rfl | rfl := dvd_eight.mp hn
  · exact hmask 0 rfl rfl
  · exact hmask 1 rfl rfl
  · exact hmask 2 rfl rfl
  · exact hmask 3 rfl rfl

theorem paddingBytes_lt {n : Nat} (hn : n ∣ 8) (size : Nat) : paddingBytes size n < n := by
  rw [paddingBytes_eq hn]
  exact Nat.mod_lt _ (Nat.pos_of_dvd_of_pos hn (by decide))

theorem dvd_add_paddingBytes {n : Nat} (hn : n ∣ 8) (size : Nat) :
    n ∣ size + paddingBytes size n := by
  rw [paddingBytes_eq hn]
  obtain rfl | rfl | rfl | rfl := dvd_eight.mp hn <;> omega

theorem paddingBytes_eq_zero {n size : Nat} (hn : n ∣ 8) (h : n ∣ size) :
    paddingBytes size n = 0 := by
  have hpad := (Nat.dvd_add_right h).mp (dvd_add_paddingBytes hn size)
  exact Nat.eq_zero_of_dvd_of_lt hpad (paddingBytes_lt hn size)

/-! ## Growth -/

namespace Builder

/-- So many bytes more, and an alignment asked for. -/
def pushed (b : Builder) (bs : List UInt8) (minalign : Nat) : Builder :=
  { b with buf := bs ++ b.buf, minalign }

@[simp] theorem size_pushed (b : Builder) (bs : List UInt8) (m : Nat) :
    (b.pushed bs m).size = bs.length + b.size := List.length_append

theorem pushed_pushed (b : Builder) (bs cs : List UInt8) (m k : Nat) :
    (b.pushed bs m).pushed cs k = b.pushed (cs ++ bs) k := by
  simp only [pushed, List.append_assoc]

theorem push_pushed (b : Builder) (bs cs : List UInt8) (m : Nat) :
    (b.pushed bs m).push cs = b.pushed (cs ++ bs) m := by
  simp only [push, pushed, List.append_assoc]

theorem trackMinAlign_eq (b : Builder) (n : Nat) :
    b.trackMinAlign n = b.pushed [] (max b.minalign n) := by
  unfold trackMinAlign pushed
  split
  · next h => rw [Nat.max_eq_right (Nat.le_of_lt h), List.nil_append]
  · next h => rw [Nat.max_eq_left (Nat.le_of_not_lt h), List.nil_append]

theorem align_eq (b : Builder) (n : Nat) :
    b.align n = b.pushed (List.replicate (paddingBytes b.size n) 0) (max b.minalign n) := by
  rw [align, trackMinAlign_eq, fill, push_pushed, List.append_nil]

theorem preAlign_eq (b : Builder) {len : Nat} (h : len ≠ 0) (n : Nat) :
    b.preAlign len n =
      b.pushed (List.replicate (paddingBytes (b.size + len) n) 0) (max b.minalign n) := by
  rw [preAlign, if_neg h, trackMinAlign_eq, fill, push_pushed, List.append_nil]

end Builder

/-- What was there stays where it was, counted from the end, and so do the alignments. -/
structure Grows (b b' : Builder) : Prop where
  suffix : b.buf <:+ b'.buf
  minalign : b.minalign ∣ b'.minalign

theorem Grows.refl (b : Builder) : Grows b b := ⟨List.suffix_rfl, dvd_rfl⟩

theorem Grows.trans {a b c : Builder} (h : Grows a b) (h' : Grows b c) : Grows a c :=
  ⟨h.suffix.trans h'.suffix, h.minalign.trans h'.minalign⟩

theorem Grows.size_le {b b' : Builder} (h : Grows b b') : b.size ≤ b'.size := h.suffix.length_le

theorem Grows.pushed {b : Builder} (bs : List UInt8) {m : Nat} (h : b.minalign ∣ m) :
    Grows b (b.pushed bs m) := ⟨List.suffix_append bs b.buf, h⟩

/-- Alignments are those of scalars, and every vtable is within the buffer. -/
structure Sound (b : Builder) : Prop where
  minalign : b.minalign ∣ 8
  vtables : ∀ o ∈ b.vtables, 2 ∣ o ∧ o ≤ b.size

theorem Sound.pushed {b : Builder} (h : Sound b) (bs : List UInt8) {m : Nat} (hm : m ∣ 8) :
    Sound (b.pushed bs m) where
  minalign := hm
  vtables o ho := ⟨(h.vtables o ho).1, by
    have hle := (h.vtables o ho).2
    rw [Builder.size_pushed]
    omega⟩

/-- A builder between two calls, in no table or vector. -/
structure Idle (b : Builder) : Prop extends Sound b where
  nested : b.nested = false
  fieldLocs : b.fieldLocs = []
  maxVoffset : b.maxVoffset = 0
  finished : b.finished = false

theorem Idle.initial : Idle {} where
  minalign := by decide
  vtables := by simp
  nested := rfl
  fieldLocs := rfl
  maxVoffset := rfl
  finished := rfl

theorem Idle.pushed {b : Builder} (h : Idle b) (bs : List UInt8) {m : Nat} (hm : m ∣ 8) :
    Idle (b.pushed bs m) where
  toSound := h.toSound.pushed bs hm
  nested := h.nested
  fieldLocs := h.fieldLocs
  maxVoffset := h.maxVoffset
  finished := h.finished

/-- Between two calls again, with at most so many bytes more. -/
structure Advances (b b' : Builder) (k : Nat) : Prop where
  idle : Idle b'
  grows : Grows b b'
  size : b'.size ≤ b.size + k

theorem Advances.refl {b : Builder} (h : Idle b) : Advances b b 0 := ⟨h, .refl b, le_rfl⟩

theorem Advances.trans {a b c : Builder} {j k : Nat} (h : Advances a b j) (h' : Advances b c k) :
    Advances a c (j + k) where
  idle := h'.idle
  grows := h.grows.trans h'.grows
  size := by
    have hsize := h.size
    have hsize' := h'.size
    omega

theorem Advances.le {b b' : Builder} {j k : Nat} (h : Advances b b' j) (hle : j ≤ k) :
    Advances b b' k := ⟨h.idle, h.grows, h.size.trans (Nat.add_le_add_left hle _)⟩

/-! ## Finished buffers -/

/-- A buffer that what is in the builder can become: there is room for the root's offset. -/
structure Within (b : Builder) (whole : Buffer) : Prop where
  suffix : b.buf <:+ whole
  room : b.size + 4 ≤ whole.length
  aligned : b.minalign ∣ whole.length
  bounded : whole.length ≤ maxSize

theorem Within.of_grows {b b' : Builder} {whole : Buffer} (h : Within b' whole)
    (hgrows : Grows b b') : Within b whole where
  suffix := hgrows.suffix.trans h.suffix
  room := (Nat.add_le_add_right hgrows.size_le 4).trans h.room
  aligned := hgrows.minalign.trans h.aligned
  bounded := h.bounded

/-- What an offset leads to, in whatever buffer the builder becomes. -/
structure Placed (b : Builder) (o : Nat) (P : Buffer → Int → Prop) : Prop where
  pos : 0 < o
  le : o ≤ b.size
  holds : ∀ whole, Within b whole → P whole (whole.length - o)

theorem Placed.of_grows {b b' : Builder} {o : Nat} {P : Buffer → Int → Prop}
    (h : Placed b o P) (hgrows : Grows b b') : Placed b' o P where
  pos := h.pos
  le := h.le.trans hgrows.size_le
  holds whole hwhole := h.holds whole (hwhole.of_grows hgrows)

theorem Placed.imp {b : Builder} {o : Nat} {P Q : Buffer → Int → Prop} (h : Placed b o P)
    (himp : ∀ whole, Within b whole → P whole (whole.length - o) → Q whole (whole.length - o)) :
    Placed b o Q where
  pos := h.pos
  le := h.le
  holds whole hwhole := himp whole hwhole (h.holds whole hwhole)

/-- What is there is read so, and the verifier accepts it. -/
def Holds {α : Type} (read : Buffer → Int → Read α) (verify : Buffer → Int → Bool) (a : α)
    (buf : Buffer) (p : Int) : Prop := read buf p = .ok a ∧ verify buf p = true

/-! ## Reads of what a buffer ends with -/

section Suffix
variable {s whole : List UInt8} {k n : Nat}

theorem bytes_of_suffix (h : s <:+ whole) (hk : k + n ≤ s.length) :
    bytes whole (whole.length - s.length + k) n = .ok ((s.drop k).take n) := by
  obtain ⟨p, rfl⟩ := h
  have hpos : ((p ++ s).length - s.length + k : Int) = ((p.length + k : Nat) : Int) := by
    rw [List.length_append]
    omega
  have hin : p.length + k + n ≤ (p ++ s).length := by
    rw [List.length_append]
    omega
  rw [hpos, bytes, if_pos ⟨by omega, by exact_mod_cast hin⟩, Int.toNat_natCast,
    List.drop_append, List.drop_eq_nil_of_le (Nat.le_add_right _ _), List.nil_append,
    Nat.add_sub_cancel_left]

/-- A part of what was read. -/
theorem bytes_sub {buf bs : List UInt8} {pos : Int} {m : Nat} (h : bytes buf pos n = .ok bs)
    (hsub : m + k ≤ n) : bytes buf (pos + m) k = .ok ((bs.drop m).take k) := by
  unfold bytes at h ⊢
  split at h
  · next hin =>
    obtain rfl := Except.ok.inj h
    have htoNat : (pos + m).toNat = pos.toNat + m := by omega
    rw [if_pos (by omega), htoNat, ← List.drop_drop, List.drop_take, List.take_take,
      Nat.min_eq_left (by omega)]
  · cases h

theorem scalar_of_suffix {v : Nat} (h : s <:+ whole)
    (hs : (s.drop k).take n = scalarBytes n v) (hv : v < 256 ^ n) (hk : k + n ≤ s.length) :
    scalar whole (whole.length - s.length + k) n = .ok v := by
  rw [scalar, bytes_of_suffix h hk, hs]
  refine congrArg Except.ok ?_
  rw [littleEndian_scalarBytes, Nat.mod_eq_of_lt hv]

theorem verifyRange_of_suffix (h : s <:+ whole) (hk : k + n ≤ s.length) (hn : n < whole.length) :
    verifyRange whole (whole.length - s.length + k) n = true := by
  have hle := h.length_le
  simp only [verifyRange, Bool.and_eq_true, decide_eq_true_eq]
  exact ⟨⟨hn, by omega⟩, by omega⟩

theorem verifyScalar_of_suffix (h : s <:+ whole) (hk : k + n ≤ s.length) (hn : n < whole.length)
    (haligned : n ∣ whole.length) (hsize : n ∣ s.length - k) :
    verifyScalar whole n (whole.length - s.length + k) = true := by
  have hle := h.length_le
  have hpos : (whole.length - s.length + k : Int) = ((whole.length - (s.length - k) : Nat) : Int) := by
    omega
  have hmod : (whole.length - s.length + k : Int) % n = 0 := by
    rw [hpos]
    exact_mod_cast Nat.mod_eq_zero_of_dvd (Nat.dvd_sub haligned hsize)
  rw [verifyScalar, verifyRange_of_suffix h hk hn, decide_eq_true hmod, Bool.and_self]

end Suffix

/-! ## Strings and vectors -/

section Values
variable {b : Builder} {n v : Nat}

/-- The builder after `PushElement`. -/
def Builder.pushedElement (b : Builder) (n v : Nat) : Builder :=
  b.pushed (scalarBytes n v ++ List.replicate (paddingBytes b.size n) 0) (max b.minalign n)

theorem ends_pushElement {Q : Nat → Builder → Prop}
    (h : Q (b.pushedElement n v).size (b.pushedElement n v)) : Ends (pushElement n v) b Q := by
  unfold pushElement
  refine ends_bind.mpr (ends_modify.mpr (ends_bind.mpr (ends_get.mpr (ends_pure.mpr ?_))))
  rwa [Builder.align_eq, Builder.push_pushed]

/-- No padding where the buffer is aligned already. -/
theorem Builder.pushedElement_of_dvd (hn : n ∣ 8) (h : n ∣ b.size) :
    b.pushedElement n v = b.pushed (scalarBytes n v) (max b.minalign n) := by
  rw [pushedElement, paddingBytes_eq_zero hn h, List.replicate_zero, List.append_nil]

theorem ends_notNested {Q : Unit → Builder → Prop} (h : Idle b) (hQ : Q () b) :
    Ends notNested b Q :=
  ends_bind.mpr (ends_get.mpr (ends_bind.mpr (ends_assert.mpr ⟨h.nested,
    ends_assert.mpr ⟨h.fieldLocs, hQ⟩⟩)))

/-- A length, and then what is so long: how strings and vectors begin. -/
theorem vector_of_within {len elemSize : Nat} {data rest whole : List UInt8}
    (hwhole : Within b whole) (hb : b.buf = scalarBytes 4 len ++ (data ++ rest))
    (hdata : data.length = elemSize * len) (helem : elemSize ∣ 8) (hsize : 4 ∣ b.size)
    (halign : 4 ∣ b.minalign) :
    size whole (whole.length - b.size) = .ok len ∧
      bytes whole (whole.length - b.size + 4) (elemSize * len) = .ok data ∧
      verifyVector whole elemSize (whole.length - b.size) = true := by
  have hroom := hwhole.room
  have hbounded := hwhole.bounded
  have hlength : b.buf.length = 4 + elemSize * len + rest.length := by
    rw [hb, List.length_append, List.length_append, length_scalarBytes, hdata, Nat.add_assoc]
  have hlen : len < 256 ^ 4 ∧ len < maxSize / elemSize := by
    unfold Builder.size at hroom
    unfold maxSize at hbounded ⊢
    obtain rfl | rfl | rfl | rfl := dvd_eight.mp helem <;> omega
  have hread : size whole (whole.length - b.size) = .ok len := by
    have h0 : (b.buf.drop 0).take 4 = scalarBytes 4 len := by
      rw [List.drop_zero, hb, List.take_left' (length_scalarBytes 4 len)]
    have h := scalar_of_suffix hwhole.suffix h0 hlen.1 (by omega)
    rwa [Int.natCast_zero, Int.add_zero] at h
  have hbytes : bytes whole (whole.length - b.size + 4) (elemSize * len) = .ok data := by
    have h := bytes_of_suffix (k := 4) (n := elemSize * len) hwhole.suffix (by omega)
    rwa [hb, List.drop_left' (length_scalarBytes 4 len), List.take_left' hdata, ← hb] at h
  refine ⟨hread, hbytes, ?_⟩
  have hstart := verifyScalar_of_suffix (k := 0) (n := 4) hwhole.suffix (by omega)
    (by unfold Builder.size at hroom; omega) (halign.trans hwhole.aligned) hsize
  have hrange := verifyRange_of_suffix (k := 0) (n := 4 + elemSize * len) hwhole.suffix (by omega)
    (by unfold Builder.size at hroom; omega)
  rw [Int.natCast_zero, Int.add_zero] at hstart hrange
  simp only [verifyVector, Bool.and_eq_true]
  refine ⟨hstart, check_iff.mpr (bind_eq_ok.mpr ⟨len, hread, ?_⟩)⟩
  exact congrArg Except.ok (by rw [decide_eq_true hlen.2, Bool.true_and]; exact hrange)

theorem ends_createString (h : Idle b) (bs : List UInt8) :
    Ends (createString bs) b fun o b' =>
      Advances b b' (bs.length + 8) ∧ Placed b' o (Holds str verifyString bs) := by
  let pad := paddingBytes (b.size + (bs.length + 1)) 4
  let rest := 0 :: (List.replicate pad 0 ++ b.buf)
  let m := max b.minalign 4
  have hpad : pad < 4 := paddingBytes_lt (by decide) _
  have haligned : 4 ∣ b.size + (bs.length + 1) + pad := dvd_add_paddingBytes (by decide) _
  have hm : b.minalign ∣ m ∧ 4 ∣ m ∧ m ∣ 8 :=
    ⟨dvd_max_left h.minalign (by decide), dvd_max_right h.minalign (by decide),
      max_dvd h.minalign (by decide)⟩
  have hstate : ((b.preAlign (bs.length + 1) 4).fill 1).push bs =
      b.pushed (bs ++ ([0] ++ List.replicate pad 0)) m := by
    rw [Builder.preAlign_eq b (Nat.succ_ne_zero _), Builder.fill, Builder.push_pushed,
      Builder.push_pushed]
    rfl
  have hsize : (b.pushed (bs ++ ([0] ++ List.replicate pad 0)) m).size =
      b.size + (bs.length + 1) + pad := by
    simp only [Builder.size_pushed, List.length_append, List.length_replicate,
      List.length_singleton]
    omega
  refine ends_bind.mpr (ends_notNested h (ends_bind.mpr (ends_modify.mpr
    (ends_pushElement ?_))))
  rw [hstate, Builder.pushedElement_of_dvd (by decide) (hsize ▸ haligned), Builder.pushed_pushed]
  have hmax : max (b.pushed (bs ++ ([0] ++ List.replicate pad 0)) m).minalign 4 = m :=
    Nat.max_eq_left (Nat.le_max_right _ _)
  rw [hmax]
  generalize hb' : b.pushed _ m = b'
  have hbuf : b'.buf = scalarBytes 4 bs.length ++ (bs ++ rest) := by
    rw [← hb']
    simp only [Builder.pushed, rest, List.append_assoc, List.cons_append, List.nil_append]
  have hsize' : b'.size = b.size + (bs.length + 1) + pad + 4 := by
    rw [Builder.size, hbuf]
    simp only [rest, List.length_append, length_scalarBytes, List.length_cons,
      List.length_replicate, Builder.size]
    omega
  have hmin : b'.minalign = m := by rw [← hb']; rfl
  constructor
  · constructor
    · rw [← hb']
      exact h.pushed _ hm.2.2
    · rw [← hb']
      exact .pushed _ hm.1
    · omega
  · refine ⟨by omega, le_rfl, fun whole hwhole => ?_⟩
    obtain ⟨hread, hbytes, hverify⟩ := vector_of_within hwhole hbuf
      (Nat.one_mul bs.length).symm (by decide) (by omega) (hmin ▸ hm.2.1)
    rw [Nat.one_mul] at hbytes
    have hlength : b'.buf.length = b'.size := rfl
    have hterminator : (b'.buf.drop (4 + bs.length)).take 1 = scalarBytes 1 0 := by
      rw [hbuf, ← List.append_assoc, List.drop_left' (by
        rw [List.length_append, length_scalarBytes])]
      rfl
    have hroom := hwhole.room
    have hscalar := scalar_of_suffix hwhole.suffix hterminator (by decide) (by omega)
    have hrange := verifyRange_of_suffix (k := 4 + bs.length) (n := 1) hwhole.suffix
      (by omega) (by omega)
    have hplace : (whole.length - b'.buf.length + (4 + bs.length : Nat) : Int) =
        whole.length - b'.size + 4 + bs.length := by
      rw [hlength]
      omega
    rw [hplace] at hscalar hrange
    refine ⟨bind_eq_ok.mpr ⟨_, hread, hbytes⟩, ?_⟩
    simp only [verifyString, Bool.and_eq_true]
    refine ⟨hverify, check_iff.mpr (bind_eq_ok.mpr ⟨_, hread, ?_⟩)⟩
    rw [if_pos hrange]
    exact bind_eq_ok.mpr ⟨0, hscalar, rfl⟩

theorem ends_startVector (h : Idle b) {elemSize : Nat} (helem : elemSize ∣ 8) (len : Nat)
    {Q : Unit → Builder → Prop}
    (hQ : ∀ pads m, b.minalign ∣ m → m ∣ 8 → pads.length ≤ 10 →
      (len * elemSize = 0 ∨ 4 ∣ len * elemSize + pads.length + b.size) →
      Q () (({ b with nested := true } : Builder).pushed pads m)) :
    Ends (startVector len elemSize) b Q := by
  refine ends_bind.mpr (ends_notNested h (ends_bind.mpr (ends_modify.mpr
    (ends_modify.mpr ?_))))
  generalize hb : ({ b with nested := true } : Builder) = c
  have hc : c.size = b.size ∧ c.minalign = b.minalign := by
    rw [← hb]
    exact ⟨rfl, rfl⟩
  rw [hb] at hQ
  rcases Nat.eq_zero_or_pos (len * elemSize) with hzero | hpos
  · have hnone : (c.preAlign (len * elemSize) 4).preAlign (len * elemSize) elemSize =
        c.pushed [] b.minalign := by
      rw [Builder.preAlign, if_pos hzero, Builder.preAlign, if_pos hzero, ← hc.2]
      rfl
    rw [hnone]
    exact hQ [] _ dvd_rfl h.minalign (Nat.zero_le _) (.inl hzero)
  · have hne : len * elemSize ≠ 0 := by omega
    let pad := paddingBytes (c.size + len * elemSize) 4
    let pad' := paddingBytes (pad + c.size + len * elemSize) elemSize
    have hpad : pad < 4 := paddingBytes_lt (by decide) _
    have hpad' : pad' < elemSize := paddingBytes_lt helem _
    have hfour : 4 ∣ c.size + len * elemSize + pad := dvd_add_paddingBytes (by decide) _
    have hboth : elemSize ∣ pad + c.size + len * elemSize + pad' := dvd_add_paddingBytes helem _
    have hle := Nat.le_of_dvd (by decide) helem
    -- The second padding undoes nothing of the first: it is that of a multiple of four.
    have haligned : 4 ∣ len * elemSize + (pad' + pad) + b.size := by
      rw [hc.1] at hfour hboth
      obtain rfl | rfl | rfl | rfl := dvd_eight.mp helem <;> omega
    have h4 : c.minalign ∣ max c.minalign 4 ∧ max c.minalign 4 ∣ 8 := by
      rw [hc.2]
      exact ⟨dvd_max_left h.minalign (by decide), max_dvd h.minalign (by decide)⟩
    have hstate : (c.preAlign (len * elemSize) 4).preAlign (len * elemSize) elemSize =
        c.pushed (List.replicate pad' 0 ++ List.replicate pad 0)
          (max (max c.minalign 4) elemSize) := by
      rw [Builder.preAlign_eq c hne, Builder.preAlign_eq _ hne, Builder.pushed_pushed,
        Builder.size_pushed, List.length_replicate]
      rfl
    rw [hstate]
    refine hQ _ _ (hc.2 ▸ h4.1.trans (dvd_max_left h4.2 helem)) (max_dvd h4.2 helem) ?_ (.inr ?_)
    · rw [List.length_append, List.length_replicate, List.length_replicate]
      omega
    · rwa [List.length_append, List.length_replicate, List.length_replicate]

/-- A vector of so many elements of a size, and the bytes of the elements. -/
def IsVector (elemSize len : Nat) (data : List UInt8) (buf : Buffer) (p : Int) : Prop :=
  size buf p = .ok len ∧ bytes buf (p + 4) (elemSize * len) = .ok data ∧
    verifyVector buf elemSize p = true

theorem ends_endVector (h : Idle b) {len elemSize m : Nat} {data pads : List UInt8}
    (hm : b.minalign ∣ m) (hm8 : m ∣ 8) (hdata : data.length = elemSize * len)
    (helem : elemSize ∣ 8) (hpads : pads.length ≤ 10)
    (haligned : data.length = 0 ∨ 4 ∣ data.length + pads.length + b.size) :
    Ends (endVector len) (({ b with nested := true } : Builder).pushed (data ++ pads) m)
      fun o b' => Advances b b' (elemSize * len + 17) ∧ o = b'.size ∧
        Placed b' o (IsVector elemSize len data) ∧
          (data.length = 0 ∨ b'.size = 4 + data.length + pads.length + b.size) := by
  refine ends_bind.mpr (ends_get.mpr (ends_bind.mpr (ends_assert.mpr ⟨rfl,
    ends_bind.mpr (ends_modify.mpr (ends_pushElement ?_))⟩)))
  have hclear : ({ ({ b with nested := true } : Builder).pushed (data ++ pads) m with
      nested := false } : Builder) = b.pushed (data ++ pads) m := by
    rw [Builder.pushed, Builder.pushed, ← h.nested]
  rw [hclear]
  generalize hc : b.pushed (data ++ pads) m = c
  have hcbuf : c.buf = data ++ pads ++ b.buf := by rw [← hc]; rfl
  have hcsize : c.size = data.length + pads.length + b.size := by
    rw [← hc, Builder.size_pushed, List.length_append]
  have hcmin : c.minalign = m := by rw [← hc]; rfl
  let pad := paddingBytes c.size 4
  have hpad : pad < 4 := paddingBytes_lt (by decide) _
  have hfour : 4 ∣ c.size + pad := dvd_add_paddingBytes (by decide) _
  generalize hb' : c.pushedElement 4 len = b'
  have hpushed : b'.buf = scalarBytes 4 len ++ List.replicate pad 0 ++ (data ++ pads ++ b.buf) := by
    rw [← hb', ← hcbuf]
    rfl
  -- Only where there are no elements can there be padding between them and the length.
  obtain ⟨rest, hbuf⟩ : ∃ rest, b'.buf = scalarBytes 4 len ++ (data ++ rest) := by
    rcases haligned with hnone | hdvd
    · refine ⟨List.replicate pad 0 ++ (pads ++ b.buf), ?_⟩
      rw [hpushed, List.length_eq_zero_iff.mp hnone]
      simp only [List.nil_append, List.append_assoc]
    · have hzero : pad = 0 := paddingBytes_eq_zero (by decide) (hcsize ▸ hdvd)
      refine ⟨pads ++ b.buf, ?_⟩
      rw [hpushed, hzero]
      simp only [List.replicate_zero, List.append_nil, List.append_assoc]
  have hsize : b'.size = 4 + pad + c.size := by
    rw [← hb', Builder.pushedElement, Builder.size_pushed, List.length_append, length_scalarBytes,
      List.length_replicate]
  have hmin : b'.minalign = max m 4 := by
    rw [← hb', ← hcmin]
    rfl
  have hmax : m ∣ max m 4 ∧ 4 ∣ max m 4 ∧ max m 4 ∣ 8 :=
    ⟨dvd_max_left hm8 (by decide), dvd_max_right hm8 (by decide), max_dvd hm8 (by decide)⟩
  have hpush : b' = b.pushed (scalarBytes 4 len ++ List.replicate pad 0 ++ (data ++ pads))
      (max m 4) := by
    rw [← Builder.pushed_pushed b _ _ m, hc, ← hb', ← hcmin]
    rfl
  refine ⟨⟨?_, ?_, ?_⟩, rfl, ⟨by omega, le_rfl, fun whole hwhole => ?_⟩, ?_⟩
  · rw [hpush]
    exact h.pushed _ hmax.2.2
  · rw [hpush]
    exact .pushed _ (hm.trans hmax.1)
  · omega
  · exact vector_of_within hwhole hbuf hdata helem (by omega) (hmin ▸ hmax.2.1)
  · refine haligned.imp_right fun hdvd => ?_
    have hzero : pad = 0 := paddingBytes_eq_zero (by decide) (hcsize ▸ hdvd)
    omega

/-- The numbers that were written one after another are read one by one. -/
theorem map_littleEndian_flatMap {n : Nat} {xs : List Nat} (hxs : ∀ x ∈ xs, x < 256 ^ n) :
    (List.range xs.length).map (fun i =>
      littleEndian (((xs.flatMap (scalarBytes n)).drop (n * i)).take n)) = xs := by
  induction xs with
  | nil => rfl
  | cons x xs ih =>
    rw [List.length_cons, List.range_succ_eq_map, List.map_cons, List.map_map, List.flatMap_cons]
    have hhead : littleEndian (((scalarBytes n x ++ xs.flatMap (scalarBytes n)).drop (n * 0)).take
        n) = x := by
      rw [Nat.mul_zero, List.drop_zero, List.take_left' (length_scalarBytes n x),
        littleEndian_scalarBytes, Nat.mod_eq_of_lt (hxs x List.mem_cons_self)]
    have hstep : ∀ i, (scalarBytes n x ++ xs.flatMap (scalarBytes n)).drop (n * (i + 1)) =
        (xs.flatMap (scalarBytes n)).drop (n * i) := by
      intro i
      rw [Nat.mul_succ, Nat.add_comm, ← List.drop_drop, List.drop_left' (length_scalarBytes n x)]
    have htail := ih fun y hy => hxs y (List.mem_cons_of_mem x hy)
    refine List.cons_eq_cons.mpr ⟨hhead, ?_⟩
    refine Eq.trans ?_ htail
    exact List.map_congr_left fun i _ => by rw [Function.comp_apply, hstep]

/-- A vector of scalars holds their bytes, one after another. -/
theorem ends_createVector (h : Idle b) {n : Nat} (hn : n ∣ 8) (xs : List Nat) :
    Ends (createVector n xs) b fun o b' => Advances b b' (n * xs.length + 17) ∧
      Placed b' o (IsVector n xs.length (xs.flatMap (scalarBytes n))) := by
  have hdata : (xs.flatMap (scalarBytes n)).length = n * xs.length := by
    rw [List.length_flatMap, List.map_congr_left fun x _ => length_scalarBytes n x,
      List.map_const', List.sum_replicate_nat, Nat.mul_comm]
  refine ends_bind.mpr (ends_startVector h hn _ fun pads m hm hm8 hpads haligned => ?_)
  refine ends_bind.mpr (ends_modify.mpr ?_)
  rw [Builder.push_pushed]
  refine (ends_endVector h hm hm8 hdata hn hpads ?_).imp fun o b' ⟨hadvances, _, hplaced, _⟩ =>
    ⟨hadvances, hplaced⟩
  rwa [hdata, Nat.mul_comm]

theorem IsVector.scalars {buf : Buffer} {p : Int} {n : Nat} {xs : List Nat}
    (h : IsVector n xs.length (xs.flatMap (scalarBytes n)) buf p) (hxs : ∀ x ∈ xs, x < 256 ^ n) :
    Holds (fun buf => FlatBuffers.scalars buf n) (fun buf => verifyVector buf n) xs buf p := by
  obtain ⟨hsize, hbytes, hverify⟩ := h
  refine ⟨bind_eq_ok.mpr ⟨_, hsize, bind_eq_ok.mpr ⟨_, hbytes, ?_⟩⟩, hverify⟩
  exact congrArg Except.ok (map_littleEndian_flatMap hxs)

/-! ### Vectors of offsets -/

theorem ends_referTo {off : Nat} (hpos : 0 < off) (hle : off ≤ b.size) {Q : Nat → Builder → Prop}
    (hQ : Q (paddingBytes b.size 4 + b.size - off + 4)
      (b.pushed (List.replicate (paddingBytes b.size 4) 0) (max b.minalign 4))) :
    Ends (referTo off) b Q := by
  refine ends_bind.mpr (ends_modify.mpr (ends_bind.mpr (ends_get.mpr (ends_bind.mpr
    (ends_assert.mpr ⟨?_, ends_pure.mpr ?_⟩)))))
  · rw [Builder.align_eq, Builder.size_pushed]
    omega
  · rwa [Builder.align_eq, Builder.size_pushed, List.length_replicate]

/-- No padding is pushed with an offset where the buffer is aligned. -/
theorem ends_pushOffset {off : Nat} (hpos : 0 < off) (hle : off ≤ b.size) (h4 : 4 ∣ b.size)
    {Q : Unit → Builder → Prop}
    (hQ : Q () (b.pushed (scalarBytes 4 (b.size - off + 4)) (max b.minalign 4))) :
    Ends (pushOffset off) b Q := by
  have hzero : paddingBytes b.size 4 = 0 := paddingBytes_eq_zero (by decide) h4
  refine ends_bind.mpr (ends_referTo hpos hle ?_)
  rw [hzero, Nat.zero_add]
  have hsize : (b.pushed (List.replicate 0 0) (max b.minalign 4)).size = b.size := by
    rw [Builder.size_pushed, List.length_replicate, Nat.zero_add]
  refine ends_bind.mpr (ends_pushElement (ends_pure.mpr ?_))
  rw [Builder.pushedElement_of_dvd (by decide) (hsize ▸ h4), Builder.pushed_pushed,
    List.replicate_zero, List.append_nil]
  have hmax : max (b.pushed [] (max b.minalign 4)).minalign 4 = max b.minalign 4 :=
    Nat.max_eq_left (Nat.le_max_right _ _)
  rwa [hmax]

/-- The elements of a vector of offsets, pushed from the last on where the size is this. -/
def offsetEntries (size : Nat) : List Nat → List UInt8
  | [] => []
  | o :: os => scalarBytes 4 (size + 4 * (os.length + 1) - o) ++ offsetEntries size os

theorem length_offsetEntries (size : Nat) (os : List Nat) :
    (offsetEntries size os).length = 4 * os.length := by
  induction os with
  | nil => rfl
  | cons o os ih =>
    rw [offsetEntries, List.length_append, length_scalarBytes, ih, List.length_cons]
    omega

theorem offsetEntries_drop_take (size : Nat) (os : List Nat) {i : Nat} (hi : i < os.length) :
    ((offsetEntries size os).drop (4 * i)).take 4 =
      scalarBytes 4 (size + 4 * (os.length - i) - os[i]) := by
  induction os generalizing i with
  | nil => exact absurd hi (Nat.not_lt_zero i)
  | cons o os ih =>
    rw [offsetEntries]
    cases i with
    | zero =>
      rw [Nat.mul_zero, List.drop_zero, List.take_left' (length_scalarBytes 4 _)]
      rfl
    | succ i =>
      have hstep := ih (Nat.lt_of_succ_lt_succ hi)
      rw [Nat.mul_succ, Nat.add_comm, ← List.drop_drop, List.drop_left' (length_scalarBytes 4 _),
        hstep, List.length_cons, Nat.succ_sub_succ]
      rfl

theorem ends_pushOffsets {os : List Nat} (hos : ∀ o ∈ os, 0 < o ∧ o ≤ b.size)
    (h4 : os.length = 0 ∨ 4 ∣ b.size) (hm8 : b.minalign ∣ 8) :
    Ends (os.reverse.forM pushOffset) b fun _ b' =>
      ∃ m, b.minalign ∣ m ∧ m ∣ 8 ∧ b' = b.pushed (offsetEntries b.size os) m := by
  let Inv := fun (before : List Nat) (s : Builder) => ∃ m, b.minalign ∣ m ∧ m ∣ 8 ∧
    s = b.pushed (offsetEntries b.size before.reverse) m
  have hloop : Ends (os.reverse.forM pushOffset) b fun _ s => Inv os.reverse s := by
    refine ends_forM Inv (fun before o after s hsplit hinv => ?_) ⟨_, dvd_rfl, hm8, rfl⟩
    obtain ⟨m, hm, hm8, rfl⟩ := hinv
    have hmem : o ∈ os := List.mem_reverse.mp (by rw [hsplit]; simp)
    have hdvd := h4.resolve_left (Nat.ne_of_gt (List.length_pos_of_mem hmem))
    have hsize : (b.pushed (offsetEntries b.size before.reverse) m).size =
        4 * before.length + b.size := by
      rw [Builder.size_pushed, length_offsetEntries, List.length_reverse]
    have hle := (hos o hmem).2
    refine ends_pushOffset (hos o hmem).1 (by omega) (by omega) ⟨max m 4,
      hm.trans (dvd_max_left hm8 (by decide)), max_dvd hm8 (by decide), ?_⟩
    rw [Builder.pushed_pushed, hsize, List.reverse_append, List.reverse_singleton,
      List.singleton_append, offsetEntries, List.length_reverse]
    congr 3
    omega
  exact hloop.imp fun _ s hinv => by rwa [← List.reverse_reverse os]

theorem mapM_element {α : Type} {buf : Buffer} {vec : Int} {read : Int → Read α} {is : List Nat}
    {ps : List Int} (h : List.Forall₂ (fun i p => element buf vec i = .ok p) is ps) :
    is.mapM (fun i => element buf vec i >>= read) = ps.mapM read := by
  induction h with
  | nil => rfl
  | cons hp _ ih => rw [List.mapM_cons, List.mapM_cons, hp, ok_bind, ih]

/-- What holds of an element with its partner holds of the element. -/
theorem forall_left_of_forall₂ {α β : Type} {R : α → β → Prop} {P : α → Prop} {as : List α}
    {bs : List β} (h : List.Forall₂ R as bs) (hP : ∀ a b, R a b → P a) : ∀ a ∈ as, P a := by
  induction h with
  | nil => simp
  | cons hab _ ih => exact List.forall_mem_cons.mpr ⟨hP _ _ hab, ih⟩

theorem exists_left_of_forall₂ {α β : Type} {R : α → β → Prop} {as : List α} {bs : List β}
    (h : List.Forall₂ R as bs) : ∀ b ∈ bs, ∃ a ∈ as, R a b := by
  induction h with
  | nil => simp
  | cons hab _ ih =>
    refine List.forall_mem_cons.mpr ⟨⟨_, List.mem_cons_self, hab⟩, fun b hb => ?_⟩
    obtain ⟨a, ha, hR⟩ := ih b hb
    exact ⟨a, List.mem_cons_of_mem _ ha, hR⟩

theorem ends_createVectorOfOffsets (h : Idle b) {α : Type} {read : Buffer → Int → Read α}
    {verify : Buffer → Int → Bool} {os : List Nat} {as : List α}
    (hos : List.Forall₂ (fun o a => Placed b o (Holds read verify a)) os as) :
    Ends (createVectorOfOffsets os) b fun o b' => Advances b b' (4 * os.length + 17) ∧
      Placed b' o (Holds (fun buf => elements buf (read buf))
        (fun buf => verifyElements buf (verify buf)) as) := by
  refine ends_bind.mpr (ends_startVector h (by decide) _ fun pads m hm hm8 hpads haligned => ?_)
  let c := ({ b with nested := true } : Builder).pushed pads m
  have hcsize : c.size = pads.length + b.size := Builder.size_pushed _ _ _
  have hbounds : ∀ o ∈ os, 0 < o ∧ o ≤ c.size := forall_left_of_forall₂ hos fun o a ho =>
    ⟨ho.pos, ho.le.trans (by omega)⟩
  refine ends_bind.mpr ((ends_pushOffsets hbounds (by omega) hm8).imp ?_)
  rintro _ _ ⟨k, hk, hk8, rfl⟩
  rw [Builder.pushed_pushed]
  have hdata := length_offsetEntries c.size os
  refine (ends_endVector h (hm.trans hk) hk8 hdata (by decide) hpads (by omega)).imp ?_
  rintro _ b' ⟨hadvances, rfl, hplaced, hsize⟩
  refine ⟨hadvances, hplaced.imp fun whole hwhole hvector => ?_⟩
  obtain ⟨hlen, hbytes, hverify⟩ := hvector
  have hbounded := hwhole.bounded
  have hroom := hwhole.room
  -- The offset in each element leads from its place to where the offset was.
  have hplaces : List.Forall₂ (fun i p => element whole (whole.length - b'.size) i = .ok p)
      (List.range os.length) (os.map fun (o : Nat) => (whole.length : Int) - o) := by
    refine List.forall₂_iff_get.mpr ⟨by rw [List.length_range, List.length_map], fun i hi _ => ?_⟩
    rw [List.length_range] at hi
    have hb' : b'.size = 4 + 4 * os.length + c.size := by
      have hne : ¬ (offsetEntries c.size os).length = 0 := by omega
      have hsize' := hsize.resolve_left hne
      omega
    have hoffset := (hbounds _ (List.getElem_mem hi)).2
    have hentry := bytes_sub hbytes (m := 4 * i) (k := 4) (by omega)
    rw [offsetEntries_drop_take c.size os hi] at hentry
    have hmod : i * 4 % 2 ^ 32 = 4 * i := by
      unfold maxSize at hbounded
      omega
    have hv : c.size + 4 * (os.length - i) - os[i] < 256 ^ 4 := by
      unfold maxSize at hbounded
      omega
    simp only [List.get_eq_getElem, List.getElem_range, List.getElem_map, element, hmod]
    refine bind_eq_ok.mpr ⟨c.size + 4 * (os.length - i) - os[i], ?_, congrArg Except.ok ?_⟩
    · rw [scalar, hentry]
      refine congrArg Except.ok ?_
      rw [littleEndian_scalarBytes, Nat.mod_eq_of_lt hv]
    · omega
  have hreads : List.Forall₂ (fun p a => read whole p = .ok a ∧ verify whole p = true)
      (os.map fun (o : Nat) => (whole.length : Int) - o) as := by
    refine List.forall₂_map_left_iff.mpr (hos.imp fun o a ho => ?_)
    exact (ho.of_grows hadvances.grows).holds whole hwhole
  constructor
  · refine bind_eq_ok.mpr ⟨_, hlen, (mapM_element hplaces).trans ?_⟩
    exact mapM_eq_ok.mpr (hreads.imp fun _ _ hread => hread.1)
  · simp only [verifyElements, Bool.and_eq_true]
    refine ⟨hverify, check_iff.mpr (bind_eq_ok.mpr ⟨_, bind_eq_ok.mpr ⟨_, hlen,
      (mapM_element hplaces).trans List.mapM_pure⟩, congrArg Except.ok ?_⟩)⟩
    rw [List.map_id']
    exact List.all_eq_true.mpr (forall_left_of_forall₂ hreads fun _ _ hread => hread.2)

end Values

/-! ## One after another -/

/-- An offset that may be null, and what it leads to when it is not. -/
def Pointed {α : Type} (b : Builder) (o : Nat) (read : Buffer → Int → Read α)
    (verify : Buffer → Int → Bool) (x : Option α) : Prop :=
  (o = 0 ∧ x = none) ∨ ∃ a, x = some a ∧ Placed b o (Holds read verify a)

section Pointed
variable {α β : Type} {b b' : Builder} {o : Nat} {read : Buffer → Int → Read β}
  {verify : Buffer → Int → Bool}

theorem Pointed.of_grows {x : Option β} (h : Pointed b o read verify x) (hgrows : Grows b b') :
    Pointed b' o read verify x :=
  h.imp_right fun ⟨a, ha, hplaced⟩ => ⟨a, ha, hplaced.of_grows hgrows⟩

theorem Pointed.le {x : Option β} (h : Pointed b o read verify x) : o ≤ b.size := by
  rcases h with ⟨rfl, -⟩ | ⟨a, -, hplaced⟩
  · exact Nat.zero_le _
  · exact hplaced.le

theorem Pointed.ne_zero {x : Option β} (h : Pointed b o read verify x) (hsome : x.isSome) :
    o ≠ 0 := by
  rcases h with ⟨-, rfl⟩ | ⟨a, -, hplaced⟩
  · cases hsome
  · exact Nat.ne_of_gt hplaced.pos

/-- `x ? create(*x) : 0`. -/
def createOptional (create : α → Build Nat) (x : Option α) : Build Nat :=
  match x with
  | none => pure 0
  | some a => create a

theorem ends_createOptional (h : Idle b) {create : α → Build Nat} {x : Option α} {weight : α → Nat}
    {f : α → β} (hcreate : ∀ a, x = some a → Ends (create a) b fun o b' =>
      Advances b b' (weight a) ∧ Placed b' o (Holds read verify (f a))) :
    Ends (createOptional create x) b fun o b' => Advances b b' (x.elim 0 weight) ∧
      Pointed b' o read verify (x.map f) := by
  cases x with
  | none => exact ends_pure.mpr ⟨.refl h, .inl ⟨rfl, rfl⟩⟩
  | some a => exact (hcreate a rfl).imp fun o b' ⟨hadvances, hplaced⟩ =>
      ⟨hadvances, .inr ⟨f a, rfl, hplaced⟩⟩

/-- What is created for each of a list, and stays where it is as the rest is created. -/
theorem ends_mapM (h : Idle b) {create : α → Build Nat} {as : List α} {weight : α → Nat}
    {f : α → β} (hcreate : ∀ a ∈ as, ∀ b, Idle b → Ends (create a) b fun o b' =>
      Advances b b' (weight a) ∧ Placed b' o (Holds read verify (f a))) :
    Ends (as.mapM create) b fun os b' => Advances b b' (as.map weight).sum ∧
      List.Forall₂ (fun o a => Placed b' o (Holds read verify a)) os (as.map f) := by
  induction as generalizing b with
  | nil => exact ends_pure.mpr ⟨.refl h, .nil⟩
  | cons a as ih =>
    rw [List.mapM_cons]
    refine ends_bind.mpr ((hcreate a List.mem_cons_self b h).imp ?_)
    rintro o c ⟨hadvances, hplaced⟩
    refine ends_bind.mpr ((ih hadvances.idle fun a' ha' =>
      hcreate a' (List.mem_cons_of_mem a ha')).imp ?_)
    rintro os d ⟨hadvances', hall⟩
    refine ends_pure.mpr ⟨?_, .cons (hplaced.of_grows hadvances'.grows) hall⟩
    rw [List.map_cons, List.sum_cons]
    exact hadvances.trans hadvances'

end Pointed

end YikvServer.Theory.FlatBuffers
