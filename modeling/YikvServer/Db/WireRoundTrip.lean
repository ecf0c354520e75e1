import YikvServer.Db.WireBuild

/-!
# Requests and responses, there and back

What is built of a field value, a row, a request or a response is accepted by the generated
`Verify` and decoded as it was, but for the sign of a zero. A null entry cannot be built, and
a text is sent as its bytes.
-/
namespace YikvServer.Db

open YikvServer.Theory YikvServer.Theory.FlatBuffers YikvServer.Index YikvServer.Stream

/-! ## What can be sent, and what arrives -/

namespace Wire

/-- An entry that is there, and can be sent. -/
def Entry {α : Type} (P : α → Prop) (x : Option α) : Prop := ∃ a, x = some a ∧ P a

/-- The bytes that the entries of a vector and the vector take at most. -/
def entriesWeight {α : Type} (weight : α → Nat) (xs : List (Option α)) : Nat :=
  (xs.map fun x => x.elim 0 weight).sum + (4 * xs.length + 17)

def textWeight (s : String) : Nat := s.length + 8

end Wire

open Wire

structure FieldValue.Sendable (fv : FieldValue) : Prop where
  s : ∀ t ∈ fv.s, ByteText t
  raw : ∀ t ∈ fv.raw, ByteText t
  as : ∀ ts ∈ fv.as, ∀ t ∈ ts, Entry ByteText t

def FieldValue.received (fv : FieldValue) : FieldValue :=
  { fv with f32 := received32 fv.f32, f64 := received64 fv.f64 }

def FieldValue.weight (fv : FieldValue) : Nat :=
  fv.s.elim 0 textWeight + (fv.raw.elim 0 (fun t => 1 * t.length + 17) +
    (fv.ai32.elim 0 (fun v => 4 * v.length + 17) + (fv.ai64.elim 0 (fun v => 8 * v.length + 17) +
      (fv.af32.elim 0 (fun v => 4 * v.length + 17) + (fv.af64.elim 0 (fun v => 8 * v.length + 17) +
        (fv.as.elim 0 (entriesWeight textWeight) + 234))))))

namespace Wire

/-! ## Texts and vectors -/

section Values
variable {b : Builder}

theorem textOf_bytesOf {s : String} (h : ByteText s) : textOf (bytesOf s) = s := by
  have hchars : s.toList.map (fun c => Char.ofNat (UInt8.ofNat c.toNat).toNat) = s.toList := by
    refine (List.map_congr_left fun c hc => ?_).trans (List.map_id' _)
    rw [UInt8.toNat_ofNat', Nat.mod_eq_of_lt (h c hc), Char.ofNat_toNat]
  rw [textOf, bytesOf, List.map_map]
  exact (congrArg String.ofList hchars).trans String.ofList_toList

theorem length_bytesOf (s : String) : (bytesOf s).length = s.length := by
  rw [bytesOf, List.length_map, String.length_toList]

theorem ends_createText (h : Idle b) {s : String} (hs : ByteText s) :
    Ends (createText s) b fun o b' => Advances b b' (textWeight s) ∧
      Placed b' o (Holds text verifyString s) := by
  refine (ends_createString h (bytesOf s)).imp fun o b' ⟨hadvances, hplaced⟩ => ?_
  rw [length_bytesOf] at hadvances
  refine ⟨hadvances, hplaced.imp fun whole _ ⟨hread, hverify⟩ => ⟨?_, hverify⟩⟩
  rw [text, hread]
  exact congrArg Except.ok (textOf_bytesOf hs)

/-- Bytes as scalars of one byte are the bytes. -/
theorem flatMap_scalarBytes_one (bs : List UInt8) :
    (bs.map fun c => c.toNat).flatMap (scalarBytes 1) = bs := by
  induction bs with
  | nil => rfl
  | cons c bs ih =>
    rw [List.map_cons, List.flatMap_cons, ih, scalarBytes, scalarBytes, UInt8.ofNat_toNat]
    rfl

theorem ends_createBytes (h : Idle b) {s : String} (hs : ByteText s) :
    Ends (createBytes s) b fun o b' => Advances b b' (1 * s.length + 17) ∧
      Placed b' o (Holds text (fun buf => verifyVector buf 1) s) := by
  refine (ends_createVector h (by decide) _).imp fun o b' ⟨hadvances, hplaced⟩ => ?_
  rw [List.length_map, length_bytesOf] at hadvances
  refine ⟨hadvances, hplaced.imp fun whole _ ⟨hsize, hbytes, hverify⟩ => ⟨?_, hverify⟩⟩
  rw [flatMap_scalarBytes_one, Nat.one_mul] at hbytes
  have hread : str whole (whole.length - o) = .ok (bytesOf s) :=
    bind_eq_ok.mpr ⟨_, hsize, hbytes⟩
  rw [text, hread]
  exact congrArg Except.ok (textOf_bytesOf hs)

/-- A vector of numbers that are read as they were written. -/
theorem ends_createNumbers (h : Idle b) {α : Type} {n : Nat} (hn : n ∣ 8) {toNat : α → Nat}
    {ofNat : Nat → α} (hlt : ∀ a, toNat a < 256 ^ n) (hback : ∀ a, ofNat (toNat a) = a)
    (v : List α) :
    Ends (FlatBuffers.createVector n (v.map toNat)) b fun o b' =>
      Advances b b' (n * v.length + 17) ∧
        Placed b' o (Holds (fun buf => vector buf n ofNat) (fun buf => verifyVector buf n) v) := by
  refine (ends_createVector h hn _).imp fun o b' ⟨hadvances, hplaced⟩ => ?_
  rw [List.length_map] at hadvances
  refine ⟨hadvances, hplaced.imp fun whole _ hvector => ?_⟩
  obtain ⟨hread, hverify⟩ := hvector.scalars fun x hx => by
    obtain ⟨a, -, rfl⟩ := List.mem_map.mp hx
    exact hlt a
  refine ⟨map_eq_ok.mpr ⟨_, hread, ?_⟩, hverify⟩
  rw [List.map_map]
  exact (List.map_congr_left fun a _ => hback a).trans (List.map_id' v)

theorem ends_createEntry (h : Idle b) {α β : Type} {create : α → Build Nat} {x : Option α}
    {P : α → Prop} {weight : α → Nat} {f : α → β} {read : Buffer → Int → Read β}
    {verify : Buffer → Int → Bool} (hx : Entry P x)
    (hcreate : ∀ a, P a → ∀ b, Idle b → Ends (create a) b fun o b' =>
      Advances b b' (weight a) ∧ Placed b' o (Holds read verify (f a))) :
    Ends (createEntry create x) b fun o b' => Advances b b' (x.elim 0 weight) ∧
      Placed b' o (Holds (fun buf p => (read buf p).map some) verify (x.map f)) := by
  obtain ⟨a, rfl, ha⟩ := hx
  refine (hcreate a ha b h).imp fun o b' ⟨hadvances, hplaced⟩ => ⟨hadvances, ?_⟩
  exact hplaced.imp fun whole _ ⟨hread, hverify⟩ => ⟨map_eq_ok.mpr ⟨_, hread, rfl⟩, hverify⟩

/-- Entries that are there, one by one, and then the vector of where they are. -/
theorem ends_createEntries (h : Idle b) {α β : Type} {create : α → Build Nat}
    {xs : List (Option α)} {P : α → Prop} {weight : α → Nat} {f : α → β}
    {read : Buffer → Int → Read β} {verify : Buffer → Int → Bool} (hxs : ∀ x ∈ xs, Entry P x)
    (hcreate : ∀ a, P a → ∀ b, Idle b → Ends (create a) b fun o b' =>
      Advances b b' (weight a) ∧ Placed b' o (Holds read verify (f a))) :
    Ends (do
        let offs ← xs.mapM (createEntry create)
        createVectorOfOffsets offs) b fun o b' => Advances b b' (entriesWeight weight xs) ∧
      Placed b' o (Holds (fun buf => decodeElements buf (read buf))
        (fun buf => verifyElements buf (verify buf)) (xs.map fun x => x.map f)) := by
  have hentries := ends_mapM h fun x hx b hb => ends_createEntry hb (hxs x hx) hcreate
  refine ends_bind.mpr (hentries.imp fun os c ⟨hadvances, hall⟩ => ?_)
  have hlength : os.length = xs.length := hall.length_eq.trans (List.length_map _)
  refine (ends_createVectorOfOffsets hadvances.idle hall).imp fun o b' ⟨hadvances', hplaced⟩ => ?_
  rw [hlength] at hadvances'
  exact ⟨hadvances.trans hadvances', hplaced⟩

end Values

/-! ## Numbers -/

theorem int32_back (a : Int32) : Int32.ofNat a.toUInt32.toNat = a := by
  show Int32.ofUInt32 (UInt32.ofNat a.toUInt32.toNat) = a
  rw [UInt32.ofNat_toNat]

theorem int64_back (a : Int64) : Int64.ofNat a.toUInt64.toNat = a := by
  show Int64.ofUInt64 (UInt64.ofNat a.toUInt64.toNat) = a
  rw [UInt64.ofNat_toNat]

theorem valueType_typeByte (vt : ValueType) : valueType (typeByte vt) = vt := by
  cases vt <;> rfl

theorem typeByte_lt (vt : ValueType) : typeByte vt < 256 ^ 1 := by cases vt <;> decide

theorem typeByte_eq_zero {vt : ValueType} (h : typeByte vt = 0) : valueType 0 = vt := by
  rw [← valueType_typeByte vt, h]

/-- A float that is its default is left out, also a negative zero. -/
theorem received32_back (f : UInt32) :
    UInt32.ofNat (if isZero32 f then 0 else f.toNat) = received32 f := by
  unfold received32
  split
  · rfl
  · exact UInt32.ofNat_toNat

theorem received64_back (d : UInt64) :
    UInt64.ofNat (if isZero64 d then 0 else d.toNat) = received64 d := by
  unfold received64
  split
  · rfl
  · exact UInt64.ofNat_toNat

/-- A default that was left out is read as it was. -/
theorem ofNat_default {α : Type} {ofNat : Nat → α} {v : Nat} {a : α} {isDefault : Bool}
    (hback : ofNat v = a) (hdefault : isDefault = true → ofNat 0 = a) :
    ofNat (if isDefault then 0 else v) = a := by
  cases isDefault with
  | true => exact hdefault rfl
  | false => exact hback

/-! ## Field values -/

section FieldValues
variable {b : Builder}

/-- A pointer of a table, the `i`-th that was added, where the readers of this module find it. -/
theorem optional_of_pointed {α : Type} {adds : List Add} {buf : Buffer} {p : Int}
    {field off : Nat} {read : Buffer → Int → Read α} {verify : Buffer → Int → Bool} {x : Option α}
    (h : HasFields adds buf p) (i : Nat) (hadd : adds[i]? = some (.offset field off))
    (hx : Pointed b off read verify x) (hwhole : Within b buf) :
    optional buf (read buf) p field = .ok x ∧ verifyAt buf (verify buf) p field = true := by
  obtain ⟨hoffset, hpointer, hread⟩ := h.pointed (List.mem_of_getElem? hadd) hx hwhole
  refine ⟨?_, by rw [verifyAt, hoffset, hpointer, Bool.and_self]⟩
  rcases hread with ⟨rfl, hnull⟩ | ⟨q, a, rfl, hq, ha⟩
  · exact bind_eq_ok.mpr ⟨none, hnull, rfl⟩
  · exact bind_eq_ok.mpr ⟨some q, hq, map_eq_ok.mpr ⟨a, ha, rfl⟩⟩

/-- A scalar of a table, the `i`-th that was added; a default is zero. -/
theorem scalar_of_element {α : Type} {adds : List Add} {buf : Buffer} {p : Int}
    {n field v : Nat} {isDefault : Bool} {ofNat : Nat → α} {a : α} (h : HasFields adds buf p)
    (i : Nat) (hadd : adds[i]? = some (.element n field v isDefault))
    (hvalue : ofNat (if isDefault then 0 else v) = a) :
    (FlatBuffers.getField buf n p field).map ofNat = .ok a ∧
      verifyField buf n p field = true := by
  obtain ⟨hread, hverify⟩ := h.element (List.mem_of_getElem? hadd)
  exact ⟨map_eq_ok.mpr ⟨_, hread, hvalue⟩, hverify⟩

/-- What is pointed to by the fields of a field value, before it is created. -/
structure Slots (b : Builder) (fv : FieldValue) (s raw ai32 ai64 af32 af64 as : Nat) : Prop where
  s : Pointed b s text verifyString fv.s
  raw : Pointed b raw text (fun buf => verifyVector buf 1) fv.raw
  ai32 : Pointed b ai32 (fun buf => vector buf 4 Int32.ofNat) (fun buf => verifyVector buf 4) fv.ai32
  ai64 : Pointed b ai64 (fun buf => vector buf 8 Int64.ofNat) (fun buf => verifyVector buf 8) fv.ai64
  af32 : Pointed b af32 (fun buf => vector buf 4 UInt32.ofNat) (fun buf => verifyVector buf 4)
    fv.af32
  af64 : Pointed b af64 (fun buf => vector buf 8 UInt64.ofNat) (fun buf => verifyVector buf 8)
    fv.af64
  as : Pointed b as (fun buf => decodeElements buf (text buf))
    (fun buf => verifyElements buf (verifyString buf)) fv.as

theorem ends_createFieldValue (h : Idle b) {fv : FieldValue} {s raw ai32 ai64 af32 af64 as : Nat}
    (hslots : Slots b fv s raw ai32 ai64 af32 af64 as) :
    Ends (createFieldValue fv.fieldId fv.vtype fv.i32 fv.i64 fv.f32 fv.f64 s raw ai32 ai64 af32
      af64 as) b fun o b' => Advances b b' 234 ∧
        Placed b' o (Holds decodeFieldValue verifyFieldValue fv.received) := by
  have hfits : ∀ a ∈ fieldValueAdds fv.fieldId fv.vtype fv.i32 fv.i64 fv.f32 fv.f64 s raw ai32
      ai64 af32 af64 as, a.Fits b := by
    simp only [fieldValueAdds, List.forall_mem_cons, List.not_mem_nil, false_imp_iff,
      implies_true, and_true]
    exact ⟨⟨by decide, fv.f64.toNat_lt⟩, ⟨by decide, fv.i64.toUInt64.toNat_lt⟩, hslots.as.le,
      hslots.af64.le, hslots.af32.le, hslots.ai64.le, hslots.ai32.le, hslots.raw.le, hslots.s.le,
      ⟨by decide, fv.f32.toNat_lt⟩, ⟨by decide, fv.i32.toUInt32.toNat_lt⟩,
      ⟨by decide, fv.fieldId.toNat_lt⟩, ⟨by decide, typeByte_lt fv.vtype⟩⟩
  have hfields : Fields 28 (fieldValueAdds fv.fieldId fv.vtype fv.i32 fv.i64 fv.f32 fv.f64 s raw
      ai32 ai64 af32 af64 as) :=
    .of_slots [14, 10, 28, 26, 24, 22, 20, 18, 16, 12, 8, 4, 6] rfl (by decide)
  refine (ends_createTable h hfits hfields).imp ?_
  rintro o b' ⟨hadvances, -, hplaced, -⟩
  refine ⟨hadvances, hplaced.imp fun whole hwhole hhas => ?_⟩
  have hbefore : Within b whole := hwhole.of_grows hadvances.grows
  obtain ⟨hid, hid'⟩ := scalar_of_element hhas 11 rfl (ofNat_default
    (UInt16.ofNat_toNat : _ = fv.fieldId) fun h => (of_decide_eq_true h).symm)
  obtain ⟨hvtype, hvtype'⟩ := scalar_of_element hhas 12 rfl
    (ofNat_default (valueType_typeByte fv.vtype) fun h => typeByte_eq_zero (of_decide_eq_true h))
  obtain ⟨hi32, hi32'⟩ := scalar_of_element hhas 10 rfl
    (ofNat_default (int32_back fv.i32) fun h => (of_decide_eq_true h).symm)
  obtain ⟨hi64, hi64'⟩ := scalar_of_element hhas 1 rfl
    (ofNat_default (int64_back fv.i64) fun h => (of_decide_eq_true h).symm)
  obtain ⟨hf32, hf32'⟩ := scalar_of_element hhas 9 rfl (received32_back fv.f32)
  obtain ⟨hf64, hf64'⟩ := scalar_of_element hhas 0 rfl (received64_back fv.f64)
  obtain ⟨hs, hs'⟩ := optional_of_pointed hhas 8 rfl hslots.s hbefore
  obtain ⟨hraw, hraw'⟩ := optional_of_pointed hhas 7 rfl hslots.raw hbefore
  obtain ⟨hai32, hai32'⟩ := optional_of_pointed hhas 6 rfl hslots.ai32 hbefore
  obtain ⟨hai64, hai64'⟩ := optional_of_pointed hhas 5 rfl hslots.ai64 hbefore
  obtain ⟨haf32, haf32'⟩ := optional_of_pointed hhas 4 rfl hslots.af32 hbefore
  obtain ⟨haf64, haf64'⟩ := optional_of_pointed hhas 3 rfl hslots.af64 hbefore
  obtain ⟨has, has'⟩ := optional_of_pointed hhas 2 rfl hslots.as hbefore
  constructor
  · exact bind_eq_ok.mpr ⟨_, hid, bind_eq_ok.mpr ⟨_, hvtype, bind_eq_ok.mpr ⟨_, hi32,
      bind_eq_ok.mpr ⟨_, hi64, bind_eq_ok.mpr ⟨_, hf32, bind_eq_ok.mpr ⟨_, hf64,
      bind_eq_ok.mpr ⟨_, hs, bind_eq_ok.mpr ⟨_, hraw, bind_eq_ok.mpr ⟨_, hai32,
      bind_eq_ok.mpr ⟨_, hai64, bind_eq_ok.mpr ⟨_, haf32, bind_eq_ok.mpr ⟨_, haf64,
      bind_eq_ok.mpr ⟨_, has, rfl⟩⟩⟩⟩⟩⟩⟩⟩⟩⟩⟩⟩⟩
  · simp only [verifyFieldValue, hhas.start, hid', hvtype', hi32', hi64', hf32', hf64', hs', hraw',
      hai32', hai64', haf32', haf64', has', Bool.and_self]

/-- What is created when it is there, and read back as it was. -/
theorem ends_createSome (h : Idle b) {α : Type} {create : α → Build Nat} {x : Option α}
    {weight : α → Nat} {read : Buffer → Int → Read α} {verify : Buffer → Int → Bool}
    (hcreate : ∀ a, x = some a → Ends (create a) b fun o b' =>
      Advances b b' (weight a) ∧ Placed b' o (Holds read verify a)) :
    Ends (createOptional create x) b fun o b' => Advances b b' (x.elim 0 weight) ∧
      Pointed b' o read verify x := by
  refine (ends_createOptional h (f := id) hcreate).imp fun o b' ⟨hadvances, hpointed⟩ => ?_
  rw [Option.map_id] at hpointed
  exact ⟨hadvances, hpointed⟩

theorem ends_createTexts (h : Idle b) {ts : List (Option String)}
    (hts : ∀ t ∈ ts, Entry ByteText t) :
    Ends (createTexts ts) b fun o b' => Advances b b' (entriesWeight textWeight ts) ∧
      Placed b' o (Holds (fun buf => decodeElements buf (text buf))
        (fun buf => verifyElements buf (verifyString buf)) ts) := by
  refine (ends_createEntries h (f := id) hts fun t ht b hb => ends_createText hb ht).imp
    fun o b' ⟨hadvances, hplaced⟩ => ?_
  rw [Option.map_id, List.map_id] at hplaced
  exact ⟨hadvances, hplaced⟩

theorem ends_packFieldValue (h : Idle b) {fv : FieldValue} (hfv : fv.Sendable) :
    Ends (packFieldValue fv) b fun o b' => Advances b b' fv.weight ∧
      Placed b' o (Holds decodeFieldValue verifyFieldValue fv.received) := by
  unfold packFieldValue
  refine ends_bind.mpr ((ends_createSome h fun t ht => ends_createText h (hfv.s t ht)).imp
    fun s b₁ ⟨h₁, hs⟩ => ?_)
  refine ends_bind.mpr ((ends_createSome h₁.idle fun t ht =>
    ends_createBytes h₁.idle (hfv.raw t ht)).imp fun raw b₂ ⟨h₂, hraw⟩ => ?_)
  refine ends_bind.mpr ((ends_createSome h₂.idle fun v _ => ends_createNumbers h₂.idle
    (n := 4) (by decide) (fun a => a.toUInt32.toNat_lt) int32_back v).imp
      fun ai32 b₃ ⟨h₃, hai32⟩ => ?_)
  refine ends_bind.mpr ((ends_createSome h₃.idle fun v _ => ends_createNumbers h₃.idle
    (n := 8) (by decide) (fun a => a.toUInt64.toNat_lt) int64_back v).imp
      fun ai64 b₄ ⟨h₄, hai64⟩ => ?_)
  refine ends_bind.mpr ((ends_createSome h₄.idle fun v _ => ends_createNumbers h₄.idle
    (n := 4) (by decide) (fun a => a.toNat_lt) (fun a => UInt32.ofNat_toNat) v).imp
      fun af32 b₅ ⟨h₅, haf32⟩ => ?_)
  refine ends_bind.mpr ((ends_createSome h₅.idle fun v _ => ends_createNumbers h₅.idle
    (n := 8) (by decide) (fun a => a.toNat_lt) (fun a => UInt64.ofNat_toNat) v).imp
      fun af64 b₆ ⟨h₆, haf64⟩ => ?_)
  refine ends_bind.mpr ((ends_createSome h₆.idle fun ts hts =>
    ends_createTexts h₆.idle (hfv.as ts hts)).imp fun as b₇ ⟨h₇, has⟩ => ?_)
  have hslots : Slots b₇ fv s raw ai32 ai64 af32 af64 as :=
    { s := hs.of_grows (h₂.grows.trans (h₃.grows.trans (h₄.grows.trans (h₅.grows.trans
        (h₆.grows.trans h₇.grows)))))
      raw := hraw.of_grows (h₃.grows.trans (h₄.grows.trans (h₅.grows.trans
        (h₆.grows.trans h₇.grows))))
      ai32 := hai32.of_grows (h₄.grows.trans (h₅.grows.trans (h₆.grows.trans h₇.grows)))
      ai64 := hai64.of_grows (h₅.grows.trans (h₆.grows.trans h₇.grows))
      af32 := haf32.of_grows (h₆.grows.trans h₇.grows)
      af64 := haf64.of_grows h₇.grows
      as := has }
  refine (ends_createFieldValue h₇.idle hslots).imp fun o b' ⟨hadvances, hplaced⟩ => ⟨?_, hplaced⟩
  exact h₁.trans (h₂.trans (h₃.trans (h₄.trans (h₅.trans (h₆.trans (h₇.trans hadvances))))))

end FieldValues
end Wire

/-! ## Rows -/

structure Row.Sendable (row : Row) : Prop where
  fields : ∀ fvs ∈ row.fields, ∀ fv ∈ fvs, Entry FieldValue.Sendable fv

def Row.received (row : Row) : Row :=
  ⟨row.fields.map fun fvs => fvs.map fun fv => fv.map FieldValue.received⟩

def Row.weight (row : Row) : Nat :=
  row.fields.elim 0 (entriesWeight FieldValue.weight) + 30

namespace Wire
variable {b : Builder}

/-- A range-for over what `Verify` accepts comes to every element. -/
theorem optional_iterated {α : Type} {buf : Buffer} {decode : Int → Read α} {verify : Int → Bool}
    {p : Int} {field : Nat} (h : verifyAt buf (verifyElements buf verify) p field = true) :
    optional buf (decodeIterated buf decode) p field =
      optional buf (decodeElements buf decode) p field := by
  simp only [verifyAt, Bool.and_eq_true] at h
  obtain ⟨q, hq⟩ := inside_getPointer h.1
  unfold optional
  rw [hq, ok_bind, ok_bind]
  cases q with
  | none => rfl
  | some q =>
    have hiterated : decodeIterated buf decode q = decodeElements buf decode q :=
      iterated_eq_elements _ (verifyPointer_some h.2 hq)
    exact congrArg (Except.map some) hiterated

theorem ends_createRow (h : Idle b) {fields : Nat} {fvs : Option (List (Option FieldValue))}
    (hfields : Pointed b fields (fun buf => decodeElements buf (decodeFieldValue buf))
      (fun buf => verifyElements buf (verifyFieldValue buf)) fvs) :
    Ends (createRow fields) b fun o b' => Advances b b' 30 ∧ 8 ≤ b'.size ∧
      Placed b' o (Holds decodeRow verifyRow ⟨fvs⟩) := by
  have hfits : ∀ a ∈ [Add.offset 4 fields], a.Fits b := List.forall_mem_singleton.mpr hfields.le
  have hslots : Fields 4 [Add.offset 4 fields] := .of_slots [4] rfl (by decide)
  refine (ends_createTable h hfits hslots).imp ?_
  rintro o b' ⟨hadvances, hsize, hplaced, -⟩
  refine ⟨hadvances, hsize, hplaced.imp fun whole hwhole hhas => ?_⟩
  obtain ⟨hread, hverify⟩ :=
    optional_of_pointed hhas 0 rfl hfields (hwhole.of_grows hadvances.grows)
  rw [← optional_iterated hverify] at hread
  exact ⟨map_eq_ok.mpr ⟨_, hread, rfl⟩, Bool.and_eq_true_iff.mpr ⟨hhas.start, hverify⟩⟩

theorem ends_packRow (h : Idle b) {row : Row} (hrow : row.Sendable) :
    Ends (packRow row) b fun o b' => Advances b b' row.weight ∧ 8 ≤ b'.size ∧
      Placed b' o (Holds decodeRow verifyRow row.received) := by
  refine ends_bind.mpr ((ends_createOptional h fun fvs hfvs => ends_createEntries h
    (hrow.fields fvs hfvs) fun fv hfv b hb => ends_packFieldValue hb hfv).imp
      fun fields b₁ ⟨h₁, hfields⟩ => ?_)
  exact (ends_createRow h₁.idle hfields).imp fun o b' ⟨hadvances, hsize, hplaced⟩ =>
    ⟨h₁.trans hadvances, hsize, hplaced⟩

end Wire

/-! ## Requests -/

namespace Wire

def Request.method : Request → Method
  | get _ => .get
  | put _ => .put
  | putBatch _ => .putBatch
  | batchGet _ => .batchGet

/-- The first field must be there, but for that of a `BatchGetRequest`. -/
def Request.Sendable : Request → Prop
  | get req => Entry ByteText req.pk ∧ ∀ t ∈ req.tableName, ByteText t
  | put req => Entry Row.Sendable req.row ∧ ∀ t ∈ req.tableName, ByteText t
  | putBatch req =>
    Entry (fun rows => ∀ row ∈ rows, Entry Row.Sendable row) req.rows ∧
      ∀ t ∈ req.tableName, ByteText t
  | batchGet req =>
    (∀ pks ∈ req.pks, ∀ pk ∈ pks, Entry ByteText pk) ∧ ∀ t ∈ req.tableName, ByteText t

/-- A request as it arrives. -/
def Request.received : Request → Request
  | get req => .get req
  | put req => .put ⟨req.row.map Row.received, req.tableName⟩
  | putBatch req => .putBatch ⟨req.rows.map fun rows => rows.map fun row => row.map Row.received,
      req.tableName⟩
  | batchGet req => .batchGet req

/-- The bytes that a request takes at most. -/
def Request.weight : Request → Nat
  | get req => req.pk.elim 0 textWeight + (req.tableName.elim 0 textWeight + 47)
  | put req => req.row.elim 0 Row.weight + (req.tableName.elim 0 textWeight + 47)
  | putBatch req => req.rows.elim 0 (entriesWeight Row.weight) +
      (req.tableName.elim 0 textWeight + 47)
  | batchGet req => req.pks.elim 0 (entriesWeight textWeight) +
      (req.tableName.elim 0 textWeight + 47)

section Requests
variable {α : Type} {b : Builder} {first tableName : Nat} {decode : Buffer → Int → Read α}
  {verify : Buffer → Int → Bool} {x : Option α} {name : Option String}

/-- A table of two fields, as the readers and the verifiers of requests find it. -/
structure HoldsRequest (decode : Buffer → Int → Read α) (verify : Buffer → Int → Bool)
    (x : Option α) (name : Option String) (buf : Buffer) (p : Int) : Prop where
  start : verifyTableStart buf p = true
  first : optional buf (decode buf) p 4 = .ok x
  verifyFirst : verifyAt buf (verify buf) p 4 = true
  required : x.isSome → verifyOffsetRequired buf p 4 = true
  tableName : optional buf (text buf) p 6 = .ok name
  verifyTableName : verifyAt buf (verifyString buf) p 6 = true

theorem fields_requestAdds : Fields 6 (requestAdds first tableName) :=
  .of_slots [6, 4] rfl (by decide)

theorem ends_requestTable (h : Idle b) (hfirst : Pointed b first decode verify x)
    (hname : Pointed b tableName text verifyString name) :
    Ends (createTable (requestAdds first tableName)) b fun o b' => Advances b b' 47 ∧
      8 ≤ b'.size ∧ Placed b' o (HoldsRequest decode verify x name) ∧
        ∃ locs, IsTable b b' (requestAdds first tableName) o locs := by
  have hfits : ∀ a ∈ requestAdds first tableName, a.Fits b := by
    simp only [requestAdds, List.forall_mem_cons, List.not_mem_nil, false_imp_iff,
      implies_true, and_true]
    exact ⟨hname.le, hfirst.le⟩
  refine (ends_createTable h hfits fields_requestAdds).imp ?_
  rintro o b' ⟨hadvances, hsize, hplaced, htable⟩
  refine ⟨hadvances, hsize, hplaced.imp fun whole hwhole hhas => ?_, htable⟩
  have hbefore : Within b whole := hwhole.of_grows hadvances.grows
  obtain ⟨hread, hverify⟩ := optional_of_pointed hhas 1 rfl hfirst hbefore
  obtain ⟨hreadName, hverifyName⟩ := optional_of_pointed hhas 0 rfl hname hbefore
  refine ⟨hhas.start, hread, hverify, fun hsome => ?_, hreadName, hverifyName⟩
  exact hhas.required (List.mem_of_getElem? (i := 1) rfl) (hfirst.ne_zero hsome)

/-- A request whose first field must be there is created when it is. -/
theorem ends_createRequired (h : Idle b) (hfirst : Pointed b first decode verify x)
    (hsome : x.isSome) (hname : Pointed b tableName text verifyString name)
    (hroom : b.size + 47 ≤ maxSize) :
    Ends (createRequired first tableName) b fun o b' => Advances b b' 47 ∧
      8 ≤ b'.size ∧ Placed b' o (HoldsRequest decode verify x name) := by
  refine ends_bind.mpr ((ends_requestTable h hfirst hname).imp ?_)
  rintro o b' ⟨hadvances, hsize, hplaced, locs, htable⟩
  have hbound := hadvances.size
  exact ends_bind.mpr (ends_required htable fields_requestAdds (List.mem_of_getElem? (i := 1) rfl)
    (hfirst.ne_zero hsome) (by omega) (ends_pure.mpr ⟨hadvances, hsize, hplaced⟩))

/-- A request that is built is of its type, and is read as it was built. -/
theorem built_request (method : Method) {m : Build Nat} {k : Nat}
    (hm : Ends m {} fun o b => Advances {} b k ∧ 8 ≤ b.size ∧
      Placed b o (HoldsRequest decode verify x name)) (hk : k + 16 ≤ maxSize)
    (hmethod : ∀ buf p, HoldsRequest decode verify x name buf p →
      verifyFirst buf method p = true) :
    ∃ body, built m = some body ∧ wellFormed body method = true ∧
      decodeRequest body (decode body) = .ok (x, name) := by
  have hholds : Ends m {} fun o b => Advances {} b k ∧ 8 ≤ b.size ∧ Placed b o (Holds
      (fun buf p => do
        let first ← optional buf (decode buf) p 4
        let tableName ← optional buf (text buf) p 6
        pure (first, tableName)) (fun buf => verifyRequest buf method) (x, name)) := by
    refine hm.imp fun o b ⟨hadvances, hsize, hplaced⟩ => ⟨hadvances, hsize, ?_⟩
    refine hplaced.imp fun whole _ h => ⟨?_, ?_⟩
    · exact bind_eq_ok.mpr ⟨_, h.first, bind_eq_ok.mpr ⟨_, h.tableName, rfl⟩⟩
    · simp only [verifyRequest, h.start, hmethod _ _ h, h.verifyTableName, Bool.and_self]
  obtain ⟨body, hbuilt, hverify, p, hroot, hread⟩ := built_holds hholds hk
  exact ⟨body, hbuilt, hverify, bind_eq_ok.mpr ⟨p, hroot, hread⟩⟩

/-- A first field that must be there, for the verifier of its method. -/
theorem HoldsRequest.verifyRequired {buf : Buffer} {p : Int}
    (h : HoldsRequest decode verify x name buf p) (hsome : x.isSome) :
    (verifyOffsetRequired buf p 4 && verifyPointer buf (verify buf) p 4) = true := by
  rw [h.required hsome, Bool.true_and]
  exact (Bool.and_eq_true_iff.mp h.verifyFirst).2

/-- What is built first for a request, and then its name. -/
theorem ends_request {create : α → Build Nat} {weight : α → Nat} {f : α → α} {x : Option α}
    (table : Nat → Nat → Build Nat)
    (hcreate : ∀ a, x = some a → Ends (create a) {} fun o b => Advances {} b (weight a) ∧
      Placed b o (Holds decode verify (f a)))
    (hname : ∀ t ∈ name, ByteText t)
    (htable : ∀ {b first tableName}, Idle b →
      b.size ≤ x.elim 0 weight + name.elim 0 textWeight →
      Pointed b first decode verify (x.map f) → Pointed b tableName text verifyString name →
      Ends (table first tableName) b fun o b' => Advances b b' 47 ∧ 8 ≤ b'.size ∧
        Placed b' o (HoldsRequest decode verify (x.map f) name)) :
    Ends (do
        let first ← createOptional create x
        let tableName ← createOptional createText name
        table first tableName) {} fun o b =>
      Advances {} b (x.elim 0 weight + (name.elim 0 textWeight + 47)) ∧ 8 ≤ b.size ∧
        Placed b o (HoldsRequest decode verify (x.map f) name) := by
  refine ends_bind.mpr ((ends_createOptional .initial hcreate).imp fun first b₁ ⟨h₁, hfirst⟩ => ?_)
  refine ends_bind.mpr ((ends_createSome h₁.idle fun t ht =>
    ends_createText h₁.idle (hname t ht)).imp fun tableName b₂ ⟨h₂, htname⟩ => ?_)
  have hbefore := h₁.trans h₂
  have hsize : b₂.size ≤ 0 + _ := hbefore.size
  rw [Nat.zero_add] at hsize
  exact (htable h₂.idle hsize (hfirst.of_grows h₂.grows) htname).imp
    fun o b ⟨hadvances, hbound, hplaced⟩ => ⟨h₁.trans (h₂.trans hadvances), hbound, hplaced⟩

/-- A request whose first field must be there. -/
theorem required_arrives (method : Method) {P : α → Prop} {create : α → Build Nat}
    {weight : α → Nat} {f : α → α} (hcreate : ∀ a, P a → Ends (create a) {} fun o b =>
      Advances {} b (weight a) ∧ Placed b o (Holds decode verify (f a)))
    (hfirst : Entry P x) (hname : ∀ t ∈ name, ByteText t)
    (hsize : x.elim 0 weight + (name.elim 0 textWeight + 47) + 16 ≤ maxSize)
    (hmethod : ∀ buf p, verifyFirst buf method p =
      (verifyOffsetRequired buf p 4 && verifyPointer buf (verify buf) p 4)) :
    ∃ body, built (do
        let first ← createOptional create x
        let tableName ← createOptional createText name
        createRequired first tableName) = some body ∧ wellFormed body method = true ∧
      decodeRequest body (decode body) = .ok (x.map f, name) := by
  obtain ⟨a, rfl, ha⟩ := hfirst
  have hends := ends_request createRequired (x := some a) (fun a' ha' => by
      obtain rfl : a = a' := Option.some.inj ha'
      exact hcreate a ha) hname fun hidle hbound hpointed htname =>
    ends_createRequired hidle hpointed rfl htname (by omega)
  exact built_request method hends hsize fun buf p hholds =>
    (hmethod buf p).trans (hholds.verifyRequired rfl)

end Requests

theorem ends_packRows {b : Builder} (h : Idle b) {rows : List (Option Row)}
    (hrows : ∀ row ∈ rows, Entry Row.Sendable row) :
    Ends (packRows rows) b fun o b' => Advances b b' (entriesWeight Row.weight rows) ∧
      Placed b' o (Holds (fun buf => decodeElements buf (decodeRow buf))
        (fun buf => verifyElements buf (verifyRow buf))
        (rows.map fun row => row.map Row.received)) :=
  ends_createEntries h hrows fun _ hrow _ hb => (ends_packRow hb hrow).imp
    fun _ _ ⟨hadvances, _, hplaced⟩ => ⟨hadvances, hplaced⟩

/-- A request that can be sent is built, and it is of the method's type and arrives, if it is
not too long for a buffer. -/
theorem request_arrives {req : Request} (h : req.Sendable) (hsize : req.weight + 16 ≤ maxSize) :
    ∃ body, built (packRequest req) = some body ∧ wellFormed body req.method = true ∧
      decode body req.method = .ok req.received := by
  cases req with
  | get req =>
    obtain ⟨body, hbuilt, hverify, hread⟩ := required_arrives .get (f := id)
      (fun _ ht => ends_createText .initial ht) h.1 h.2 hsize fun _ _ => rfl
    rw [Option.map_id] at hread
    exact ⟨body, hbuilt, hverify, map_eq_ok.mpr ⟨_, hread, rfl⟩⟩
  | put req =>
    obtain ⟨body, hbuilt, hverify, hread⟩ := required_arrives .put
      (fun _ hrow => (ends_packRow .initial hrow).imp
        fun _ _ ⟨hadvances, _, hplaced⟩ => ⟨hadvances, hplaced⟩) h.1 h.2 hsize fun _ _ => rfl
    exact ⟨body, hbuilt, hverify, map_eq_ok.mpr ⟨_, hread, rfl⟩⟩
  | putBatch req =>
    obtain ⟨body, hbuilt, hverify, hread⟩ := required_arrives .putBatch
      (fun _ hrows => ends_packRows .initial hrows) h.1 h.2 hsize fun _ _ => rfl
    exact ⟨body, hbuilt, hverify, map_eq_ok.mpr ⟨_, hread, rfl⟩⟩
  | batchGet req =>
    have hends := ends_request createBatchGetRequest (f := id)
      (fun ts hts => ends_createTexts .initial (h.1 ts hts)) h.2
      fun hidle _ hpointed htname => (ends_requestTable hidle hpointed htname).imp
        fun _ _ ⟨hadvances, hbound, hplaced, _⟩ => ⟨hadvances, hbound, hplaced⟩
    obtain ⟨body, hbuilt, hverify, hread⟩ := built_request .batchGet hends hsize
      fun _ _ hholds => hholds.verifyFirst
    rw [Option.map_id] at hread
    exact ⟨body, hbuilt, hverify, map_eq_ok.mpr ⟨_, hread, rfl⟩⟩

/-- An id of 7, and a score. -/
def scored (score : UInt64) : Row where
  fields := some [some { fieldId := 1, vtype := .i64, i64 := 7 },
    some { fieldId := 4, vtype := .f64, f64 := score }]

/-- A score of negative zero arrives as zero. -/
theorem negativeZero_arrives : ∃ body,
    built (packRequest (.put ⟨some (scored 0x8000000000000000), some "t"⟩)) = some body ∧
      wellFormed body .put = true ∧
      decode body .put = .ok (.put ⟨some (scored 0), some "t"⟩) := by
  have hrow : (scored 0x8000000000000000).Sendable := by
    refine ⟨fun fvs hfvs fv hfv => ?_⟩
    obtain rfl := Option.some.inj hfvs
    have hnone : ∀ {α : Type} {P : α → Prop}, ∀ a ∈ (none : Option α), P a :=
      fun _ ha => nomatch ha
    rcases List.mem_cons.mp hfv with rfl | hfv
    · exact ⟨_, rfl, hnone, hnone, hnone⟩
    · obtain rfl := List.mem_singleton.mp hfv
      exact ⟨_, rfl, hnone, hnone, hnone⟩
  have hreq : (Request.put ⟨some (scored 0x8000000000000000), some "t"⟩).Sendable :=
    ⟨⟨_, rfl, hrow⟩, fun t ht => Option.some.inj ht ▸ by decide⟩
  exact request_arrives hreq (by decide)

end Wire
end YikvServer.Db
