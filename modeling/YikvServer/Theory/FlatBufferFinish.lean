import YikvServer.Theory.FlatBufferTable
import Mathlib.Data.List.Nodup

/-!
# Tables, and the finished buffer

What is added to a table is found in it, at the field that it was added for. From that, a
finished buffer is accepted by the verifier and read back as what was built.
-/
namespace YikvServer.Theory.FlatBuffers

/-! ## Tables -/

section Tables
variable {b s u : Builder} {top : Nat} {adds : List Add}

/-- The fields of a table, each even and none twice, in a vtable that is not too long. -/
structure Fields (top : Nat) (adds : List Add) : Prop where
  field : ∀ a ∈ adds, 2 ∣ a.field ∧ 4 ≤ a.field ∧ a.field ≤ top
  nodup : (adds.map Add.field).Nodup
  few : adds.length ≤ 4000
  top : top ≤ 32000

/-- The fields of a table, by their slots. -/
theorem Fields.of_slots {top : Nat} {adds : List Add} (slots : List Nat)
    (hslots : adds.map Add.field = slots)
    (h : (∀ f ∈ slots, 2 ∣ f ∧ 4 ≤ f ∧ f ≤ top) ∧ slots.Nodup ∧ slots.length ≤ 4000 ∧
      top ≤ 32000) : Fields top adds where
  field a ha := h.1 a.field (hslots ▸ List.mem_map_of_mem ha)
  nodup := hslots ▸ h.2.1
  few := by
    have hlength : (adds.map Add.field).length = adds.length := List.length_map _
    rw [hslots] at hlength
    exact hlength ▸ h.2.2.1
  top := h.2.2.2

/-- A table at an offset, with what was added and is not left out. -/
structure IsTable (b u : Builder) (adds : List Add) (o : Nat) (locs : List FieldLoc) : Prop where
  pos : 0 < o
  le : o ≤ u.size
  fields : List.Forall₂ (Tracked b u) (adds.filter (!·.skipped)) locs
  offs : ∀ l ∈ locs, l.off < o
  lookup : ∀ whole, u.buf <:+ whole → whole.length ≤ maxSize → ∀ field, 2 ∣ field ∧ 4 ≤ field →
    fieldOffset whole (whole.length - o) field = .ok (vtableEntry o locs field)
  start : ∀ whole, Within u whole → verifyTableStart whole (whole.length - o) = true

theorem Open.ids_eq (h : Open b top adds s) :
    s.fieldLocs.map (·.id) = (adds.filter (!·.skipped)).map Add.field := by
  have hfields := h.fields
  generalize adds.filter (!·.skipped) = kept at hfields
  generalize s.fieldLocs = locs at hfields
  induction hfields with
  | nil => rfl
  | cons htracked _ ih => rw [List.map_cons, List.map_cons, htracked.id, ih]

theorem ends_endTable (h : Open b top adds s) (hfields : Fields top adds) :
    Ends (endTable b.size) s fun o u => Idle u ∧ Grows s u ∧
      (8 ≤ u.size ∧ u.size ≤ s.size + top + 11) ∧ IsTable b u adds o s.fieldLocs := by
  obtain ⟨hsound, hgrows, hsize, h4, hmin⟩ := pushedElement_spec (v := 0) h.toSound
    (show 4 ∣ 8 by decide)
  have hpad : paddingBytes s.size 4 < 4 := paddingBytes_lt (by decide) _
  generalize hrest : List.replicate (paddingBytes s.size 4) 0 ++ s.buf = rest
  have hlen : rest.length = paddingBytes s.size 4 + s.size := by
    rw [← hrest, List.length_append, List.length_replicate]
    rfl
  have hpushed : s.pushedElement 4 0 =
      { s with buf := scalarBytes 4 0 ++ rest, minalign := max s.minalign 4 } := by
    rw [← hrest, ← List.append_assoc]
    rfl
  have hloc : (s.pushedElement 4 0).size = rest.length + 4 := by omega
  have hbound := h.size
  have hfew := hfields.few
  have htop := hfields.top
  have hstart := h.grows.size_le
  have hmaxVoffset := h.maxVoffset
  generalize hmv : max ((s.maxVoffset + 2) % 65536) 4 = mv
  have hmvBounds : 2 ∣ mv ∧ 4 ≤ mv ∧ s.maxVoffset + 2 ≤ mv ∧ mv ≤ top + 4 := by omega
  have hobject : rest.length + 4 - b.size < 65536 := by omega
  have hids : ∀ l ∈ s.fieldLocs,
      (2 ∣ l.id ∧ 4 ≤ l.id ∧ l.id + 2 ≤ mv) ∧ rest.length + 4 - l.off < 65536 := fun l hl => by
    obtain ⟨a, ha, htracked⟩ := exists_left_of_forall₂ h.fields l hl
    have hle := h.ids l hl
    have hbounds := hfields.field a (List.mem_of_mem_filter ha)
    have hoff := htracked.off
    rw [← htracked.id] at hbounds
    omega
  have hnodup : (s.fieldLocs.map (·.id)).Nodup := by
    rw [h.ids_eq]
    exact hfields.nodup.sublist (List.filter_sublist.map _)
  refine ends_bind.mpr (ends_get.mpr (ends_bind.mpr (ends_assert.mpr ⟨h.nested,
    ends_bind.mpr (ends_pushElement ?_)⟩)))
  rw [hloc, hpushed]
  refine ends_bind.mpr (ends_modify.mpr (ends_bind.mpr (ends_modify.mpr (ends_bind.mpr
    (ends_assert.mpr ⟨hobject, ends_bind.mpr (ends_modify.mpr (ends_bind.mpr
      (ends_modify.mpr (ends_bind.mpr (ends_get.mpr ?_)))))⟩)))))
  generalize hc : Builder.mk _ _ _ _ _ _ _ = c
  -- The vtable with its two sizes, in front of the table.
  generalize hvt : writeAt (writeAt (List.replicate mv 0) 2
    (scalarBytes 2 (rest.length + 4 - b.size))) 0 (scalarBytes 2 mv) = vt
  have hzeros : (List.replicate mv (0 : UInt8)).length = mv := List.length_replicate
  have hcbuf : c.buf = vt ++ (scalarBytes 4 0 ++ rest) := by
    rw [← hc, ← hvt]
    show writeAt (writeAt (List.replicate (max ((s.maxVoffset + 2) % 65536) 4) 0 ++ _) 2 _) 0
      (scalarBytes 2 (max ((s.maxVoffset + 2) % 65536) 4)) = _
    rw [hmv, writeAt_append (by rw [length_scalarBytes]; omega), writeAt_append]
    rw [length_writeAt (by rw [length_scalarBytes]; omega), length_scalarBytes]
    omega
  have hcflags : c.vtables = s.vtables ∧ c.fieldLocs = s.fieldLocs ∧ c.finished = s.finished ∧
      c.minalign = max s.minalign 4 := by
    rw [← hc]
    exact ⟨rfl, rfl, rfl, rfl⟩
  have hnil : IsVtable vt mv (rest.length + 4 - b.size) (rest.length + 4) [] := by
    rw [← hvt]
    exact isVtable_nil hmvBounds.2.1 (by omega) hobject
  rw [hcflags.2.1]
  refine ends_bind.mpr ((ends_writeFieldLocs hcbuf hnil hids hnodup).imp ?_)
  rintro _ _ ⟨vt', hvt', rfl⟩
  refine ends_bind.mpr (ends_modify.mpr (ends_bind.mpr ?_))
  have hrestSuffix : s.buf <:+ rest := by
    rw [← hrest]
    exact List.suffix_append _ _
  have h4rest : 4 ∣ rest.length := by omega
  have hmax : max s.minalign 4 ∣ 8 := max_dvd h.minalign (by decide)
  generalize hd : Builder.mk _ _ _ _ _ _ _ = d
  have hdbuf : d.buf = vt' ++ (scalarBytes 4 0 ++ rest) := by rw [← hd]
  have hdflags : d.vtables = s.vtables ∧ d.fieldLocs = [] ∧ d.maxVoffset = 0 ∧
      d.finished = s.finished ∧ d.minalign = max s.minalign 4 := by
    rw [← hd]
    exact ⟨hcflags.1, rfl, rfl, hcflags.2.2⟩
  refine (ends_useVtable hdbuf h.toSound hrestSuffix hdflags.1 (hdflags.2.2.2.2 ▸ hmax) hvt'
    hmvBounds.1 h4rest hmvBounds.2.1).imp ?_
  rintro _ u ⟨husound, hsuffix, husize, ⟨-, hufinished, hulocs, humax, humin⟩, vtUse, htable⟩
  refine ends_bind.mpr (ends_modify.mpr (ends_pure.mpr ?_))
  generalize hw : ({ u with nested := false } : Builder) = w
  have hwbuf : w.buf = u.buf := by rw [← hw]
  have hwmin : w.minalign = max s.minalign 4 := by rw [← hw, ← hdflags.2.2.2.2, ← humin]
  have htable' : TableAt w vt' (rest.length + 4) vtUse := by
    rw [← hw]
    exact ⟨htable.even, htable.le, htable.vtable, htable.table, htable.loc⟩
  have hwgrows : Grows s w := by
    refine ⟨hwbuf ▸ hsuffix, ?_⟩
    rw [hwmin]
    exact dvd_max_left h.minalign (by decide)
  have hwsize : w.size = u.size := congrArg List.length hwbuf
  refine ⟨?_, hwgrows, ⟨by omega, by omega⟩, ?_⟩
  · rw [← hw]
    exact ⟨⟨husound.minalign, husound.vtables⟩, rfl, hulocs.trans hdflags.2.1,
      humax.trans hdflags.2.2.1, hufinished.trans (hdflags.2.2.2.1.trans h.finished)⟩
  · refine ⟨by omega, htable'.loc, h.fields.imp fun _ _ hold => hold.of_grows hwgrows, ?_, ?_, ?_⟩
    · intro l hl
      obtain ⟨a, -, htracked⟩ := exists_left_of_forall₂ h.fields l hl
      have hle := htracked.placed.le
      omega
    · exact fun whole hwhole hle field => htable'.fieldOffset hvt' hmvBounds.1 hmvBounds.2.1
        (fun l hl => (hids l hl).1.2.2) hwhole hle
    · exact fun whole => htable'.verifyTableStart hvt' hmvBounds.1 hmvBounds.2.1 (by omega)
        (hwmin ▸ dvd_max_right h.minalign (by decide))

theorem Open.start (h : Idle b) : Open b top [] { b with nested := true } where
  minalign := h.minalign
  vtables := h.vtables
  grows := ⟨List.suffix_rfl, dvd_rfl⟩
  nested := rfl
  finished := h.finished
  size := Nat.le_add_right _ _
  fields := by
    show List.Forall₂ _ [] b.fieldLocs
    rw [h.fieldLocs]
    exact .nil
  ids := by
    show ∀ loc ∈ b.fieldLocs, _
    rw [h.fieldLocs]
    simp
  maxVoffset := by
    show 2 ∣ b.maxVoffset ∧ b.maxVoffset ≤ top
    rw [h.maxVoffset]
    exact ⟨by decide, Nat.zero_le _⟩

/-! ### What is found in a table -/

section Found
variable {o : Nat} {locs : List FieldLoc} {whole : Buffer}

theorem Fields.eq_of_field (h : Fields top adds) {a a' : Add} (ha : a ∈ adds) (ha' : a' ∈ adds)
    (hfield : a.field = a'.field) : a = a' :=
  List.inj_on_of_nodup_map h.nodup ha ha' hfield

/-- The entry of a field that was added leads to where it is. -/
theorem IsTable.entry_of_added (h : IsTable b u adds o locs) (hfields : Fields top adds) {a : Add}
    (ha : a ∈ adds) (hskip : a.skipped = false) :
    ∃ l, Tracked b u a l ∧ l.off < o ∧ vtableEntry o locs a.field = o - l.off := by
  have hkept : a ∈ adds.filter (!·.skipped) := List.mem_filter.mpr ⟨ha, by rw [hskip]; rfl⟩
  obtain ⟨l, hl, htracked⟩ := exists_left_of_forall₂ h.fields.flip a hkept
  cases hfind : locs.find? (fun l => l.id = a.field) with
  | none =>
    have hno := List.find?_eq_none.mp hfind l hl
    rw [decide_eq_true htracked.id] at hno
    exact absurd rfl hno
  | some l' =>
    have hid : l'.id = a.field := by simpa using List.find?_some hfind
    have hmem := List.mem_of_find?_eq_some hfind
    obtain ⟨a', ha', htracked'⟩ := exists_left_of_forall₂ h.fields l' hmem
    obtain rfl := hfields.eq_of_field (List.mem_of_mem_filter ha') ha (htracked'.id.symm.trans hid)
    exact ⟨l', htracked', h.offs l' hmem, by rw [vtableEntry, hfind]; rfl⟩

/-- A field that was left out has no entry. -/
theorem IsTable.entry_of_skipped (h : IsTable b u adds o locs) (hfields : Fields top adds)
    {a : Add} (ha : a ∈ adds) (hskip : a.skipped = true) : vtableEntry o locs a.field = 0 := by
  have hnone : locs.find? (fun l => l.id = a.field) = none := by
    refine List.find?_eq_none.mpr fun l hl hid => ?_
    obtain ⟨a', ha', htracked⟩ := exists_left_of_forall₂ h.fields l hl
    have hsame := hfields.eq_of_field (List.mem_of_mem_filter ha') ha
      (htracked.id.symm.trans (of_decide_eq_true hid))
    have hkept := (List.mem_filter.mp ha').2
    rw [hsame, hskip] at hkept
    cases hkept
  rw [vtableEntry, hnone]
  rfl

/-- What was added, read back and accepted field by field. -/
structure HasFields (adds : List Add) (buf : Buffer) (p : Int) : Prop where
  start : verifyTableStart buf p = true
  element : ∀ {n field v isDefault}, Add.element n field v isDefault ∈ adds →
    getField buf n p field = .ok (if isDefault then 0 else v) ∧ verifyField buf n p field = true
  offset : ∀ {field off}, Add.offset field off ∈ adds →
    getPointer buf p field = .ok (if off = 0 then none else some (buf.length - off)) ∧
      (∃ found, fieldOffset buf p field = .ok found ∧ (found = 0 ↔ off = 0)) ∧
      verifyOffsetField buf p field = true

theorem IsTable.hasFields (h : IsTable b u adds o locs) (hfields : Fields top adds)
    (hwhole : Within u whole) : HasFields adds whole (whole.length - o) where
  start := h.start whole hwhole
  element {n field v isDefault} hmem := by
    have hfield := hfields.field _ hmem
    have hlookup := h.lookup whole hwhole.suffix hwhole.bounded field ⟨hfield.1, hfield.2.1⟩
    cases isDefault with
    | true =>
      rw [show vtableEntry o locs field = 0 from h.entry_of_skipped hfields hmem rfl] at hlookup
      exact ⟨bind_eq_ok.mpr ⟨0, hlookup, rfl⟩,
        check_iff.mpr (bind_eq_ok.mpr ⟨0, hlookup, rfl⟩)⟩
    | false =>
      obtain ⟨l, htracked, hoff, hentry⟩ := h.entry_of_added hfields hmem rfl
      rw [show vtableEntry o locs field = o - l.off from hentry] at hlookup
      obtain ⟨hscalar, hverify⟩ := htracked.placed.holds whole hwhole
      have hplace : (whole.length - o : Int) + (o - l.off : Nat) = whole.length - l.off := by omega
      constructor
      · refine bind_eq_ok.mpr ⟨_, hlookup, ?_⟩
        rw [if_pos (by omega), hplace]
        exact hscalar
      · refine check_iff.mpr (bind_eq_ok.mpr ⟨_, hlookup, congrArg Except.ok ?_⟩)
        rw [hplace, hverify, Bool.or_true]
  offset {field off} hmem := by
    have hfield := hfields.field _ hmem
    have hlookup := h.lookup whole hwhole.suffix hwhole.bounded field ⟨hfield.1, hfield.2.1⟩
    by_cases hzero : off = 0
    · rw [show vtableEntry o locs field = 0 from
        h.entry_of_skipped hfields hmem (decide_eq_true hzero)] at hlookup
      rw [if_pos hzero]
      exact ⟨bind_eq_ok.mpr ⟨0, hlookup, rfl⟩, ⟨0, hlookup, iff_of_true rfl hzero⟩,
        check_iff.mpr (bind_eq_ok.mpr ⟨0, hlookup, rfl⟩)⟩
    · obtain ⟨l, htracked, hoff, hentry⟩ := h.entry_of_added hfields hmem (decide_eq_false hzero)
      rw [show vtableEntry o locs field = o - l.off from hentry] at hlookup
      obtain ⟨r, hscalar, hsum, hverify⟩ := htracked.placed.holds whole hwhole
      have hplace : (whole.length - o : Int) + (o - l.off : Nat) = whole.length - l.off := by omega
      refine ⟨?_, ⟨_, hlookup, iff_of_false (by omega) hzero⟩, ?_⟩
      · refine bind_eq_ok.mpr ⟨_, hlookup, ?_⟩
        rw [if_pos (by omega), hplace, if_neg hzero]
        exact bind_eq_ok.mpr ⟨_, hscalar, by rw [hsum]; rfl⟩
      · refine check_iff.mpr (bind_eq_ok.mpr ⟨_, hlookup, congrArg Except.ok ?_⟩)
        rw [hplace, hverify, Bool.or_true]

/-- A pointer that was added is there for `VerifyOffsetRequired`. -/
theorem HasFields.required {buf : Buffer} {p : Int} {field off : Nat} (h : HasFields adds buf p)
    (hmem : .offset field off ∈ adds) (hoff : off ≠ 0) :
    verifyOffsetRequired buf p field = true := by
  obtain ⟨-, ⟨found, hfound, hzero⟩, hverify⟩ := h.offset hmem
  have hthere : found ≠ 0 := mt hzero.mp hoff
  obtain ⟨off', hoff', hverify⟩ := bind_eq_ok.mp (check_iff.mp hverify)
  obtain rfl : found = off' := Except.ok.inj (hfound.symm.trans hoff')
  refine check_iff.mpr (bind_eq_ok.mpr ⟨found, hfound, congrArg Except.ok ?_⟩)
  have haccepted := Except.ok.inj hverify
  rw [decide_eq_false hthere, Bool.false_or] at haccepted
  rw [haccepted, Bool.and_true]
  exact decide_eq_true hthere

/-- A pointer of a table is what was pointed to, or null. -/
theorem HasFields.pointed {α : Type} {buf : Buffer} {p : Int} {field off : Nat}
    {read : Buffer → Int → Read α} {verify : Buffer → Int → Bool} {x : Option α}
    (h : HasFields adds buf p) (hmem : .offset field off ∈ adds)
    (hx : Pointed b off read verify x) (hwhole : Within b buf) :
    verifyOffsetField buf p field = true ∧ verifyPointer buf (verify buf) p field = true ∧
      ((x = none ∧ getPointer buf p field = .ok none) ∨ ∃ q a, x = some a ∧
        getPointer buf p field = .ok (some q) ∧ read buf q = .ok a) := by
  obtain ⟨hpointer, -, hverify⟩ := h.offset hmem
  rcases hx with ⟨rfl, rfl⟩ | ⟨a, rfl, hplaced⟩
  · rw [if_pos rfl] at hpointer
    exact ⟨hverify, check_iff.mpr (bind_eq_ok.mpr ⟨_, hpointer, rfl⟩), .inl ⟨rfl, hpointer⟩⟩
  · rw [if_neg (Nat.ne_of_gt hplaced.pos)] at hpointer
    obtain ⟨hread, haccepted⟩ := hplaced.holds buf hwhole
    exact ⟨hverify, check_iff.mpr (bind_eq_ok.mpr ⟨_, hpointer, congrArg Except.ok haccepted⟩),
      .inr ⟨_, a, rfl, hpointer, hread⟩⟩

end Found

theorem ends_createTable (h : Idle b) (hfits : ∀ a ∈ adds, a.Fits b) (hfields : Fields top adds) :
    Ends (createTable adds) b fun o u => Advances b u (15 * adds.length + top + 11) ∧
      8 ≤ u.size ∧ Placed u o (HasFields adds) ∧ ∃ locs, IsTable b u adds o locs := by
  refine ends_bind.mpr (ends_bind.mpr (ends_notNested h (ends_bind.mpr (ends_modify.mpr
    (ends_bind.mpr (ends_get.mpr (ends_pure.mpr (ends_bind.mpr ?_))))))))
  refine (ends_forM (Open b top) (fun done a rest s hsplit hinv => ?_) (.start h)).imp
    fun _ s hs => ?_
  · have hmem : a ∈ adds := by
      rw [hsplit]
      simp
    have hbounds := hfields.field a hmem
    exact hinv.ends_add (hfits a hmem) ⟨hbounds.1, hbounds.2.2⟩
  · refine (ends_endTable hs hfields).imp fun o u ⟨hidle, hgrows, hsize, htable⟩ => ?_
    have hbound := hs.size
    exact ⟨⟨hidle, hs.grows.trans hgrows, by omega⟩, hsize.1,
      ⟨htable.pos, htable.le, fun whole hwhole => htable.hasFields hfields hwhole⟩, _, htable⟩

/-- A field that was added is there, in a buffer that is not too long. -/
theorem ends_required {o : Nat} {locs : List FieldLoc} (h : IsTable b u adds o locs)
    (hfields : Fields top adds) {field off : Nat} (hmem : .offset field off ∈ adds)
    (hoff : off ≠ 0) (hsize : u.size ≤ maxSize) {Q : Unit → Builder → Prop} (hQ : Q () u) :
    Ends (required o field) u Q := by
  have hfield := hfields.field _ hmem
  have hlookup := h.lookup u.buf List.suffix_rfl hsize field ⟨hfield.1, hfield.2.1⟩
  obtain ⟨l, -, hbefore, hentry⟩ := h.entry_of_added hfields hmem (decide_eq_false hoff)
  rw [show vtableEntry o locs field = o - l.off from hentry] at hlookup
  refine ends_bind.mpr (ends_get.mpr (ends_assert.mpr ⟨?_, hQ⟩))
  rw [show fieldOffset u.buf ((u.size : Int) - o) field = _ from hlookup]
  show o - l.off ≠ 0
  omega

end Tables

/-! ## Finished buffers -/

section Finish
variable {α : Type} {b : Builder} {root : Nat} {read : Buffer → Int → Read α}
  {verify : Buffer → Int → Bool} {a : α}

/-- The buffer of a builder whose last push, the root's offset, is aligned as a whole. -/
theorem verifyBuffer_of_within {whole rest : List UInt8} (hwhole : Within b whole)
    (hroot : Placed b root (Holds read verify a)) (hsize : 8 ≤ b.size)
    (hbuf : whole = scalarBytes 4 (whole.length - root) ++ rest) :
    ∃ p, getRoot whole = .ok p ∧ read whole p = .ok a ∧
      verifyBuffer whole (verify whole) = true := by
  have hroom := hwhole.room
  have hbounded := hwhole.bounded
  have hpos := hroot.pos
  have hle := hroot.le
  obtain ⟨hread, hverify⟩ := hroot.holds whole hwhole
  unfold maxSize at hbounded
  have hfirst : (whole.drop 0).take 4 = scalarBytes 4 (whole.length - root) := by
    rw [List.drop_zero]
    conv_lhs => rw [hbuf]
    exact List.take_left' (length_scalarBytes 4 _)
  have hscalar := scalar_of_suffix List.suffix_rfl hfirst (by omega) (by omega)
  rw [Int.sub_self, Int.zero_add, Int.natCast_zero] at hscalar
  have hplace : ((whole.length - root : Nat) : Int) = whole.length - root := by omega
  have hgetRoot : getRoot whole = .ok (whole.length - root : Int) := by
    rw [getRoot, hscalar, ← hplace]
    rfl
  refine ⟨_, hgetRoot, hread, ?_⟩
  simp only [verifyBuffer, verifyOffset, verifyScalar, verifyRange, Bool.and_eq_true,
    decide_eq_true_eq]
  refine ⟨⟨by omega, ⟨by omega, by omega⟩, check_iff.mpr (bind_eq_ok.mpr ⟨_, hscalar,
    congrArg Except.ok ?_⟩)⟩, check_iff.mpr (bind_eq_ok.mpr ⟨_, hgetRoot,
      congrArg Except.ok hverify⟩)⟩
  simp only [Bool.and_eq_true, decide_eq_true_eq]
  omega

/-- A finished buffer is accepted, and its root is what was built last. -/
theorem ends_finish (h : Idle b) (hroot : Placed b root (Holds read verify a))
    (hsize : 8 ≤ b.size) (hmax : b.size + 16 ≤ maxSize) :
    Ends (finish root) b fun _ u => ∃ p, getRoot u.buf = .ok p ∧ read u.buf p = .ok a ∧
      verifyBuffer u.buf (verify u.buf) = true := by
  obtain ⟨pos, le, -⟩ := id hroot
  have hdvd := h.minalign
  refine ends_bind.mpr (ends_get.mpr (ends_bind.mpr (ends_assert.mpr ⟨h.finished,
    ends_bind.mpr (ends_notNested h (ends_bind.mpr (ends_modify.mpr (ends_bind.mpr
      (ends_modify.mpr (ends_bind.mpr ?_))))))⟩)))
  generalize hc : ({ b with vtables := [] } : Builder) = c
  have hcsize : c.size = b.size := by
    rw [← hc]
    rfl
  have hcmin : c.minalign = b.minalign := by rw [← hc]
  generalize hpad : paddingBytes (b.size + 4) b.minalign = pad
  have hpadLt : pad < b.minalign := hpad ▸ paddingBytes_lt hdvd _
  have hpadDvd : b.minalign ∣ b.size + 4 + pad := hpad ▸ dvd_add_paddingBytes hdvd _
  have hpre : c.preAlign 4 c.minalign = c.pushed (List.replicate pad 0) b.minalign := by
    rw [Builder.preAlign_eq c (by decide), hcsize, hcmin, hpad, Nat.max_self]
  rw [hpre]
  generalize hd : c.pushed (List.replicate pad 0) b.minalign = d
  have hdsize : d.size = pad + b.size := by
    rw [← hd, Builder.size_pushed, List.length_replicate, hcsize]
  have hdmin : d.minalign = b.minalign := by rw [← hd]; rfl
  generalize hpad4 : paddingBytes d.size 4 = pad4
  have hpad4Lt : pad4 < 4 := hpad4 ▸ paddingBytes_lt (by decide) _
  have hpad4Dvd : 4 ∣ d.size + pad4 := hpad4 ▸ dvd_add_paddingBytes (by decide) _
  refine ends_referTo pos (by omega) ?_
  rw [hpad4]
  generalize he : d.pushed (List.replicate pad4 0) (max d.minalign 4) = e
  have hesize : e.size = pad4 + (pad + b.size) := by
    rw [← he, Builder.size_pushed, List.length_replicate, hdsize]
  refine ends_bind.mpr (ends_pushElement (ends_modify.mpr ?_))
  rw [Builder.pushedElement_of_dvd (by decide) (by omega)]
  have hbuf : e.buf = List.replicate pad4 0 ++ (List.replicate pad 0 ++ b.buf) := by
    rw [← he, ← hd, ← hc]
    rfl
  show ∃ p, getRoot (scalarBytes 4 (pad4 + d.size - root + 4) ++ e.buf) = .ok p ∧
    read (scalarBytes 4 (pad4 + d.size - root + 4) ++ e.buf) p = .ok a ∧
      verifyBuffer (scalarBytes 4 (pad4 + d.size - root + 4) ++ e.buf)
        (verify (scalarBytes 4 (pad4 + d.size - root + 4) ++ e.buf)) = true
  generalize hwhole : scalarBytes 4 (pad4 + d.size - root + 4) ++ e.buf = whole
  have hlength : whole.length = 4 + (pad4 + (pad + b.size)) := by
    rw [← hwhole, List.length_append, length_scalarBytes, ← hesize]
    rfl
  have haligned : b.minalign ∣ whole.length := by
    rw [hlength]
    rcases dvd_eight.mp hdvd with hmin | hmin | hmin | hmin <;> rw [hmin] at hpadDvd ⊢ <;> omega
  have hfront : whole = scalarBytes 4 (whole.length - root) ++ e.buf := by
    rw [hlength, ← hwhole]
    congr 2
    omega
  refine verifyBuffer_of_within ⟨?_, by omega, haligned, ?_⟩ hroot hsize hfront
  · rw [← hwhole, hbuf]
    exact (List.suffix_append _ _).trans ((List.suffix_append _ _).trans (List.suffix_append _ _))
  · have hle8 := Nat.le_of_dvd (by decide) hdvd
    omega

/-- What is built, from an empty builder and with no more bytes than a buffer can have, is a
buffer that is accepted and holds it. -/
theorem built_holds {m : Build Nat} {k : Nat}
    (h : Ends m {} fun o b => Advances {} b k ∧ 8 ≤ b.size ∧ Placed b o (Holds read verify a))
    (hk : k + 16 ≤ maxSize) :
    ∃ buf, built m = some buf ∧ verifyBuffer buf (verify buf) = true ∧
      ∃ p, getRoot buf = .ok p ∧ read buf p = .ok a := by
  have hall : Ends (m >>= finish) {} fun _ u => ∃ p, getRoot u.buf = .ok p ∧
      read u.buf p = .ok a ∧ verifyBuffer u.buf (verify u.buf) = true := by
    refine ends_bind.mpr (h.imp fun o b ⟨hadvances, hsize, hplaced⟩ => ?_)
    have hbound : b.size ≤ 0 + k := hadvances.size
    exact ends_finish hadvances.idle hplaced hsize (by omega)
  obtain ⟨_, u, hrun, p, hroot, hread, hverify⟩ := hall
  refine ⟨u.buf, ?_, hverify, p, hroot, hread⟩
  rw [built, hrun]
  rfl

end Finish
end YikvServer.Theory.FlatBuffers
