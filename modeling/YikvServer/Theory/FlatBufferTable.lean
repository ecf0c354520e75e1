import YikvServer.Theory.FlatBufferLayout
import Mathlib.Data.List.Nodup

/-!
# The end of a table

What is added to a table is kept until its end. There its fields go into a vtable, one of its own
or a shared one of the same layout, and are found through it.
-/
namespace YikvServer.Theory.FlatBuffers

/-! ## Fields -/

namespace Add

def field : Add → Nat
  | element _ field _ _ => field
  | offset field _ => field

/-- Left out: a default, or a null offset. -/
def skipped : Add → Bool
  | element _ _ _ isDefault => isDefault
  | offset _ off => off = 0

/-- What a builder can add: a number in its bytes, or the offset of something built. -/
def Fits (b : Builder) : Add → Prop
  | element n _ v _ => n ∣ 8 ∧ v < 256 ^ n
  | offset _ off => off ≤ b.size

/-- What is at the place of a field. -/
def Written (buf : Buffer) (p : Int) : Add → Prop
  | element n _ v _ => scalar buf p n = .ok v ∧ verifyScalar buf n p = true
  | offset _ off => ∃ r : Nat, scalar buf p 4 = .ok r ∧ p + r = buf.length - off ∧
      verifyOffset buf p = true

end Add

section Fields
variable {b s : Builder} {n v top : Nat}

theorem pushedElement_spec (h : Sound b) (hn : n ∣ 8) :
    Sound (b.pushedElement n v) ∧ Grows b (b.pushedElement n v) ∧
      (b.pushedElement n v).size = n + paddingBytes b.size n + b.size ∧
      n ∣ (b.pushedElement n v).size ∧ n ∣ (b.pushedElement n v).minalign := by
  have hsize : (b.pushedElement n v).size = n + paddingBytes b.size n + b.size := by
    rw [Builder.pushedElement, Builder.size_pushed, List.length_append, length_scalarBytes,
      List.length_replicate]
  refine ⟨h.pushed _ (max_dvd h.minalign hn), .pushed _ (dvd_max_left h.minalign hn), hsize, ?_,
    dvd_max_right h.minalign hn⟩
  have hpad : n ∣ b.size + paddingBytes b.size n := dvd_add_paddingBytes hn _
  rw [hsize, Nat.add_assoc, Nat.add_comm (paddingBytes b.size n)]
  exact Nat.dvd_add dvd_rfl hpad

/-- A scalar is where the buffer ends once it is pushed. -/
theorem placed_pushedElement (h : Sound b) (hn : n ∣ 8) (hv : v < 256 ^ n) :
    Placed (b.pushedElement n v) (b.pushedElement n v).size fun buf p =>
      scalar buf p n = .ok v ∧ verifyScalar buf n p = true := by
  obtain ⟨-, -, hsize, hdvd, hmin⟩ := pushedElement_spec (v := v) h hn
  have hpos : 0 < n := Nat.pos_of_dvd_of_pos hn (by decide)
  refine ⟨by omega, le_rfl, fun whole hwhole => ?_⟩
  have hroom := hwhole.room
  have hlength : (b.pushedElement n v).buf.length = (b.pushedElement n v).size := rfl
  have htake : ((b.pushedElement n v).buf.drop 0).take n = scalarBytes n v := by
    rw [List.drop_zero, Builder.pushedElement, Builder.pushed, List.append_assoc,
      List.take_left' (length_scalarBytes n v)]
  have hscalar := scalar_of_suffix hwhole.suffix htake hv (by omega)
  have hverify := verifyScalar_of_suffix (k := 0) (n := n) hwhole.suffix (by omega) (by omega)
    (hmin.trans hwhole.aligned) hdvd
  rw [Int.natCast_zero, Int.add_zero] at hscalar hverify
  exact ⟨hscalar, hverify⟩

/-- An offset is where the buffer ends once it is pushed, and leads to what it refers to. -/
theorem placed_pushedOffset (h : Sound b) (h4 : 4 ∣ b.size) {field off : Nat} (hpos : 0 < off)
    (hle : off ≤ b.size) :
    Placed (b.pushedElement 4 (b.size - off + 4)) (b.pushedElement 4 (b.size - off + 4)).size
      fun buf p => (Add.offset field off).Written buf p := by
  obtain ⟨-, hgrows, hsize, -, -⟩ := pushedElement_spec (v := b.size - off + 4) h
    (show 4 ∣ 8 by decide)
  rw [paddingBytes_eq_zero (by decide) h4] at hsize
  refine ⟨by omega, le_rfl, fun whole hwhole => ?_⟩
  have hroom := hwhole.room
  have hbounded := hwhole.bounded
  unfold maxSize at hbounded
  have hv : b.size - off + 4 < 256 ^ 4 := by omega
  obtain ⟨hscalar, hverify⟩ := (placed_pushedElement h (by decide) hv).holds whole hwhole
  have hplace : (whole.length - (b.pushedElement 4 (b.size - off + 4)).size : Int) +
      (b.size - off + 4 : Nat) = whole.length - off := by omega
  refine ⟨_, hscalar, hplace, ?_⟩
  simp only [verifyOffset, Bool.and_eq_true]
  refine ⟨hverify, check_iff.mpr (bind_eq_ok.mpr ⟨_, hscalar, congrArg Except.ok ?_⟩)⟩
  rw [hplace]
  simp only [verifyRange, Bool.and_eq_true, decide_eq_true_eq]
  omega

/-- A field of a table that was begun at one builder, where another has it. -/
structure Tracked (b s : Builder) (a : Add) (loc : FieldLoc) : Prop where
  id : loc.id = a.field
  off : b.size < loc.off
  placed : Placed s loc.off fun buf p => a.Written buf p

theorem Tracked.of_grows {t : Builder} {a : Add} {loc : FieldLoc} (h : Tracked b s a loc)
    (hgrows : Grows s t) : Tracked b t a loc := ⟨h.id, h.off, h.placed.of_grows hgrows⟩

/-- A table being built: what has been added is in it, but for what is left out. -/
structure Open (b : Builder) (top : Nat) (done : List Add) (s : Builder) : Prop
    extends Sound s where
  grows : Grows b s
  nested : s.nested = true
  finished : s.finished = false
  size : s.size ≤ b.size + 15 * done.length
  fields : List.Forall₂ (Tracked b s) (done.filter (!·.skipped)) s.fieldLocs
  ids : ∀ loc ∈ s.fieldLocs, loc.id ≤ s.maxVoffset
  maxVoffset : 2 ∣ s.maxVoffset ∧ s.maxVoffset ≤ top

/-- One field more, at the front of what has grown. -/
theorem Open.track {t : Builder} {done : List Add} {a : Add} (h : Open b top done s)
    (ht : Sound t) (hgrows : Grows s t)
    (hflags : t.nested = s.nested ∧ t.finished = s.finished ∧ t.fieldLocs = s.fieldLocs ∧
      t.maxVoffset = s.maxVoffset)
    (hsize : s.size < t.size ∧ t.size ≤ s.size + 15)
    (hplaced : Placed t t.size fun buf p => a.Written buf p) (hskip : a.skipped = false)
    (hfield : 2 ∣ a.field ∧ a.field ≤ top) :
    Ends (trackField a.field t.size) t fun _ u => Open b top (done ++ [a]) u := by
  obtain ⟨hnested, hfinished, hlocs, hmax⟩ := hflags
  refine ends_modify.mpr ?_
  generalize hu : ({ t with fieldLocs := _, maxVoffset := _ } : Builder) = u
  have htu : Grows t u := by
    rw [← hu]
    exact ⟨List.suffix_rfl, dvd_rfl⟩
  have hulocs : u.fieldLocs = s.fieldLocs ++ [⟨t.size, a.field⟩] := by rw [← hu, ← hlocs]
  have humax : u.maxVoffset = max s.maxVoffset a.field := by
    rw [← hu, ← hmax]
    show (if a.field > t.maxVoffset then a.field else t.maxVoffset) = _
    split <;> omega
  have husize : u.size = t.size := by
    rw [← hu]
    rfl
  have hbefore := h.size
  have hstart := h.grows.size_le
  have hnew : Tracked b u a ⟨t.size, a.field⟩ :=
    ⟨rfl, lt_of_le_of_lt hstart hsize.1, hplaced.of_grows htu⟩
  refine ⟨?_, (h.grows.trans hgrows).trans htu, ?_, ?_, ?_, ?_, ?_, ?_⟩
  · rw [← hu]
    exact ⟨ht.minalign, ht.vtables⟩
  · rw [← hu]
    exact hnested.trans h.nested
  · rw [← hu]
    exact hfinished.trans h.finished
  · rw [List.length_append, List.length_singleton]
    omega
  · rw [hulocs, List.filter_append, List.filter_cons_of_pos (by rw [hskip]; rfl), List.filter_nil]
    exact List.rel_append (h.fields.imp fun _ _ hold => hold.of_grows (hgrows.trans htu))
      (.cons hnew .nil)
  · rw [hulocs, humax]
    intro loc hloc
    rcases List.mem_append.mp hloc with hold | hlast
    · exact (h.ids loc hold).trans (Nat.le_max_left _ _)
    · rw [List.mem_singleton.mp hlast]
      exact Nat.le_max_right _ _
  · rw [humax]
    have hmaxVoffset := h.maxVoffset
    rcases Nat.le_total s.maxVoffset a.field with hle | hle
    · rwa [Nat.max_eq_right hle]
    · rwa [Nat.max_eq_left hle]

theorem Open.skip {done : List Add} {a : Add} (h : Open b top done s) (hskip : a.skipped = true) :
    Open b top (done ++ [a]) s where
  toSound := h.toSound
  grows := h.grows
  nested := h.nested
  finished := h.finished
  size := by
    have hsize := h.size
    rw [List.length_append, List.length_singleton]
    omega
  fields := by
    rw [List.filter_append, List.filter_cons_of_neg (by rw [hskip]; simp), List.filter_nil,
      List.append_nil]
    exact h.fields
  ids := h.ids
  maxVoffset := h.maxVoffset

theorem Open.ends_add {done : List Add} {a : Add} (h : Open b top done s) (hfits : a.Fits b)
    (hfield : 2 ∣ a.field ∧ a.field ≤ top) :
    Ends (FlatBuffers.add a) s fun _ u => Open b top (done ++ [a]) u := by
  cases a with
  | element n field v isDefault =>
    obtain ⟨hn, hv⟩ := hfits
    show Ends (addElement n field v isDefault) s _
    unfold addElement
    cases isDefault with
    | true => exact ends_pure.mpr (h.skip rfl)
    | false =>
      obtain ⟨hsound, hgrows, hsize, -, -⟩ := pushedElement_spec (v := v) h.toSound hn
      have hpad : paddingBytes s.size n < n := paddingBytes_lt hn _
      have hle := Nat.le_of_dvd (by decide) hn
      refine ends_bind.mpr (ends_pushElement ?_)
      exact h.track (a := .element n field v false) hsound hgrows ⟨rfl, rfl, rfl, rfl⟩
        (by omega) (placed_pushedElement h.toSound hn hv) rfl hfield
  | offset field off =>
    show Ends (addOffset field off) s _
    unfold addOffset
    by_cases hzero : off = 0
    · rw [if_pos hzero]
      exact ends_pure.mpr (h.skip (decide_eq_true hzero))
    · rw [if_neg hzero]
      have hle : off ≤ s.size := le_trans hfits h.grows.size_le
      refine ends_bind.mpr (ends_referTo (Nat.pos_of_ne_zero hzero) hle ?_)
      have hpad : paddingBytes s.size 4 < 4 := paddingBytes_lt (by decide) _
      have haligned : 4 ∣ s.size + paddingBytes s.size 4 := dvd_add_paddingBytes (by decide) _
      generalize hc : s.pushed _ (max s.minalign 4) = c
      have hsound : Sound c := by
        rw [← hc]
        exact h.toSound.pushed _ (max_dvd h.minalign (by decide))
      have hgrows : Grows s c := by
        rw [← hc]
        exact .pushed _ (dvd_max_left h.minalign (by decide))
      have hcsize : c.size = paddingBytes s.size 4 + s.size := by
        rw [← hc, Builder.size_pushed, List.length_replicate]
      have hflags : c.nested = s.nested ∧ c.finished = s.finished ∧
          c.fieldLocs = s.fieldLocs ∧ c.maxVoffset = s.maxVoffset := by
        rw [← hc]
        exact ⟨rfl, rfl, rfl, rfl⟩
      have h4 : 4 ∣ c.size := by omega
      rw [← hcsize]
      obtain ⟨hsound', hgrows', hsize, -, -⟩ := pushedElement_spec (v := c.size - off + 4) hsound
        (show 4 ∣ 8 by decide)
      rw [paddingBytes_eq_zero (by decide) h4] at hsize
      unfold addElement
      rw [if_neg (by simp)]
      refine ends_bind.mpr (ends_pushElement ?_)
      exact h.track (a := .offset field off) hsound' (hgrows.trans hgrows') hflags (by omega)
        (placed_pushedOffset hsound h4 (Nat.pos_of_ne_zero hzero) (by omega))
        (decide_eq_false hzero) hfield

end Fields

/-! ## The vtable -/

section Writes
variable {buf rest bs : List UInt8} {pos v : Nat}

theorem length_writeAt (h : pos + bs.length ≤ buf.length) :
    (writeAt buf pos bs).length = buf.length := by
  unfold writeAt
  rw [List.length_append, List.length_append, List.length_take, List.length_drop]
  omega

/-- A write into the front leaves the rest. -/
theorem writeAt_append (h : pos + bs.length ≤ buf.length) :
    writeAt (buf ++ rest) pos bs = writeAt buf pos bs ++ rest := by
  unfold writeAt
  rw [List.take_append_of_le_length (by omega), List.drop_append_of_le_length h]
  simp only [List.append_assoc]

theorem voffsetAt_append {q : Nat} (h : q + 2 ≤ buf.length) :
    voffsetAt (buf ++ rest) q = voffsetAt buf q := by
  unfold voffsetAt
  rw [List.drop_append_of_le_length (by omega), List.take_append_of_le_length]
  rw [List.length_drop]
  omega

theorem voffsetAt_writeAt (h : pos + 2 ≤ buf.length) (hv : v < 65536) :
    voffsetAt (writeAt buf pos (scalarBytes 2 v)) pos = v := by
  have htake : (buf.take pos).length = pos := List.length_take_of_le (by omega)
  have hread : ((writeAt buf pos (scalarBytes 2 v)).drop pos).take 2 = scalarBytes 2 v := by
    unfold writeAt
    rw [List.append_assoc, List.drop_left' htake, List.take_left' (length_scalarBytes 2 v)]
  rw [voffsetAt, hread, littleEndian_scalarBytes]
  exact Nat.mod_eq_of_lt hv

/-- A write elsewhere. -/
theorem voffsetAt_writeAt_of_disjoint {q : Nat} (h : pos + 2 ≤ buf.length)
    (hq : q + 2 ≤ pos ∨ pos + 2 ≤ q) :
    voffsetAt (writeAt buf pos (scalarBytes 2 v)) q = voffsetAt buf q := by
  have htake : (buf.take pos).length = pos := List.length_take_of_le (by omega)
  unfold voffsetAt writeAt
  rw [length_scalarBytes]
  rcases hq with hbefore | hafter
  · rw [List.append_assoc, List.drop_append_of_le_length (by omega),
      List.take_append_of_le_length (by rw [List.length_drop]; omega), List.drop_take,
      List.take_take, Nat.min_eq_left (by omega)]
  · have hfront : (buf.take pos ++ scalarBytes 2 v).length = pos + 2 := by
      rw [List.length_append, htake, length_scalarBytes]
    obtain ⟨k, rfl⟩ := Nat.exists_eq_add_of_le hafter
    rw [← List.drop_drop, List.drop_left' hfront, List.drop_drop]

end Writes

/-- Where a vtable sends a field: to its place after the start of the table, if it is there. -/
def vtableEntry (vtableOffsetLoc : Nat) (locs : List FieldLoc) (field : Nat) : Nat :=
  ((locs.find? fun loc => loc.id = field).map fun loc => vtableOffsetLoc - loc.off).getD 0

/-- The bytes of a vtable: its size, that of the table, and the fields. -/
structure IsVtable (vt : List UInt8) (size tableSize loc : Nat) (locs : List FieldLoc) : Prop where
  length : vt.length = size
  first : voffsetAt vt 0 = size
  second : voffsetAt vt 2 = tableSize
  fields : ∀ field, 2 ∣ field → 4 ≤ field → field + 2 ≤ size →
    voffsetAt vt field = vtableEntry loc locs field

/-- Before its fields are written, a vtable has none. -/
theorem isVtable_nil {size tableSize loc : Nat} (h4 : 4 ≤ size) (hsize : size < 65536)
    (htable : tableSize < 65536) :
    IsVtable (writeAt (writeAt (List.replicate size 0) 2 (scalarBytes 2 tableSize)) 0
      (scalarBytes 2 size)) size tableSize loc [] := by
  have hlength : (List.replicate size (0 : UInt8)).length = size := List.length_replicate
  have hfirst : (writeAt (List.replicate size (0 : UInt8)) 2 (scalarBytes 2 tableSize)).length =
      size := by
    rw [length_writeAt (by rw [length_scalarBytes]; omega), hlength]
  refine ⟨?_, ?_, ?_, fun field _ hfield hin => ?_⟩
  · rw [length_writeAt (by rw [length_scalarBytes]; omega), hfirst]
  · exact voffsetAt_writeAt (by omega) hsize
  · rw [voffsetAt_writeAt_of_disjoint (by omega) (.inr (by omega)),
      voffsetAt_writeAt (by omega) htable]
  · rw [voffsetAt_writeAt_of_disjoint (by omega) (.inr (by omega)),
      voffsetAt_writeAt_of_disjoint (by omega) (.inr (by omega)), voffsetAt, List.drop_replicate,
      List.take_replicate, Nat.min_eq_left (by omega)]
    rfl

/-- A field whose entry is free is written. -/
theorem IsVtable.write {vt : List UInt8} {size tableSize loc : Nat} {locs : List FieldLoc}
    {l : FieldLoc} (h : IsVtable vt size tableSize loc locs)
    (hid : 2 ∣ l.id ∧ 4 ≤ l.id ∧ l.id + 2 ≤ size) (hnew : ∀ l' ∈ locs, l'.id ≠ l.id)
    (hpos : loc - l.off < 65536) :
    IsVtable (writeAt vt l.id (scalarBytes 2 (loc - l.off))) size tableSize loc (locs ++ [l]) := by
  have hlength := h.length
  have hnone : locs.find? (fun l' => l'.id = l.id) = none :=
    List.find?_eq_none.mpr fun l' hl' => by simpa using hnew l' hl'
  refine ⟨?_, ?_, ?_, fun field hdvd hfield hin => ?_⟩
  · rw [length_writeAt (by rw [length_scalarBytes]; omega), hlength]
  · rw [voffsetAt_writeAt_of_disjoint (by omega) (.inl (by omega)), h.first]
  · rw [voffsetAt_writeAt_of_disjoint (by omega) (.inl (by omega)), h.second]
  · rw [vtableEntry, List.find?_append]
    by_cases heq : l.id = field
    · rw [← heq, voffsetAt_writeAt (by omega) hpos, hnone, List.find?_cons_of_pos (by simp)]
      rfl
    · rw [voffsetAt_writeAt_of_disjoint (by omega) (by omega), h.fields field hdvd hfield hin,
        List.find?_cons_of_neg (by simpa using heq), List.find?_nil, Option.or_none, vtableEntry]

/-- The loop of `EndTable` writes the fields, no entry twice. -/
theorem ends_writeFieldLocs {b : Builder} {vt rest : List UInt8} {size tableSize loc : Nat}
    {locs : List FieldLoc} (hb : b.buf = vt ++ rest) (h : IsVtable vt size tableSize loc [])
    (hids : ∀ l ∈ locs, (2 ∣ l.id ∧ 4 ≤ l.id ∧ l.id + 2 ≤ size) ∧ loc - l.off < 65536)
    (hnodup : (locs.map (·.id)).Nodup) :
    Ends (locs.forM (writeFieldLoc loc)) b fun _ b' => ∃ vt',
      IsVtable vt' size tableSize loc locs ∧ b' = { b with buf := vt' ++ rest } := by
  refine ends_forM (fun before s => ∃ vt', IsVtable vt' size tableSize loc before ∧
    s = { b with buf := vt' ++ rest }) (fun before l after s hsplit hinv => ?_)
    ⟨vt, h, by rw [← hb]⟩
  obtain ⟨vt', hvt', rfl⟩ := hinv
  obtain ⟨hid, hpos⟩ := hids l (by rw [hsplit]; simp)
  have hnew : ∀ l' ∈ before, l'.id ≠ l.id := by
    rw [hsplit, List.map_append, List.nodup_append, List.map_cons] at hnodup
    exact fun l' hl' => hnodup.2.2 l'.id (List.mem_map_of_mem hl') l.id List.mem_cons_self
  have hlength := hvt'.length
  have hfree : voffsetAt (vt' ++ rest) l.id = 0 := by
    have hnone : before.find? (fun l' => l'.id = l.id) = none :=
      List.find?_eq_none.mpr fun l' hl' => by simpa using hnew l' hl'
    rw [voffsetAt_append (by omega), hvt'.fields l.id hid.1 hid.2.1 hid.2.2, vtableEntry, hnone]
    rfl
  refine ends_bind.mpr (ends_get.mpr (ends_bind.mpr (ends_assert.mpr ⟨hfree,
    ends_modify.mpr ⟨_, hvt'.write hid hnew hpos, ?_⟩⟩)))
  show ({ b with buf := writeAt (vt' ++ rest) l.id _ } : Builder) = _
  rw [writeAt_append (by rw [length_scalarBytes]; omega)]

/-! ## The end of a table -/

section EndTable
variable {b s u : Builder}

theorem length_dataAt {o : Nat} (h : o ≤ b.size) : (b.dataAt o).length = o := by
  rw [Builder.dataAt, List.length_drop]
  exact Nat.sub_sub_self h

theorem dataAt_suffix (b : Builder) (o : Nat) : b.dataAt o <:+ b.buf := List.drop_suffix _ _

/-- What is at an offset stays there as the buffer grows. -/
theorem dataAt_of_suffix {o : Nat} (h : b.buf <:+ u.buf) (ho : o ≤ b.size) :
    u.dataAt o = b.dataAt o := by
  obtain ⟨front, hfront⟩ := h
  have hsize : u.size = front.length + b.size := by
    rw [Builder.size, ← hfront, List.length_append]
    rfl
  have hsub : u.size - o = front.length + (b.size - o) := by omega
  rw [Builder.dataAt, hsub, ← hfront, ← List.drop_drop, List.drop_left]
  rfl

/-- Where a table is, with the vtable that it leads to. -/
structure TableAt (u : Builder) (vt : List UInt8) (loc vtUse : Nat) : Prop where
  even : 2 ∣ vtUse
  le : vtUse ≤ u.size
  vtable : vt <+: u.dataAt vtUse
  table : soffsetBytes (vtUse - loc) <+: u.dataAt loc
  loc : loc ≤ u.size

@[simp] theorem length_soffsetBytes (i : Int) : (soffsetBytes i).length = 4 :=
  length_scalarBytes 4 _

/-- A table's vtable offset is where the table is, whatever is in front of it. -/
theorem tableAt_of_buf {front vt rest : List UInt8} {vtUse : Nat}
    (hu : u.buf = front ++ (soffsetBytes (vtUse - (rest.length + 4 : Nat)) ++ rest))
    (heven : 2 ∣ vtUse) (hle : vtUse ≤ u.size) (hvt : vt <+: u.dataAt vtUse) :
    TableAt u vt (rest.length + 4) vtUse := by
  have hsize : u.size = front.length + (rest.length + 4) := by
    rw [Builder.size, hu, List.length_append, List.length_append, length_soffsetBytes]
    omega
  have hsub : u.size - (rest.length + 4) = front.length := by omega
  refine ⟨heven, hle, hvt, ?_, by omega⟩
  rw [Builder.dataAt, hsub, hu, List.drop_left]
  exact List.prefix_append _ _

/-- The end of `EndTable`: the table leads to a vtable of its layout, its own or an earlier one. -/
theorem ends_useVtable {vt rest : List UInt8} {size tableSize : Nat} {locs : List FieldLoc}
    (hbuf : b.buf = vt ++ (scalarBytes 4 0 ++ rest)) (hb : Sound s) (hs : s.buf <:+ rest)
    (hvtables : b.vtables = s.vtables) (hmin : b.minalign ∣ 8)
    (h : IsVtable vt size tableSize (rest.length + 4) locs) (heven : 2 ∣ size)
    (h4 : 4 ∣ rest.length) (hfour : 4 ≤ size) :
    Ends (useVtable (rest.length + 4)) b fun _ u => Sound u ∧ s.buf <:+ u.buf ∧
      (8 ≤ u.size ∧ u.size ≤ rest.length + 4 + size) ∧
      (u.nested = b.nested ∧ u.finished = b.finished ∧ u.fieldLocs = b.fieldLocs ∧
        u.maxVoffset = b.maxVoffset ∧ u.minalign = b.minalign) ∧
      ∃ vtUse, TableAt u vt (rest.length + 4) vtUse := by
  have hlength := h.length
  have hbsize : b.size = size + (rest.length + 4) := by
    rw [Builder.size, hbuf, List.length_append, List.length_append, length_scalarBytes, hlength]
    omega
  have hsuffix : s.buf <:+ b.buf := by
    rw [hbuf]
    exact hs.trans ((List.suffix_append _ _).trans (List.suffix_append _ _))
  have hfirst : voffsetAt b.buf 0 = size := by
    rw [hbuf, voffsetAt_append (by omega), h.first]
  have htake : b.buf.take size = vt := by rw [hbuf, List.take_left' hlength]
  have hrest := hs.length_le
  refine ends_bind.mpr (ends_get.mpr ?_)
  cases hsame : sameVtable b with
  | none =>
    -- The vtable is new, and stays in front of the table.
    have hwrite : writeAt b.buf (b.size - (rest.length + 4))
        (soffsetBytes (b.size - (rest.length + 4 : Nat))) =
          vt ++ (soffsetBytes (b.size - (rest.length + 4 : Nat)) ++ rest) := by
      have hpos : b.size - (rest.length + 4) = vt.length := by omega
      rw [writeAt, hpos, hbuf, List.take_left, length_soffsetBytes, ← List.drop_drop,
        List.drop_left, List.drop_left' (length_scalarBytes 4 0), List.append_assoc]
    dsimp only [Option.getD_none, Option.isSome_none]
    rw [if_neg Bool.false_ne_true]
    refine ends_bind.mpr (ends_get.mpr ?_)
    rw [if_pos rfl]
    refine ends_bind.mpr (ends_modify.mpr (ends_modify.mpr ?_))
    generalize hu : Builder.mk _ _ _ _ _ _ _ = u
    have hubuf : u.buf = vt ++ (soffsetBytes (b.size - (rest.length + 4 : Nat)) ++ rest) := by
      rw [← hwrite, ← hu]
      rfl
    have husize : u.size = b.size := by
      rw [Builder.size, hubuf, List.length_append, List.length_append, length_soffsetBytes,
        hlength]
      omega
    have huvtables : u.vtables = s.vtables ++ [b.size] := by rw [← hvtables, ← hu]
    have hflags : u.nested = b.nested ∧ u.finished = b.finished ∧ u.fieldLocs = b.fieldLocs ∧
        u.maxVoffset = b.maxVoffset ∧ u.minalign = b.minalign := by
      rw [← hu]
      exact ⟨rfl, rfl, rfl, rfl, rfl⟩
    have hbeven : 2 ∣ b.size := by omega
    refine ⟨⟨hflags.2.2.2.2 ▸ hmin, ?_⟩, ?_, ⟨by omega, by omega⟩, hflags, b.size, ?_⟩
    · rw [huvtables, husize]
      intro o ho
      rcases List.mem_append.mp ho with hold | hnew
      · have hbound := hb.vtables o hold
        exact ⟨hbound.1, hbound.2.trans (hsuffix.length_le)⟩
      · rw [List.mem_singleton.mp hnew]
        exact ⟨hbeven, le_rfl⟩
    · rw [hubuf]
      exact hs.trans ((List.suffix_append _ _).trans (List.suffix_append _ _))
    · refine tableAt_of_buf hubuf hbeven husize.ge ?_
      rw [Builder.dataAt, husize, Nat.sub_self, List.drop_zero, hubuf]
      exact List.prefix_append _ _
  | some o =>
    -- There is one of this layout, and the table is in front again.
    obtain ⟨hlayout, hmem⟩ : (voffsetAt (b.dataAt o) 0 = size ∧ (b.dataAt o).take size = vt) ∧
        o ∈ s.vtables := by
      have hfound := List.find?_some hsame
      rw [hfirst, htake] at hfound
      exact ⟨of_decide_eq_true hfound, hvtables ▸ List.mem_of_find?_eq_some hsame⟩
    obtain ⟨hoeven, hole⟩ := hb.vtables o hmem
    have hpop : b.buf.drop (b.size - (rest.length + 4)) = scalarBytes 4 0 ++ rest := by
      have hpos : b.size - (rest.length + 4) = vt.length := by omega
      rw [hpos, hbuf, List.drop_left]
    dsimp only [Option.getD_some, Option.isSome_some]
    rw [if_pos rfl]
    refine ends_bind.mpr (ends_modify.mpr (ends_bind.mpr (ends_get.mpr ?_)))
    rw [hpop]
    generalize hp : ({ b with buf := scalarBytes 4 0 ++ rest } : Builder) = p
    have hpbuf : p.buf = scalarBytes 4 0 ++ rest := by rw [← hp]
    have hpsize : p.size = rest.length + 4 := by
      rw [Builder.size, hpbuf, List.length_append, length_scalarBytes, Nat.add_comm]
    have hne : ¬ o = p.size := by
      unfold Builder.size at hole hpsize ⊢
      omega
    rw [if_neg hne]
    refine ends_modify.mpr ?_
    generalize hu : Builder.mk _ _ _ _ _ _ _ = u
    have hubuf : u.buf = [] ++ (soffsetBytes (o - (rest.length + 4 : Nat)) ++ rest) := by
      rw [← hu]
      show writeAt p.buf (p.size - (rest.length + 4)) _ = _
      rw [hpsize, hpbuf, Nat.sub_self, writeAt, length_soffsetBytes, List.take_zero, Nat.zero_add,
        List.drop_left' (length_scalarBytes 4 0), List.nil_append, List.nil_append]
    have husize : u.size = rest.length + 4 := by
      rw [Builder.size, hubuf, List.nil_append, List.length_append, length_soffsetBytes,
        Nat.add_comm]
    have huvtables : u.vtables = s.vtables := by rw [← hvtables, ← hu, ← hp]
    have hflags : u.nested = b.nested ∧ u.finished = b.finished ∧ u.fieldLocs = b.fieldLocs ∧
        u.maxVoffset = b.maxVoffset ∧ u.minalign = b.minalign := by
      rw [← hu, ← hp]
      exact ⟨rfl, rfl, rfl, rfl, rfl⟩
    have husuffix : s.buf <:+ u.buf := by
      rw [hubuf, List.nil_append]
      exact hs.trans (List.suffix_append _ _)
    have hsu : s.size ≤ u.size := husuffix.length_le
    have hlong : size ≤ o := by
      rw [← length_dataAt (hole.trans hsuffix.length_le), ← hlength, ← hlayout.2]
      exact List.length_take_le' _ _
    unfold Builder.size at hole
    refine ⟨⟨hflags.2.2.2.2 ▸ hmin, ?_⟩, husuffix, ⟨by omega, by omega⟩, hflags, o, ?_⟩
    · rw [huvtables]
      exact fun o' ho' => ⟨(hb.vtables o' ho').1, (hb.vtables o' ho').2.trans hsu⟩
    · refine tableAt_of_buf hubuf hoeven (hole.trans hsu) ?_
      rw [dataAt_of_suffix husuffix hole, ← dataAt_of_suffix hsuffix hole, ← hlayout.2]
      exact List.take_prefix _ _

/-! ### Through the vtable -/

section Lookup
variable {vt whole : List UInt8} {size tableSize loc vtUse : Nat} {locs : List FieldLoc}

theorem TableAt.soffset (h : TableAt u vt loc vtUse) (hwhole : u.buf <:+ whole)
    (hbound : whole.length ≤ maxSize) :
    soffset whole (whole.length - loc) = .ok (vtUse - loc) := by
  have hlength := length_dataAt h.loc
  have hle := hwhole.length_le
  have hfour : 4 ≤ loc := by
    have hprefix := h.table.length_le
    rwa [hlength, length_soffsetBytes] at hprefix
  have htake : ((u.dataAt loc).drop 0).take 4 =
      scalarBytes 4 ((vtUse - loc : Int) % 4294967296).toNat := by
    rw [List.drop_zero]
    exact (List.prefix_iff_eq_take.mp h.table).symm.trans rfl
  have hscalar := scalar_of_suffix ((dataAt_suffix u loc).trans hwhole) htake
    (by omega) (by omega)
  rw [hlength, Int.natCast_zero, Int.add_zero] at hscalar
  have hvtUse := h.le
  have hloc := h.loc
  unfold Builder.size at hvtUse hloc
  unfold maxSize at hbound
  rw [FlatBuffers.soffset, hscalar]
  refine congrArg Except.ok ?_
  rw [Int.toNat_of_nonneg (Int.emod_nonneg _ (by decide))]
  have hmod : ((vtUse - loc : Int) % 4294967296).bmod 4294967296 =
      (vtUse - loc : Int).bmod 4294967296 := Int.emod_bmod _ _
  exact hmod.trans (Int.bmod_eq_of_le (by omega) (by omega))

theorem TableAt.voffset (h : TableAt u vt loc vtUse) (hwhole : u.buf <:+ whole) {k : Nat}
    (hk : k + 2 ≤ vt.length) :
    scalar whole (whole.length - vtUse + k) 2 = .ok (voffsetAt vt k) := by
  have hlength := length_dataAt h.le
  have hle := h.vtable.length_le
  obtain ⟨after, hafter⟩ := h.vtable
  have hbytes := bytes_of_suffix (k := k) (n := 2) ((dataAt_suffix u vtUse).trans hwhole)
    (by omega)
  rw [hlength] at hbytes
  rw [scalar, hbytes]
  refine congrArg Except.ok ?_
  rw [← hafter]
  exact voffsetAt_append hk

/-- A field is found where its entry in the vtable says, and one that is not in it is not. -/
theorem TableAt.fieldOffset (h : TableAt u vt loc vtUse) (hvt : IsVtable vt size tableSize loc locs)
    (heven : 2 ∣ size) (hfour : 4 ≤ size) (hids : ∀ l ∈ locs, l.id + 2 ≤ size)
    (hwhole : u.buf <:+ whole) (hbound : whole.length ≤ maxSize) {field : Nat}
    (hfield : 2 ∣ field ∧ 4 ≤ field) :
    fieldOffset whole (whole.length - loc) field = .ok (vtableEntry loc locs field) := by
  have hlength := hvt.length
  have hplace : (whole.length - loc : Int) - (vtUse - loc) = whole.length - vtUse := by omega
  have hfirst := h.voffset hwhole (k := 0) (by omega)
  rw [Int.natCast_zero, Int.add_zero, hvt.first] at hfirst
  refine bind_eq_ok.mpr ⟨_, h.soffset hwhole hbound, ?_⟩
  dsimp only
  rw [hplace, hfirst, ok_bind]
  split
  · next hlt =>
    rw [h.voffset hwhole (by omega), hvt.fields field hfield.1 hfield.2 (by omega)]
  · next hge =>
    have hnone : locs.find? (fun l => l.id = field) = none := by
      refine List.find?_eq_none.mpr fun l hl hid => ?_
      have hle := hids l hl
      rw [of_decide_eq_true hid] at hle
      omega
    rw [vtableEntry, hnone]
    rfl

theorem TableAt.verifyTableStart (h : TableAt u vt loc vtUse)
    (hvt : IsVtable vt size tableSize loc locs) (heven : 2 ∣ size) (hfour : 4 ≤ size)
    (h4 : 4 ∣ loc) (hmin : 4 ∣ u.minalign) (hwhole : Within u whole) :
    verifyTableStart whole (whole.length - loc) = true := by
  have hlength := hvt.length
  have hroom := hwhole.room
  have hloc := length_dataAt h.loc
  have huse := length_dataAt h.le
  have hfourLoc : 4 ≤ loc := by
    have hprefix := h.table.length_le
    rwa [hloc, length_soffsetBytes] at hprefix
  have hsize : size ≤ vtUse := by
    have hprefix := h.vtable.length_le
    omega
  have haligned : 4 ∣ whole.length := hmin.trans hwhole.aligned
  have hle := h.le
  have hle' := h.loc
  have hplace : (whole.length - loc : Int) - (vtUse - loc) = whole.length - vtUse := by omega
  have hstart := verifyScalar_of_suffix (k := 0) (n := 4)
    ((dataAt_suffix u loc).trans hwhole.suffix) (by omega) (by omega) haligned
    (by rw [hloc]; exact h4)
  have hvtable := verifyScalar_of_suffix (k := 0) (n := 2)
    ((dataAt_suffix u vtUse).trans hwhole.suffix) (by omega) (by omega)
    (Nat.dvd_trans (by decide) haligned) (by rw [huse]; exact h.even)
  have hrange := verifyRange_of_suffix (k := 0) (n := size)
    ((dataAt_suffix u vtUse).trans hwhole.suffix) (by omega) (by omega)
  have hfirst := h.voffset hwhole.suffix (k := 0) (by omega)
  rw [hloc, Int.natCast_zero, Int.add_zero] at hstart
  rw [huse, Int.natCast_zero, Int.add_zero] at hvtable hrange
  rw [Int.natCast_zero, Int.add_zero, hvt.first] at hfirst
  simp only [FlatBuffers.verifyTableStart, Bool.and_eq_true]
  refine ⟨hstart, check_iff.mpr (bind_eq_ok.mpr ⟨_, h.soffset hwhole.suffix hwhole.bounded, ?_⟩)⟩
  rw [hplace, if_pos hvtable, hfirst, ok_bind]
  refine congrArg Except.ok ?_
  rw [hrange, decide_eq_true (Nat.mod_eq_zero_of_dvd heven), Bool.and_self]

end Lookup
end EndTable

end YikvServer.Theory.FlatBuffers
