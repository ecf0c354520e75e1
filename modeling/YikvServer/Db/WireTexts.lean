import YikvServer.Db.WireServe
import YikvServer.Db.BatchGet
import YikvServer.Theory.DecimalText

/-!
# Texts of bytes

What is read of a body has texts of bytes, and so have the documents that are made of it, the
rows that are built of those, and the errors. So what a handler replies can be sent.
-/
namespace YikvServer.Db

open YikvServer.Theory YikvServer.Theory.FlatBuffers YikvServer.Index YikvServer.Stream

namespace Wire

theorem toNat_ofNat_byte (b : UInt8) : (Char.ofNat b.toNat).toNat = b.toNat := by
  have hlt := b.toNat_lt
  have hvalid : b.toNat.isValidChar := .inl (by omega)
  rw [Char.ofNat, dif_pos hvalid]
  rfl

theorem byteText_textOf (bs : List UInt8) : ByteText (textOf bs) := by
  intro c hc
  rw [textOf, String.toList_ofList] at hc
  obtain ⟨b, -, rfl⟩ := List.mem_map.mp hc
  rw [toNat_ofNat_byte]
  exact b.toNat_lt

theorem ByteText.append {s t : String} (hs : ByteText s) (ht : ByteText t) : ByteText (s ++ t) := by
  intro c hc
  rw [String.toList_append, List.mem_append] at hc
  exact hc.elim (hs c) (ht c)

theorem byteText_toStringInt (n : Nat) : ByteText (toStringInt n) := by
  intro c hc
  rw [toStringInt, DecimalText.toList_toString, DecimalText.write_natCast] at hc
  have hdigit := Nat.isDigit_of_mem_toDigits (by decide) (by decide) hc
  have hle := (DecimalText.isDigit_toNat hdigit).2
  omega

/-! ## What is read -/

section Read
variable {α : Type} {body : Buffer} {p : Int} {decode : Int → Read α} {P : α → Prop}

theorem byteText_of_text {s : String} (h : text body p = .ok s) : ByteText s := by
  obtain ⟨bs, -, rfl⟩ := map_eq_ok.mp h
  exact byteText_textOf bs

theorem of_optional {table : Int} {field : Nat} {x : Option α}
    (h : optional body decode table field = .ok x) (hdecode : ∀ p a, decode p = .ok a → P a) :
    ∀ a ∈ x, P a := by
  rintro a rfl
  rcases optional_eq_ok h with ⟨-, hnull⟩ | ⟨q, a', -, ha, hsome⟩
  · cases hnull
  · obtain rfl := Option.some.inj hsome
    exact hdecode q a ha

theorem of_decodeElements {xs : List (Option α)} (h : decodeElements body decode p = .ok xs)
    (hdecode : ∀ p a, decode p = .ok a → P a) : ∀ x ∈ xs, Entry P x := by
  obtain ⟨n, -, hall⟩ := decodeElements_eq_ok h
  intro x hx
  obtain ⟨i, -, q, a, -, ha, rfl⟩ := exists_left_of_forall₂ hall x hx
  exact ⟨a, rfl, hdecode q a ha⟩

theorem of_decodeIterated {xs : List (Option α)} (h : decodeIterated body decode p = .ok xs)
    (hdecode : ∀ p a, decode p = .ok a → P a) : ∀ x ∈ xs, Entry P x := by
  obtain ⟨n, -, hall⟩ := decodeIterated_eq_ok h
  intro x hx
  obtain ⟨i, -, q, a, -, ha, rfl⟩ := exists_left_of_forall₂ hall x hx
  exact ⟨a, rfl, hdecode q a ha⟩

theorem sendable_of_decodeFieldValue {fv : FieldValue} (h : decodeFieldValue body p = .ok fv) :
    fv.Sendable := by
  unfold decodeFieldValue at h
  obtain ⟨fieldId, -, h⟩ := bind_eq_ok.mp h
  obtain ⟨vtype, -, h⟩ := bind_eq_ok.mp h
  obtain ⟨i32, -, h⟩ := bind_eq_ok.mp h
  obtain ⟨i64, -, h⟩ := bind_eq_ok.mp h
  obtain ⟨f32, -, h⟩ := bind_eq_ok.mp h
  obtain ⟨f64, -, h⟩ := bind_eq_ok.mp h
  obtain ⟨s, hs, h⟩ := bind_eq_ok.mp h
  obtain ⟨raw, hraw, h⟩ := bind_eq_ok.mp h
  obtain ⟨ai32, -, h⟩ := bind_eq_ok.mp h
  obtain ⟨ai64, -, h⟩ := bind_eq_ok.mp h
  obtain ⟨af32, -, h⟩ := bind_eq_ok.mp h
  obtain ⟨af64, -, h⟩ := bind_eq_ok.mp h
  obtain ⟨as, has, ⟨rfl⟩⟩ := bind_eq_ok.mp h
  exact {
    s := of_optional hs fun _ _ => byteText_of_text
    raw := of_optional hraw fun _ _ => byteText_of_text
    as := of_optional has fun _ _ hts => of_decodeElements hts fun _ _ => byteText_of_text }

theorem sendable_of_decodeRow {row : Row} (h : decodeRow body p = .ok row) : row.Sendable := by
  obtain ⟨fields, hfields, rfl⟩ := map_eq_ok.mp h
  exact ⟨of_optional hfields fun _ _ hfvs => of_decodeIterated hfvs fun _ _ =>
    sendable_of_decodeFieldValue⟩

/-- What `VerifyOffsetRequired` accepts is there. -/
theorem isSome_of_required {table : Int} {field : Nat} {x : Option α}
    (hrequired : verifyOffsetRequired body table field = true)
    (h : optional body decode table field = .ok x) : ∃ a, x = some a := by
  obtain ⟨off, hoff, hthere⟩ := bind_eq_ok.mp (check_iff.mp hrequired)
  have hne : off ≠ 0 := of_decide_eq_true (Bool.and_eq_true_iff.mp (Except.ok.inj hthere)).1
  rcases optional_eq_ok h with ⟨hnull, -⟩ | ⟨q, a, -, -, hsome⟩
  · obtain ⟨off', hoff', hpointer⟩ := bind_eq_ok.mp hnull
    obtain rfl : off = off' := Except.ok.inj (hoff.symm.trans hoff')
    rw [if_pos hne] at hpointer
    obtain ⟨_, _, hsome⟩ := bind_eq_ok.mp hpointer
    cases hsome
  · exact ⟨a, hsome⟩

theorem entry_of_required {table : Int} {field : Nat} {x : Option α}
    (hrequired : verifyOffsetRequired body table field = true)
    (h : optional body decode table field = .ok x) (hdecode : ∀ p a, decode p = .ok a → P a) :
    Entry P x := by
  obtain ⟨a, rfl⟩ := isSome_of_required hrequired h
  exact ⟨a, rfl, of_optional h hdecode a rfl⟩

theorem decodeRequest_fields {root : Int} {first : Option α} {name : Option String}
    (hroot : getRoot body = .ok root) (h : decodeRequest body decode = .ok (first, name)) :
    optional body decode root 4 = .ok first ∧ optional body (text body) root 6 = .ok name := by
  obtain ⟨root', hroot', h⟩ := bind_eq_ok.mp h
  obtain rfl : root = root' := Except.ok.inj (hroot.symm.trans hroot')
  obtain ⟨first', hfirst, h⟩ := bind_eq_ok.mp h
  obtain ⟨name', hname, heq⟩ := bind_eq_ok.mp h
  obtain ⟨rfl, rfl⟩ := Prod.mk.inj (Except.ok.inj heq)
  exact ⟨hfirst, hname⟩

/-- What a well-formed body holds could have been sent. -/
theorem sendable_of_decode {method : Method} {req : Request}
    (hwell : wellFormed body method = true) (h : Wire.decode body method = .ok req) :
    req.Sendable := by
  obtain ⟨root, hroot, hverify, -⟩ := wellFormed_root hwell
  have hname : ∀ {name : Option String}, optional body (text body) root 6 = .ok name →
      ∀ t ∈ name, ByteText t := fun hread => of_optional hread fun _ _ => byteText_of_text
  cases method with
  | get =>
    obtain ⟨⟨pk, name⟩, hreq, rfl⟩ := map_eq_ok.mp h
    obtain ⟨hfirst, hread⟩ := decodeRequest_fields hroot hreq
    exact ⟨entry_of_required (Bool.and_eq_true_iff.mp hverify).1 hfirst
      fun _ _ => byteText_of_text, hname hread⟩
  | put =>
    obtain ⟨⟨row, name⟩, hreq, rfl⟩ := map_eq_ok.mp h
    obtain ⟨hfirst, hread⟩ := decodeRequest_fields hroot hreq
    exact ⟨entry_of_required (Bool.and_eq_true_iff.mp hverify).1 hfirst
      fun _ _ => sendable_of_decodeRow, hname hread⟩
  | putBatch =>
    obtain ⟨⟨rows, name⟩, hreq, rfl⟩ := map_eq_ok.mp h
    obtain ⟨hfirst, hread⟩ := decodeRequest_fields hroot hreq
    exact ⟨entry_of_required (Bool.and_eq_true_iff.mp hverify).1 hfirst
      fun _ _ hrows => of_decodeElements hrows fun _ _ => sendable_of_decodeRow, hname hread⟩
  | batchGet =>
    obtain ⟨⟨pks, name⟩, hreq, rfl⟩ := map_eq_ok.mp h
    obtain ⟨hfirst, hread⟩ := decodeRequest_fields hroot hreq
    exact ⟨of_optional hfirst fun _ _ hpks => of_decodeElements hpks fun _ _ => byteText_of_text,
      hname hread⟩

end Read
end Wire

/-! ## Documents -/

open Wire

def ByteElem : (e : Elem) → e.Val → Prop
  | .str, s => ByteText s
  | _, _ => True

/-- A value of a cell whose texts are bytes. -/
def ByteVal : (c : Cell) → c.Val → Prop
  | .scalar e, v => ByteElem e v
  | .array e, vs => ∀ v ∈ vs, ByteElem e v

/-- A document whose texts are bytes, in the fields of the schema. -/
def ByteDoc (Y : Yikv) (schema : Schema) (doc : Y.Doc) : Prop :=
  ∀ fd ∈ schema.fields, ByteVal fd.cell (Y.get doc fd.fieldId fd.cell)

section Documents
variable {Y : Yikv} {schema : Schema} {fd : FieldDef} {fv : FieldValue} {row : Row}
  {doc doc' : Y.Doc}

theorem byteVal_default (c : Cell) : ByteVal c c.default := by
  cases c with
  | scalar e => cases e <;> first | trivial | exact fun c hc => (nomatch hc)
  | array e => exact fun v hv => (nomatch hv)

theorem byteText_getD {x : Option String} (h : ∀ t ∈ x, ByteText t) : ByteText (x.getD "") := by
  cases x with
  | none => decide
  | some t => exact h t rfl

theorem byteVal_payload (h : fv.Sendable) (fd : FieldDef) :
    ∀ v ∈ fv.payload fd, ByteVal fd.cell v := by
  obtain ⟨name, fid, type, arr⟩ := fd
  intro v hv
  cases arr with
  | false =>
    obtain rfl := Option.some.inj hv
    cases type
    case string => exact byteText_getD h.s
    case bytes => exact byteText_getD h.raw
    all_goals trivial
  | true =>
    cases type
    case string =>
      obtain ⟨ts, hts, rfl⟩ := Option.map_eq_some_iff.mp hv
      intro t ht
      obtain ⟨x, hx, rfl⟩ := List.mem_map.mp ht
      obtain ⟨s, rfl, hs⟩ := h.as ts hts x hx
      exact hs
    case bool => cases hv
    case bytes => cases hv
    all_goals exact fun _ _ => trivial

theorem byteDoc_putPayload {v : Option fd.cell.Val} (hfd : fd ∈ schema.fields)
    (hdoc : ByteDoc Y schema doc) (hv : ∀ a ∈ v, ByteVal fd.cell a) :
    ByteDoc Y schema (putPayload Y doc fd v) := by
  intro fd' hfd'
  by_cases hid : fd'.fieldId = fd.fieldId
  · obtain rfl := Schema.id_injective hfd' hfd hid
    rw [get_putPayload_self]
    cases v with
    | none => exact hdoc fd' hfd'
    | some a => exact hv a rfl
  · rw [get_putPayload_other hid]
    exact hdoc fd' hfd'

theorem byteDoc_applyRow (hrow : row.Sendable) (hdoc : ByteDoc Y schema doc)
    (h : applyRowToDoc Y schema doc row = .ok doc') : ByteDoc Y schema doc' := by
  have hvalues : ∀ fv ∈ row.values, fv.Sendable := by
    intro fv hfv
    have hmem := List.reduceOption_mem_iff.mp hfv
    cases hfields : row.fields with
    | none =>
      rw [hfields] at hmem
      cases hmem
    | some fvs =>
      rw [hfields] at hmem
      obtain ⟨fv', hfv', hsendable⟩ := hrow.fields fvs hfields _ hmem
      exact Option.some.inj hfv' ▸ hsendable
  rw [applyRowToDoc_eq] at h
  generalize row.values = fvs at h hvalues
  induction fvs generalizing doc with
  | nil =>
    obtain rfl := Except.ok.inj h
    exact hdoc
  | cons fv rest ih =>
    obtain ⟨fd, hfd, -, hrest⟩ := foldlM_cons_ok.mp h
    have hmem := (Schema.findFieldById_eq_some.mp hfd).1
    exact ih (byteDoc_putPayload hmem hdoc (byteVal_payload (hvalues fv List.mem_cons_self) fd))
      hrest fun fv' hfv' => hvalues fv' (List.mem_cons_of_mem _ hfv')

theorem byteDoc_newDoc : ByteDoc Y schema Y.newDoc := by
  intro fd _
  rw [Y.get_newDoc]
  exact byteVal_default fd.cell

theorem createVector_eq_some {α : Type} {view v : List α} :
    createVector view = some v ↔ view.length ≠ 0 ∧ view = v := by
  unfold createVector
  split
  · next h => exact ⟨fun hv => ⟨h, Option.some.inj hv⟩, fun hv => congrArg some hv.2⟩
  · next h => exact ⟨fun hv => (nomatch hv), fun hv => absurd hv.1 h⟩

theorem sendable_buildFieldValue (h : ByteVal fd.cell (Y.get doc fd.fieldId fd.cell)) :
    (buildFieldValue Y doc fd).Sendable := by
  have hnone : ∀ {α : Type} {P : α → Prop}, ∀ a ∈ (none : Option α), P a := fun _ ha => nomatch ha
  obtain ⟨name, fid, type, arr⟩ := fd
  cases arr with
  | false =>
    cases type
    case string => exact ⟨fun t ht => Option.some.inj ht ▸ h, hnone, hnone⟩
    case bytes => exact ⟨hnone, fun t ht => Option.some.inj ht ▸ h, hnone⟩
    all_goals exact ⟨hnone, hnone, hnone⟩
  | true =>
    cases type
    case string =>
      refine ⟨hnone, hnone, fun ts hts t ht => ?_⟩
      obtain ⟨-, rfl⟩ := createVector_eq_some.mp hts
      obtain ⟨s, hs, rfl⟩ := List.mem_map.mp ht
      exact ⟨s, rfl, h s hs⟩
    all_goals exact ⟨hnone, hnone, hnone⟩

theorem sendable_buildRow (h : ByteDoc Y schema doc) : (buildRow Y doc schema).Sendable := by
  constructor
  rintro fvs hfvs fv hfv
  obtain rfl := Option.some.inj hfvs
  obtain ⟨fd, hfd, rfl⟩ := List.mem_map.mp hfv
  exact ⟨_, rfl, sendable_buildFieldValue (h fd hfd)⟩

/-! ## Errors -/

/-- The names that `DataTypeName` gives are bytes. -/
def ByteNames (Y : Yikv) : Prop := ∀ type, ByteText (Y.dataTypeName type)

theorem byteText_applyFieldValue (hnames : ByteNames Y) {err : String}
    (h : applyFieldValue Y schema doc fv = .error err) : ByteText err := by
  unfold applyFieldValue at h
  cases hfd : schema.findFieldById fv.fieldId.toNat with
  | none =>
    rw [hfd] at h
    obtain rfl := Except.error.inj h
    exact ByteText.append (by decide) (byteText_toStringInt _)
  | some fd =>
    rw [hfd] at h
    dsimp only at h
    split at h
    · obtain rfl := Except.error.inj h
      exact (((ByteText.append (by decide) (byteText_toStringInt _)).append (by decide)).append
        (hnames fd.type))
    · have hunsupported : ByteText ("unsupported ValueType for field_id " ++
          toStringInt fv.fieldId.toNat) := ByteText.append (by decide) (byteText_toStringInt _)
      split at h <;> cases h
      exact hunsupported

theorem byteText_applyRow (hnames : ByteNames Y) {err : String}
    (h : applyRowToDoc Y schema doc row = .error err) : ByteText err := by
  rw [applyRowToDoc_eq] at h
  generalize row.values = fvs at h
  induction fvs generalizing doc with
  | nil => cases h
  | cons fv rest ih =>
    rw [List.foldlM_cons] at h
    cases hturn : applyFieldValue Y schema doc fv with
    | error err' =>
      rw [hturn] at h
      obtain rfl := Except.error.inj h
      exact byteText_applyFieldValue hnames hturn
    | ok doc' =>
      rw [hturn] at h
      exact ih h

/-- A row makes a document of byte texts, or an error that is one. -/
theorem byte_rowDoc (hnames : ByteNames Y) (hrow : row.Sendable) (noPk : String)
    (hnoPk : ByteText noPk) : (∀ doc, rowDoc Y schema noPk row = .ok doc → ByteDoc Y schema doc) ∧
      ∀ err, rowDoc Y schema noPk row = .error err → ByteText err := by
  unfold rowDoc
  cases happly : applyRowToDoc Y schema Y.newDoc row with
  | error err =>
    refine ⟨fun doc h => (by cases h), fun err' h => ?_⟩
    obtain rfl := Except.error.inj h
    exact byteText_applyRow hnames happly
  | ok doc =>
    dsimp only
    split
    · refine ⟨fun doc h => (by cases h), fun err h => ?_⟩
      obtain rfl := Except.error.inj h
      exact hnoPk
    · refine ⟨fun doc' h => ?_, fun err h => by cases h⟩
      obtain rfl := Except.ok.inj h
      exact byteDoc_applyRow hrow byteDoc_newDoc happly

theorem byte_stageRows (hnames : ByteNames Y) {rows : List (Option Row)}
    (hrows : ∀ row ∈ rows, Entry Row.Sendable row) :
    (∀ docs, stageRows Y schema rows = .ok docs → ∀ doc ∈ docs, ByteDoc Y schema doc) ∧
      ∀ err, stageRows Y schema rows = .error err → ByteText err := by
  induction rows with
  | nil =>
    refine ⟨fun docs h => ?_, fun err h => by cases h⟩
    obtain rfl := Except.ok.inj h
    exact fun doc hdoc => by cases hdoc
  | cons entry rest ih =>
    obtain ⟨⟨row, rfl, hrow⟩, hrest⟩ := List.forall_mem_cons.mp hrows
    obtain ⟨hdoc, herr⟩ := byte_rowDoc (Y := Y) hnames hrow
      "cannot derive pk" (by decide)
    obtain ⟨hdocs, herrs⟩ := ih hrest
    rw [stageRows]
    cases hfirst : rowDoc Y schema "cannot derive pk" row with
    | error err =>
      refine ⟨fun docs h => (by cases h), fun err' h => ?_⟩
      obtain rfl := Except.error.inj h
      exact herr err hfirst
    | ok doc =>
      cases hstaged : stageRows Y schema rest with
      | error err =>
        refine ⟨fun docs h => (by cases h), fun err' h => ?_⟩
        obtain rfl := Except.error.inj h
        exact herrs err hstaged
      | ok docs =>
        refine ⟨fun docs' h => ?_, fun err h => by cases h⟩
        obtain rfl := Except.ok.inj h
        exact List.forall_mem_cons.mpr ⟨hdoc doc hfirst, hdocs docs hstaged⟩

end Documents
end YikvServer.Db
