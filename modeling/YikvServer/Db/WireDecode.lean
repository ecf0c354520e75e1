import YikvServer.Db.Wire
import Mathlib.Data.List.ReduceOption

/-!
# Well-formed requests

The requests that a body holds, the generated `Verify` of each request, and the refinement:
a body that `Verify` accepts holds a request, and on a body that holds one the handlers do
what they do on the request.
-/
namespace YikvServer.Db.Wire

open YikvServer.Theory YikvServer.Theory.FlatBuffers YikvServer.Index YikvServer.Stream

/-! ## The requests in a body -/

section Body
variable (body : Buffer)

def decodeFieldValue (fv : Int) : Read FieldValue := do
  let fieldId ← fieldId body fv
  let vtype ← vtype body fv
  let i32 ← i32 body fv
  let i64 ← i64 body fv
  let f32 ← f32 body fv
  let f64 ← f64 body fv
  let s ← s body fv
  let raw ← raw body fv
  let ai32 ← ai32 body fv
  let ai64 ← ai64 body fv
  let af32 ← af32 body fv
  let af64 ← af64 body fv
  let as ← as body fv
  pure { fieldId, vtype, i32, i64, f32, f64, s, raw, ai32, ai64, af32, af64, as }

/-- The elements of a vector, none of which is null. -/
def decodeElements {α : Type} (decode : Int → Read α) (vec : Int) : Read (List (Option α)) :=
  elements body (fun p => (decode p).map some) vec

/-- Those that a range-for comes to. -/
def decodeIterated {α : Type} (decode : Int → Read α) (vec : Int) : Read (List (Option α)) :=
  iterated body (fun p => (decode p).map some) vec

def decodeRow (row : Int) : Read Row :=
  (optional body (decodeIterated body (decodeFieldValue body)) row 4).map Row.mk

/-- A request: its first field, and `table_name`. -/
def decodeRequest {α : Type} (decode : Int → Read α) : Read (Option α × Option String) := do
  let preq ← getRoot body
  let first ← optional body decode preq 4
  let tableName ← optional body (text body) preq 6
  pure (first, tableName)

/-! ## The generated `Verify` -/

/-- `VerifyOffset` of a field, and what is at it. -/
def verifyAt (verify : Int → Bool) (table : Int) (field : Nat) : Bool :=
  verifyOffsetField body table field && verifyPointer body verify table field

def verifyFieldValue (fv : Int) : Bool :=
  verifyTableStart body fv &&
  verifyField body 2 fv 4 &&
  verifyField body 1 fv 6 &&
  verifyField body 4 fv 8 &&
  verifyField body 8 fv 10 &&
  verifyField body 4 fv 12 &&
  verifyField body 8 fv 14 &&
  verifyAt body (verifyString body) fv 16 &&
  verifyAt body (verifyVector body 1) fv 18 &&
  verifyAt body (verifyVector body 4) fv 20 &&
  verifyAt body (verifyVector body 8) fv 22 &&
  verifyAt body (verifyVector body 4) fv 24 &&
  verifyAt body (verifyVector body 8) fv 26 &&
  verifyAt body (verifyElements body (verifyString body)) fv 28

def verifyRow (row : Int) : Bool :=
  verifyTableStart body row &&
  verifyAt body (verifyElements body (verifyFieldValue body)) row 4

/-- The first field of a request; only that of `BatchGetRequest` need not be there. -/
def verifyFirst (method : Method) (preq : Int) : Bool :=
  match method with
  | .get =>
    verifyOffsetRequired body preq 4 && verifyPointer body (verifyString body) preq 4
  | .put => verifyOffsetRequired body preq 4 && verifyPointer body (verifyRow body) preq 4
  | .putBatch =>
    verifyOffsetRequired body preq 4 &&
    verifyPointer body (verifyElements body (verifyRow body)) preq 4
  | .batchGet => verifyAt body (verifyElements body (verifyString body)) preq 4

def verifyRequest (method : Method) (preq : Int) : Bool :=
  verifyTableStart body preq && verifyFirst body method preq &&
  verifyAt body (verifyString body) preq 6

/-- A FlatBuffer of the method's request type. -/
def wellFormed (method : Method) : Bool := verifyBuffer body (verifyRequest body method)

/-- The request of a method. -/
inductive Request where
  | get (req : GetRequest)
  | put (req : PutRequest)
  | putBatch (req : PutBatchRequest)
  | batchGet (req : BatchGetRequest)

def decode (method : Method) : Read Request :=
  match method with
  | .get => (decodeRequest body (text body)).map fun (pk, tableName) => .get ⟨pk, tableName⟩
  | .put => (decodeRequest body (decodeRow body)).map fun (row, tableName) =>
      .put ⟨row, tableName⟩
  | .putBatch => (decodeRequest body (decodeElements body (decodeRow body))).map
      fun (rows, tableName) => .putBatch ⟨rows, tableName⟩
  | .batchGet => (decodeRequest body (decodeElements body (text body))).map
      fun (pks, tableName) => .batchGet ⟨pks, tableName⟩

/-- The handler of a request. -/
def Request.handle (Y : Yikv) (acquire : String → Option Schema) :
    Request → Prog Stop (Yikv.KvOp.Res Y) Response
  | get req => do
    let resp ← Db.handleGet Y acquire req
    pure (.get resp)
  | put req => do
    Db.handlePut Y acquire req
    pure .put
  | putBatch req => do
    Db.handlePutBatch Y acquire req
    pure .putBatch
  | batchGet req => do
    let resp ← Db.handleBatchGet Y acquire req
    pure (.batchGet resp)

end Body

/-! ## A body that `Verify` accepts holds a request -/

section Accepted
variable {α : Type} {body : Buffer} {table : Int} {field : Nat}

theorem inside_text {p : Int} (h : verifyString body p = true) : Inside (text body p) :=
  inside_map (inside_str h) _

/-- The bytes of a vector of bytes are read as a string's. -/
theorem inside_text_vector {p : Int} (h : verifyVector body 1 p = true) :
    Inside (text body p) := by
  obtain ⟨len, hlen, -, hrange⟩ := verifyVector_size h
  rw [Nat.one_mul] at hrange
  exact inside_map (inside_bind.mpr ⟨len, hlen, inside_bytes_sub hrange le_rfl⟩) _

theorem inside_optional {decode : Int → Read α} {verify : Int → Bool}
    (hpointer : Inside (getPointer body table field))
    (hverify : verifyPointer body verify table field = true)
    (hdecode : ∀ p, verify p = true → Inside (decode p)) :
    Inside (optional body decode table field) := by
  obtain ⟨p, hp⟩ := hpointer
  refine inside_bind.mpr ⟨p, hp, ?_⟩
  cases p with
  | none => exact ⟨none, rfl⟩
  | some p => exact inside_map (hdecode p (verifyPointer_some hverify hp)) _

theorem inside_optional_at {decode : Int → Read α} {verify : Int → Bool}
    (h : verifyAt body verify table field = true)
    (hdecode : ∀ p, verify p = true → Inside (decode p)) :
    Inside (optional body decode table field) := by
  simp only [verifyAt, Bool.and_eq_true] at h
  exact inside_optional (inside_getPointer h.1) h.2 hdecode

theorem inside_decodeElements {decode : Int → Read α} {verify : Int → Bool} {vec : Int}
    (h : verifyElements body verify vec = true)
    (hdecode : ∀ p, verify p = true → Inside (decode p)) :
    Inside (decodeElements body decode vec) :=
  inside_elements h fun p hp => inside_map (hdecode p hp) _

theorem inside_vector {n : Nat} {ofNat : Nat → α} {p : Int}
    (h : verifyVector body n p = true) : Inside (vector body n ofNat p) :=
  inside_map (inside_scalars h) _

theorem inside_decodeFieldValue {fv : Int} (h : verifyFieldValue body fv = true) :
    Inside (decodeFieldValue body fv) := by
  simp only [verifyFieldValue, Bool.and_eq_true] at h
  obtain ⟨⟨⟨⟨⟨⟨⟨⟨⟨⟨⟨⟨⟨-, hid⟩, hvtype⟩, hi32⟩, hi64⟩, hf32⟩, hf64⟩, hs⟩, hraw⟩, hai32⟩, hai64⟩,
    haf32⟩, haf64⟩, has⟩ := h
  obtain ⟨fieldId, hid⟩ : Inside (Wire.fieldId body fv) := inside_map (inside_getField hid) _
  obtain ⟨vtype, hvtype⟩ : Inside (Wire.vtype body fv) := inside_map (inside_getField hvtype) _
  obtain ⟨i32, hi32⟩ : Inside (Wire.i32 body fv) := inside_map (inside_getField hi32) _
  obtain ⟨i64, hi64⟩ : Inside (Wire.i64 body fv) := inside_map (inside_getField hi64) _
  obtain ⟨f32, hf32⟩ : Inside (Wire.f32 body fv) := inside_map (inside_getField hf32) _
  obtain ⟨f64, hf64⟩ : Inside (Wire.f64 body fv) := inside_map (inside_getField hf64) _
  obtain ⟨s, hs⟩ : Inside (Wire.s body fv) := inside_optional_at hs fun _ => inside_text
  obtain ⟨raw, hraw⟩ : Inside (Wire.raw body fv) :=
    inside_optional_at hraw fun _ => inside_text_vector
  obtain ⟨ai32, hai32⟩ : Inside (Wire.ai32 body fv) :=
    inside_optional_at hai32 fun _ => inside_vector
  obtain ⟨ai64, hai64⟩ : Inside (Wire.ai64 body fv) :=
    inside_optional_at hai64 fun _ => inside_vector
  obtain ⟨af32, haf32⟩ : Inside (Wire.af32 body fv) :=
    inside_optional_at haf32 fun _ => inside_vector
  obtain ⟨af64, haf64⟩ : Inside (Wire.af64 body fv) :=
    inside_optional_at haf64 fun _ => inside_vector
  obtain ⟨as, has⟩ : Inside (Wire.as body fv) :=
    inside_optional_at has fun _ h => inside_decodeElements h fun _ => inside_text
  refine ⟨{ fieldId, vtype, i32, i64, f32, f64, s, raw, ai32, ai64, af32, af64, as }, ?_⟩
  simp only [decodeFieldValue, hid, hvtype, hi32, hi64, hf32, hf64, hs, hraw, hai32, hai64, haf32,
    haf64, has]
  rfl

theorem inside_decodeIterated {decode : Int → Read α} {verify : Int → Bool} {vec : Int}
    (h : verifyElements body verify vec = true)
    (hdecode : ∀ p, verify p = true → Inside (decode p)) :
    Inside (decodeIterated body decode vec) := by
  unfold decodeIterated
  rw [iterated_eq_elements _ h]
  exact inside_decodeElements h hdecode

theorem inside_decodeRow {row : Int} (h : verifyRow body row = true) :
    Inside (decodeRow body row) := by
  simp only [verifyRow, Bool.and_eq_true] at h
  exact inside_map (inside_optional_at h.2 fun _ hfields =>
    inside_decodeIterated hfields fun _ => inside_decodeFieldValue) _

/-- A first field that must be there. -/
theorem inside_required {decode : Int → Read α} {verify : Int → Bool}
    (hrequired : verifyOffsetRequired body table field = true)
    (hverify : verifyPointer body verify table field = true)
    (hdecode : ∀ p, verify p = true → Inside (decode p)) :
    Inside (optional body decode table field) :=
  inside_optional (inside_getPointer_of_required hrequired) hverify hdecode

theorem wellFormed_root {method : Method} (h : wellFormed body method = true) :
    ∃ root, getRoot body = .ok root ∧ verifyFirst body method root = true ∧
      Inside (optional body (text body) root 6) := by
  obtain ⟨root, hroot, hverify⟩ := verifyBuffer_root h
  simp only [verifyRequest, Bool.and_eq_true] at hverify
  exact ⟨root, hroot, hverify.1.2, inside_optional_at hverify.2 fun _ => inside_text⟩

theorem inside_decodeRequest {decode : Int → Read α} {root : Int} (hroot : getRoot body = .ok root)
    (hfirst : Inside (optional body decode root 4))
    (hname : Inside (optional body (text body) root 6)) :
    Inside (decodeRequest body decode) := by
  obtain ⟨first, hfirst⟩ := hfirst
  obtain ⟨tableName, hname⟩ := hname
  exact inside_bind.mpr ⟨root, hroot, inside_bind.mpr ⟨first, hfirst,
    inside_bind.mpr ⟨tableName, hname, _, rfl⟩⟩⟩

end Accepted

/-! ## On a body that holds a request -/

/-- An error response, as the handlers on bytes make it. -/
def responded {α : Type} (x : Except String α) : Except Fault α :=
  x.mapError fun err => .stop (.refused err)

section Refinement
variable {body : Buffer} {p : Int} {fv : FieldValue} {row : Row} {Y : Yikv} {schema : Schema}
  {acquire : String → Option Schema}

theorem reading_ok {α : Type} {r : Read α} {a : α} (h : r = .ok a) : reading r = .ok a := by
  rw [h]
  rfl

theorem reading_eq_ok {α : Type} {r : Read α} {a : α} : reading r = .ok a ↔ r = .ok a := by
  cases r with
  | ok b => exact ⟨fun h => congrArg Except.ok (Except.ok.inj h), reading_ok⟩
  | error e => exact iff_of_false (fun h => nomatch h) fun h => nomatch h

/-- The slot that the type names is all that `ApplyRowToDoc` uses. -/
theorem readValue_of_decode (h : decodeFieldValue body p = .ok fv) :
    fieldId body p = .ok fv.fieldId ∧ vtype body p = .ok fv.vtype ∧
      ∃ w, readValue body p fv.fieldId fv.vtype = .ok w ∧ ∀ (Y : Yikv) schema doc,
        Db.applyFieldValue Y schema doc w = Db.applyFieldValue Y schema doc fv := by
  unfold decodeFieldValue at h
  obtain ⟨fieldId, hid, h⟩ := bind_eq_ok.mp h
  obtain ⟨vtype, hvtype, h⟩ := bind_eq_ok.mp h
  obtain ⟨i32, hi32, h⟩ := bind_eq_ok.mp h
  obtain ⟨i64, hi64, h⟩ := bind_eq_ok.mp h
  obtain ⟨f32, hf32, h⟩ := bind_eq_ok.mp h
  obtain ⟨f64, hf64, h⟩ := bind_eq_ok.mp h
  obtain ⟨s, hs, h⟩ := bind_eq_ok.mp h
  obtain ⟨raw, hraw, h⟩ := bind_eq_ok.mp h
  obtain ⟨ai32, hai32, h⟩ := bind_eq_ok.mp h
  obtain ⟨ai64, hai64, h⟩ := bind_eq_ok.mp h
  obtain ⟨af32, haf32, h⟩ := bind_eq_ok.mp h
  obtain ⟨af64, haf64, h⟩ := bind_eq_ok.mp h
  obtain ⟨as, has, ⟨rfl⟩⟩ := bind_eq_ok.mp h
  refine ⟨hid, hvtype, ?_⟩
  cases vtype with
  | none => exact ⟨_, rfl, fun _ _ _ => rfl⟩
  | unknown => exact ⟨_, rfl, fun _ _ _ => rfl⟩
  | bool => exact ⟨_, congrArg (Except.map _) hi32, fun _ _ _ => rfl⟩
  | i32 => exact ⟨_, congrArg (Except.map _) hi32, fun _ _ _ => rfl⟩
  | i64 => exact ⟨_, congrArg (Except.map _) hi64, fun _ _ _ => rfl⟩
  | f32 => exact ⟨_, congrArg (Except.map _) hf32, fun _ _ _ => rfl⟩
  | f64 => exact ⟨_, congrArg (Except.map _) hf64, fun _ _ _ => rfl⟩
  | string => exact ⟨_, congrArg (Except.map _) hs, fun _ _ _ => rfl⟩
  | bytes => exact ⟨_, congrArg (Except.map _) hraw, fun _ _ _ => rfl⟩
  | arrI32 => exact ⟨_, congrArg (Except.map _) hai32, fun _ _ _ => rfl⟩
  | arrI64 => exact ⟨_, congrArg (Except.map _) hai64, fun _ _ _ => rfl⟩
  | arrF32 => exact ⟨_, congrArg (Except.map _) haf32, fun _ _ _ => rfl⟩
  | arrF64 => exact ⟨_, congrArg (Except.map _) haf64, fun _ _ _ => rfl⟩
  | arrString => exact ⟨_, congrArg (Except.map _) has, fun _ _ _ => rfl⟩

theorem applyFieldValue_of_decode (h : decodeFieldValue body p = .ok fv) (doc : Y.Doc) :
    applyFieldValue body Y schema doc p = responded (Db.applyFieldValue Y schema doc fv) := by
  obtain ⟨hid, hvtype, w, hw, happly⟩ := readValue_of_decode h
  unfold applyFieldValue
  rw [reading_ok hid, ok_bind]
  cases hfind : schema.findFieldById fv.fieldId.toNat with
  | none =>
    rw [Db.applyFieldValue, hfind]
    rfl
  | some fd =>
    dsimp only
    rw [reading_ok hvtype, ok_bind]
    by_cases hmatch : fieldValueMatchesSchema fd fv.vtype = false
    · rw [if_pos hmatch, Db.applyFieldValue, hfind]
      dsimp only
      rw [if_pos hmatch]
      rfl
    · rw [if_neg hmatch, reading_ok hw, ok_bind, happly]
      rfl

/-- The loop over entries that are read one by one is the loop over the entries. -/
theorem foldlM_applyEntry {fields : Int} {indices : List Nat}
    {entries : List (Option FieldValue)}
    (h : List.Forall₂ (fun i entry => ∃ p fv, element body fields i = .ok p ∧
      decodeFieldValue body p = .ok fv ∧ entry = some fv) indices entries) (doc : Y.Doc) :
    indices.foldlM (applyEntry body Y schema fields) doc =
      responded (entries.reduceOption.foldlM (Db.applyFieldValue Y schema) doc) := by
  induction h generalizing doc with
  | nil => rfl
  | cons hentry _ ih =>
    obtain ⟨p, fv, hp, hfv, rfl⟩ := hentry
    rw [List.foldlM_cons, List.reduceOption_cons_of_some, List.foldlM_cons, applyEntry,
      reading_ok hp, ok_bind, applyFieldValue_of_decode hfv]
    cases hturn : Db.applyFieldValue Y schema doc fv with
    | error err => rfl
    | ok doc' => exact ih doc'

/-- What the elements of a vector are, one by one. -/
theorem decodedElements {α : Type} {decode : Int → Read α} {vec : Int} {indices : List Nat}
    {entries : List (Option α)} (h : (indices.mapM fun i => do
      let p ← element body vec i
      (decode p).map some) = .ok entries) : List.Forall₂ (fun i entry => ∃ p x,
        element body vec i = .ok p ∧ decode p = .ok x ∧ entry = some x) indices entries := by
  refine (mapM_eq_ok.mp h).imp fun i entry hentry => ?_
  obtain ⟨p, hp, hdecode⟩ := bind_eq_ok.mp hentry
  obtain ⟨x, hx, rfl⟩ := map_eq_ok.mp hdecode
  exact ⟨p, x, hp, hx, rfl⟩

theorem decodeElements_eq_ok {α : Type} {decode : Int → Read α} {vec : Int}
    {entries : List (Option α)} (h : decodeElements body decode vec = .ok entries) :
    ∃ n, size body vec = .ok n ∧ List.Forall₂ (fun i entry => ∃ p x,
      element body vec i = .ok p ∧ decode p = .ok x ∧ entry = some x) (List.range n) entries := by
  obtain ⟨n, hn, h⟩ := bind_eq_ok.mp h
  exact ⟨n, hn, decodedElements h⟩

theorem decodeIterated_eq_ok {α : Type} {decode : Int → Read α} {vec : Int}
    {entries : List (Option α)} (h : decodeIterated body decode vec = .ok entries) :
    ∃ n, size body vec = .ok n ∧ List.Forall₂ (fun i entry => ∃ p x,
      element body vec i = .ok p ∧ decode p = .ok x ∧ entry = some x)
        (List.range (turns n)) entries := by
  obtain ⟨n, hn, h⟩ := bind_eq_ok.mp h
  exact ⟨n, hn, decodedElements h⟩

theorem optional_eq_ok {α : Type} {decode : Int → Read α} {table : Int} {field : Nat}
    {x : Option α} (h : optional body decode table field = .ok x) :
    (getPointer body table field = .ok none ∧ x = none) ∨
      ∃ p a, getPointer body table field = .ok (some p) ∧ decode p = .ok a ∧ x = some a := by
  obtain ⟨p, hp, h⟩ := bind_eq_ok.mp h
  cases p with
  | none => exact .inl ⟨hp, (Except.ok.inj h).symm⟩
  | some p =>
    obtain ⟨a, ha, rfl⟩ := map_eq_ok.mp h
    exact .inr ⟨p, a, hp, ha, rfl⟩

theorem rowDoc_of_decode (h : decodeRow body p = .ok row) (noPk : String) :
    rowDoc body Y schema noPk p = responded (Db.rowDoc Y schema noPk row) := by
  have hrow : applyRowToDoc body Y schema Y.newDoc p =
      responded (Db.applyRowToDoc Y schema Y.newDoc row) := by
    obtain ⟨fields, hfields, rfl⟩ := map_eq_ok.mp h
    unfold applyRowToDoc
    rcases optional_eq_ok hfields with ⟨hnull, rfl⟩ | ⟨vec, entries, hvec, hentries, rfl⟩
    · rw [reading_ok hnull]
      rfl
    · obtain ⟨n, hn, hall⟩ := decodeIterated_eq_ok hentries
      rw [reading_ok hvec, ok_bind]
      dsimp only
      rw [reading_ok hn, ok_bind]
      exact foldlM_applyEntry hall Y.newDoc
  rw [rowDoc, hrow, Db.rowDoc]
  cases Db.applyRowToDoc Y schema Y.newDoc row with
  | error err => rfl
  | ok doc =>
    show (if _ then _ else _) = _
    dsimp only
    split <;> rfl

/-- A text is empty exactly when its size is zero. -/
theorem text_size {name : String} (h : text body p = .ok name) :
    ∃ n, size body p = .ok n ∧ (n = 0 ↔ name = "") := by
  obtain ⟨bs, hbs, rfl⟩ := map_eq_ok.mp h
  obtain ⟨n, hn, hbytes⟩ := bind_eq_ok.mp hbs
  refine ⟨n, hn, ?_⟩
  rw [← length_bytes hbytes, List.length_eq_zero_iff, textOf, ← String.toList_inj,
    String.toList_ofList]
  exact List.map_eq_nil_iff.symm

/-- `AcquireOrError` on a name that can be read. -/
theorem acquireOrError_of_decode {name : String} (h : text body p = .ok name) :
    acquireOrError body acquire (some p) =
      (Db.acquireOrError acquire (some name)).mapError .stop := by
  obtain ⟨n, hn, hempty⟩ := text_size h
  rw [acquireOrError, reading_ok hn, ok_bind, Db.acquireOrError]
  by_cases hzero : n = 0
  · rw [if_pos hzero, if_pos (hempty.mp hzero)]
    rfl
  · rw [if_neg hzero, if_neg (mt hempty.mpr hzero), reading_ok h, ok_bind]
    cases acquire name <;> rfl

/-- The start of a handler on a body that holds a request. -/
theorem begin_of_decode (acquire : String → Option Schema) {α : Type} {decode : Int → Read α}
    {first : Option α} {tableName : Option String} (h : decodeRequest body decode = .ok (first, tableName))
    (missing : String) :
    (first = none ∧ begin body acquire missing = refuse missing) ∨
      ∃ p a, first = some a ∧ decode p = .ok a ∧ begin body acquire missing =
        ((Db.acquireOrError acquire tableName).mapError Fault.stop).map fun schema =>
          (schema, p) := by
  obtain ⟨root, hroot, h⟩ := bind_eq_ok.mp h
  obtain ⟨first', hfirst, h⟩ := bind_eq_ok.mp h
  obtain ⟨name, hname, ⟨rfl⟩⟩ := bind_eq_ok.mp h
  unfold begin
  rw [reading_ok hroot, ok_bind]
  rcases optional_eq_ok hfirst with ⟨hnull, rfl⟩ | ⟨p, a, hp, ha, rfl⟩
  · rw [reading_ok hnull]
    exact .inl ⟨rfl, rfl⟩
  · refine .inr ⟨p, a, rfl, ha, ?_⟩
    rw [reading_ok hp, ok_bind]
    dsimp only
    rcases optional_eq_ok hname with ⟨hnull, rfl⟩ | ⟨q, name, hq, htext, rfl⟩
    · rw [reading_ok hnull]
      rfl
    · rw [reading_ok hq, ok_bind, acquireOrError_of_decode htext]
      cases Db.acquireOrError acquire (some name) <;> rfl

theorem mapM_stageRow {rows : Int} {indices : List Nat} {entries : List (Option Row)}
    (h : List.Forall₂ (fun i entry => ∃ p x,
      element body rows i = .ok p ∧ decodeRow body p = .ok x ∧ entry = some x) indices entries) :
    indices.mapM (stageRow body Y schema rows) = responded (Db.stageRows Y schema entries) := by
  induction h with
  | nil => rfl
  | cons hentry _ ih =>
    obtain ⟨p, row, hp, hrow, rfl⟩ := hentry
    rw [List.mapM_cons, stageRow, reading_ok hp, ok_bind, rowDoc_of_decode hrow, ih, Db.stageRows]
    cases Db.rowDoc Y schema "cannot derive pk" row with
    | error err => rfl
    | ok doc => cases Db.stageRows Y schema _ <;> rfl

theorem batchGetRows_of_decode {pks : Int} {indices : List Nat} {keys : List (Option String)}
    (h : List.Forall₂ (fun i key => ∃ p pk,
      element body pks i = .ok p ∧ text body p = .ok pk ∧ key = some pk) indices keys) :
    batchGetRows body Y schema pks indices =
      (Db.batchGetRows Y schema keys).mapError Fault.stop := by
  induction h with
  | nil => rfl
  | cons hkey _ ih =>
    obtain ⟨p, pk, hp, hpk, rfl⟩ := hkey
    rw [batchGetRows, Db.batchGetRows, hp, ok_bind, reading_ok hpk, ih]
    simp only [Prog.lift_ok, Prog.pure_bind', Prog.perform_bind, Prog.mapError_step,
      Prog.mapError_bind]
    refine congrArg (Prog.step _) (funext fun hit => congrArg (_ >>= ·) (funext fun rows => ?_))
    cases hit <;> rfl

theorem locked_of_decode (work : Except String (Yikv.KvOp Y)) :
    locked Y (responded work) = (Db.locked Y work).mapError Fault.stop := by
  cases work <;> rfl

theorem handleGet_of_decode {pk tableName : Option String}
    (h : decodeRequest body (text body) = .ok (pk, tableName)) :
    handleGet body Y acquire = (Db.handleGet Y acquire ⟨pk, tableName⟩).mapError Fault.stop := by
  rcases begin_of_decode acquire h "missing pk" with
    ⟨rfl, hbegin⟩ | ⟨p, pk, rfl, htext, hbegin⟩
  · rw [handleGet, hbegin]
    rfl
  · rw [handleGet, hbegin, Db.handleGet]
    cases Db.acquireOrError acquire tableName with
    | error e => rfl
    | ok schema =>
      simp only [Except.mapError, Except.map, reading_ok htext, Prog.lift_ok, Prog.pure_bind',
        Prog.perform_bind, Prog.mapError_step]
      refine congrArg (Prog.step _) (funext fun hit => ?_)
      cases hit <;> rfl

theorem handlePut_of_decode {row : Option Row} {tableName : Option String}
    (h : decodeRequest body (decodeRow body) = .ok (row, tableName)) :
    handlePut body Y acquire =
      (Db.handlePut Y acquire ⟨row, tableName⟩).mapError Fault.stop := by
  rcases begin_of_decode acquire h "missing row" with
    ⟨rfl, hbegin⟩ | ⟨p, row, rfl, hrow, hbegin⟩
  · rw [handlePut, hbegin]
    rfl
  · rw [handlePut, hbegin, Db.handlePut]
    cases Db.acquireOrError acquire tableName with
    | error e => rfl
    | ok schema =>
      simp only [Except.mapError, Except.map, Prog.lift_ok, Prog.pure_bind']
      rw [rowDoc_of_decode hrow, ← locked_of_decode]
      cases Db.rowDoc Y schema _ row <;> rfl

theorem handlePutBatch_of_decode {rows : Option (List (Option Row))} {tableName : Option String}
    (h : decodeRequest body (decodeElements body (decodeRow body)) = .ok (rows, tableName)) :
    handlePutBatch body Y acquire =
      (Db.handlePutBatch Y acquire ⟨rows, tableName⟩).mapError Fault.stop := by
  rcases begin_of_decode acquire h "missing rows" with
    ⟨rfl, hbegin⟩ | ⟨p, rows, rfl, hrows, hbegin⟩
  · rw [handlePutBatch, hbegin]
    rfl
  · obtain ⟨n, hn, hall⟩ := decodeElements_eq_ok hrows
    have hempty : rows = [] ↔ n = 0 := by
      rw [← List.length_eq_zero_iff, ← hall.length_eq, List.length_range]
    rw [handlePutBatch, hbegin, Db.handlePutBatch]
    cases Db.acquireOrError acquire tableName with
    | error e => rfl
    | ok schema =>
      simp only [Except.mapError, Except.map, reading_ok hn, Prog.lift_ok, Prog.pure_bind']
      by_cases hzero : n = 0
      · rw [if_pos hzero, if_pos (hempty.mpr hzero)]
        rfl
      · rw [if_neg hzero, if_neg (mt hempty.mp hzero), mapM_stageRow hall, ← locked_of_decode]
        cases Db.stageRows Y schema rows <;> rfl

theorem handleBatchGet_of_decode {pks : Option (List (Option String))} {tableName : Option String}
    (h : decodeRequest body (decodeElements body (text body)) = .ok (pks, tableName)) :
    handleBatchGet body Y acquire =
      (Db.handleBatchGet Y acquire ⟨pks, tableName⟩).mapError Fault.stop := by
  rcases begin_of_decode acquire h "missing pks" with
    ⟨rfl, hbegin⟩ | ⟨p, pks, rfl, hpks, hbegin⟩
  · rw [handleBatchGet, hbegin]
    rfl
  · obtain ⟨n, hn, hall⟩ := decodeElements_eq_ok hpks
    rw [handleBatchGet, hbegin, Db.handleBatchGet]
    cases Db.acquireOrError acquire tableName with
    | error e => rfl
    | ok schema =>
      simp only [Except.mapError, Except.map, reading_ok hn, Prog.lift_ok, Prog.pure_bind',
        batchGetRows_of_decode hall, Prog.mapError_bind]
      rfl

/-- The handlers do on a body what they do on the request that it holds. -/
theorem handle_of_decode {method : Method} {req : Request} (h : decode body method = .ok req) :
    handle Y acquire method body = (req.handle Y acquire).mapError Fault.stop := by
  cases method with
  | get =>
    obtain ⟨_, hreq, rfl⟩ := map_eq_ok.mp h
    rw [handle, handleGet_of_decode hreq, Request.handle, Prog.mapError_bind]
    rfl
  | put =>
    obtain ⟨_, hreq, rfl⟩ := map_eq_ok.mp h
    rw [handle, handlePut_of_decode hreq, Request.handle, Prog.mapError_bind]
    rfl
  | putBatch =>
    obtain ⟨_, hreq, rfl⟩ := map_eq_ok.mp h
    rw [handle, handlePutBatch_of_decode hreq, Request.handle, Prog.mapError_bind]
    rfl
  | batchGet =>
    obtain ⟨_, hreq, rfl⟩ := map_eq_ok.mp h
    rw [handle, handleBatchGet_of_decode hreq, Request.handle, Prog.mapError_bind]
    rfl

end Refinement

/-- A body that `Verify` accepts holds a request. -/
theorem inside_decode {body : Buffer} {method : Method} (h : wellFormed body method = true) :
    Inside (decode body method) := by
  obtain ⟨root, hroot, hfirst, hname⟩ := wellFormed_root h
  cases method with
  | get =>
    simp only [verifyFirst, Bool.and_eq_true] at hfirst
    exact inside_map (inside_decodeRequest hroot
      (inside_required hfirst.1 hfirst.2 fun _ => inside_text) hname) _
  | put =>
    simp only [verifyFirst, Bool.and_eq_true] at hfirst
    exact inside_map (inside_decodeRequest hroot
      (inside_required hfirst.1 hfirst.2 fun _ => inside_decodeRow) hname) _
  | putBatch =>
    simp only [verifyFirst, Bool.and_eq_true] at hfirst
    exact inside_map (inside_decodeRequest hroot (inside_required hfirst.1 hfirst.2
      fun _ hrows => inside_decodeElements hrows fun _ => inside_decodeRow) hname) _
  | batchGet =>
    exact inside_map (inside_decodeRequest hroot (inside_optional_at hfirst
      fun _ hpks => inside_decodeElements hpks fun _ => inside_text) hname) _

/-- On a body that `Verify` accepts, the handlers do what they do on a request. -/
theorem handle_of_wellFormed {body : Buffer} {method : Method}
    (h : wellFormed body method = true) :
    ∃ req : Request, ∀ (Y : Yikv) (acquire : String → Option Schema),
      handle Y acquire method body = (req.handle Y acquire).mapError Fault.stop := by
  obtain ⟨req, hreq⟩ := inside_decode h
  exact ⟨req, fun _ _ => handle_of_decode hreq⟩

/-- A `GetRequest` of pk `7` in table `t`: the root's offset, a vtable, the table, two texts. -/
def getBody : Buffer :=
  [12, 0, 0, 0, 8, 0, 12, 0, 4, 0, 8, 0, 8, 0, 0, 0, 8, 0, 0, 0, 12, 0, 0, 0,
    1, 0, 0, 0, 55, 0, 0, 0, 1, 0, 0, 0, 116, 0, 0, 0]

example : wellFormed getBody .get = true ∧ decode getBody .get = .ok (.get ⟨some "7", some "t"⟩) :=
  ⟨by decide +kernel, rfl⟩

end YikvServer.Db.Wire
