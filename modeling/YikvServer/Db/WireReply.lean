import YikvServer.Db.WireRoundTrip

/-!
# Replies, there and back

What a client reads of a reply with the generated accessors, the generated `Verify` of each
response, and that a reply is accepted and read as it was built.
-/
namespace YikvServer.Db.Wire

open YikvServer.Theory YikvServer.Theory.FlatBuffers YikvServer.Index YikvServer.Stream

/-- What is in a reply. -/
inductive Reply where
  | get (resp : GetResponse) (indexGetNs : UInt64)
  | put (ok : Bool) (err : Option String)
  | putBatch (ok : Bool) (err : Option String)
  | batchGet (rows : Option (List (Option Row))) (err : Option String)

/-! ## Reading and verifying -/

section Buffer
variable (buf : Buffer)

/-- `GetField<uint8_t>(…, 0) != 0`. -/
def flag (resp : Int) (field : Nat) : Read Bool :=
  (FlatBuffers.getField buf 1 resp field).map fun n => n ≠ 0

def decodeGetResponse (resp : Int) : Read Reply := do
  let found ← flag buf resp 4
  let err ← optional buf (text buf) resp 6
  let row ← optional buf (decodeRow buf) resp 8
  let indexGetNs ← (FlatBuffers.getField buf 8 resp 10).map UInt64.ofNat
  pure (.get ⟨found, err, row⟩ indexGetNs)

/-- The fields of a `PutResponse`, and of a `PutBatchResponse`. -/
def decodePutResponse (make : Bool → Option String → Reply) (resp : Int) : Read Reply := do
  let ok ← flag buf resp 4
  let err ← optional buf (text buf) resp 6
  pure (make ok err)

def decodeBatchGetResponse (resp : Int) : Read Reply := do
  let rows ← optional buf (decodeElements buf (decodeRow buf)) resp 4
  let err ← optional buf (text buf) resp 6
  pure (.batchGet rows err)

def decodeResponse (method : Method) (resp : Int) : Read Reply :=
  match method with
  | .get => decodeGetResponse buf resp
  | .put => decodePutResponse buf .put resp
  | .putBatch => decodePutResponse buf .putBatch resp
  | .batchGet => decodeBatchGetResponse buf resp

def decodeReply (method : Method) : Read Reply := do
  let resp ← getRoot buf
  decodeResponse buf method resp

def verifyGetResponse (resp : Int) : Bool :=
  verifyTableStart buf resp &&
  verifyField buf 1 resp 4 &&
  verifyAt buf (verifyString buf) resp 6 &&
  verifyAt buf (verifyRow buf) resp 8 &&
  verifyField buf 8 resp 10

def verifyPutResponse (resp : Int) : Bool :=
  verifyTableStart buf resp &&
  verifyField buf 1 resp 4 &&
  verifyAt buf (verifyString buf) resp 6

def verifyBatchGetResponse (resp : Int) : Bool :=
  verifyTableStart buf resp &&
  verifyAt buf (verifyElements buf (verifyRow buf)) resp 4 &&
  verifyAt buf (verifyString buf) resp 6

def verifyResponse (method : Method) : Int → Bool :=
  match method with
  | .get => verifyGetResponse buf
  | .put | .putBatch => verifyPutResponse buf
  | .batchGet => verifyBatchGetResponse buf

/-- A FlatBuffer of the method's response type. -/
def wellFormedReply (method : Method) : Bool := verifyBuffer buf (verifyResponse buf method)

end Buffer

/-! ## Building -/

/-- A reply, on a builder: what it carries, in the order of the handlers, and its table. -/
def packReply : Reply → Build Nat
  | .get resp indexGetNs => do
    let er ← createOptional createText resp.err
    let row ← createOptional packRow resp.row
    createGetResponse resp.found er row indexGetNs
  | .put ok err => do
    let es ← createOptional createText err
    createPutResponse ok es
  | .putBatch ok err => do
    let es ← createOptional createText err
    createPutBatchResponse ok es
  | .batchGet rows err => do
    let offs ← (rows.getD []).mapM (createEntry packRow)
    let es ← createOptional createText err
    let rows ← createOptional (fun _ => createVectorOfOffsets offs) rows
    createBatchGetResponse rows es

namespace Reply

def method : Reply → Method
  | get _ _ => .get
  | put _ _ => .put
  | putBatch _ _ => .putBatch
  | batchGet _ _ => .batchGet

def Sendable : Reply → Prop
  | get resp _ => (∀ t ∈ resp.err, ByteText t) ∧ ∀ row ∈ resp.row, row.Sendable
  | put _ err => ∀ t ∈ err, ByteText t
  | putBatch _ err => ∀ t ∈ err, ByteText t
  | batchGet rows err => (∀ row ∈ rows.getD [], Entry Row.Sendable row) ∧ ∀ t ∈ err, ByteText t

/-- A reply as it arrives. -/
def received : Reply → Reply
  | get resp indexGetNs => .get { resp with row := resp.row.map Row.received } indexGetNs
  | batchGet rows err => .batchGet (rows.map fun rows => rows.map fun row => row.map Row.received)
      err
  | reply => reply

/-- The bytes that a reply takes at most. -/
def weight : Reply → Nat
  | get resp _ => resp.err.elim 0 textWeight + (resp.row.elim 0 Row.weight + 81)
  | put _ err => err.elim 0 textWeight + 47
  | putBatch _ err => err.elim 0 textWeight + 47
  | batchGet rows err => ((rows.getD []).map fun row => row.elim 0 Row.weight).sum +
      (err.elim 0 textWeight + (4 * (rows.getD []).length + 17 + 47))

end Reply

/-! ## What is built is read -/

section Responses
variable {b : Builder}

theorem flag_of_element {adds : List Add} {buf : Buffer} {p : Int} {field : Nat} {v : Bool}
    (h : HasFields adds buf p) (i : Nat)
    (hadd : adds[i]? = some (.element 1 field v.toNat (v = false))) :
    flag buf p field = .ok v ∧ verifyField buf 1 p field = true :=
  scalar_of_element h i hadd (by cases v <;> rfl)

theorem ends_createGetResponse (h : Idle b) {er row : Nat} {found : Bool} {err : Option String}
    {r : Option Row} (indexGetNs : UInt64) (her : Pointed b er text verifyString err)
    (hrow : Pointed b row decodeRow verifyRow r) :
    Ends (createGetResponse found er row indexGetNs) b fun o b' => Advances b b' 81 ∧
      8 ≤ b'.size ∧ Placed b' o (Holds decodeGetResponse verifyGetResponse
        (.get ⟨found, err, r⟩ indexGetNs)) := by
  have hfits : ∀ a ∈ getResponseAdds found er row indexGetNs, a.Fits b := by
    simp only [getResponseAdds, List.forall_mem_cons, List.not_mem_nil, false_imp_iff,
      implies_true, and_true]
    exact ⟨⟨by decide, indexGetNs.toNat_lt⟩, hrow.le, her.le, by decide, by cases found <;> decide⟩
  have hfields : Fields 10 (getResponseAdds found er row indexGetNs) :=
    .of_slots [10, 8, 6, 4] rfl (by decide)
  refine (ends_createTable h hfits hfields).imp ?_
  rintro o b' ⟨hadvances, hsize, hplaced, -⟩
  refine ⟨hadvances, hsize, hplaced.imp fun whole hwhole hhas => ?_⟩
  have hbefore : Within b whole := hwhole.of_grows hadvances.grows
  obtain ⟨hns, hns'⟩ := scalar_of_element hhas 0 rfl (ofNat_default
    (UInt64.ofNat_toNat : _ = indexGetNs) fun h => (of_decide_eq_true h).symm)
  obtain ⟨hrow, hrow'⟩ := optional_of_pointed hhas 1 rfl hrow hbefore
  obtain ⟨herr, herr'⟩ := optional_of_pointed hhas 2 rfl her hbefore
  obtain ⟨hfound, hfound'⟩ := flag_of_element hhas 3 rfl
  constructor
  · exact bind_eq_ok.mpr ⟨_, hfound, bind_eq_ok.mpr ⟨_, herr, bind_eq_ok.mpr ⟨_, hrow,
      bind_eq_ok.mpr ⟨_, hns, rfl⟩⟩⟩⟩
  · simp only [verifyGetResponse, hhas.start, hfound', herr', hrow', hns', Bool.and_self]

theorem ends_createPutResponse (h : Idle b) {es : Nat} {ok : Bool} {err : Option String}
    (make : Bool → Option String → Reply) (hes : Pointed b es text verifyString err) :
    Ends (createTable (putResponseAdds ok es)) b fun o b' => Advances b b' 47 ∧ 8 ≤ b'.size ∧
      Placed b' o (Holds (fun buf => decodePutResponse buf make) verifyPutResponse
        (make ok err)) := by
  have hfits : ∀ a ∈ putResponseAdds ok es, a.Fits b := by
    simp only [putResponseAdds, List.forall_mem_cons, List.not_mem_nil, false_imp_iff,
      implies_true, and_true]
    exact ⟨hes.le, by decide, by cases ok <;> decide⟩
  have hfields : Fields 6 (putResponseAdds ok es) := .of_slots [6, 4] rfl (by decide)
  refine (ends_createTable h hfits hfields).imp ?_
  rintro o b' ⟨hadvances, hsize, hplaced, -⟩
  refine ⟨hadvances, hsize, hplaced.imp fun whole hwhole hhas => ?_⟩
  obtain ⟨herr, herr'⟩ := optional_of_pointed hhas 0 rfl hes (hwhole.of_grows hadvances.grows)
  obtain ⟨hok, hok'⟩ := flag_of_element hhas 1 rfl
  constructor
  · exact bind_eq_ok.mpr ⟨_, hok, bind_eq_ok.mpr ⟨_, herr, rfl⟩⟩
  · simp only [verifyPutResponse, hhas.start, hok', herr', Bool.and_self]

theorem ends_createBatchGetResponse (h : Idle b) {rows es : Nat} {err : Option String}
    {rs : Option (List (Option Row))}
    (hrows : Pointed b rows (fun buf => decodeElements buf (decodeRow buf))
      (fun buf => verifyElements buf (verifyRow buf)) rs)
    (hes : Pointed b es text verifyString err) :
    Ends (createBatchGetResponse rows es) b fun o b' => Advances b b' 47 ∧ 8 ≤ b'.size ∧
      Placed b' o (Holds decodeBatchGetResponse verifyBatchGetResponse (.batchGet rs err)) := by
  have hfits : ∀ a ∈ batchGetResponseAdds rows es, a.Fits b := by
    simp only [batchGetResponseAdds, List.forall_mem_cons, List.not_mem_nil, false_imp_iff,
      implies_true, and_true]
    exact ⟨hes.le, hrows.le⟩
  have hfields : Fields 6 (batchGetResponseAdds rows es) := .of_slots [6, 4] rfl (by decide)
  refine (ends_createTable h hfits hfields).imp ?_
  rintro o b' ⟨hadvances, hsize, hplaced, -⟩
  refine ⟨hadvances, hsize, hplaced.imp fun whole hwhole hhas => ?_⟩
  have hbefore : Within b whole := hwhole.of_grows hadvances.grows
  obtain ⟨herr, herr'⟩ := optional_of_pointed hhas 0 rfl hes hbefore
  obtain ⟨hrows, hrows'⟩ := optional_of_pointed hhas 1 rfl hrows hbefore
  constructor
  · exact bind_eq_ok.mpr ⟨_, hrows, bind_eq_ok.mpr ⟨_, herr, rfl⟩⟩
  · simp only [verifyBatchGetResponse, hhas.start, herr', hrows', Bool.and_self]

theorem ends_createErr (h : Idle b) {err : Option String} (herr : ∀ t ∈ err, ByteText t) :
    Ends (createOptional createText err) b fun o b' => Advances b b' (err.elim 0 textWeight) ∧
      Pointed b' o text verifyString err :=
  ends_createSome h fun t ht => ends_createText h (herr t ht)

/-- The rows first, then the text, and then the vector of where the rows are. -/
theorem ends_packBatchGet (h : Idle b) {rows : Option (List (Option Row))} {err : Option String}
    (hrows : ∀ row ∈ rows.getD [], Entry Row.Sendable row) (herr : ∀ t ∈ err, ByteText t) :
    Ends (packReply (.batchGet rows err)) b fun o b' =>
      Advances b b' (Reply.batchGet rows err).weight ∧ 8 ≤ b'.size ∧
        Placed b' o (Holds decodeBatchGetResponse verifyBatchGetResponse
          (Reply.batchGet rows err).received) := by
  refine ends_bind.mpr ((ends_mapM h fun row hrow b hb => ends_createEntry hb (hrows row hrow)
    fun r hr b hb => (ends_packRow hb hr).imp fun _ _ ⟨hadvances, _, hplaced⟩ =>
      ⟨hadvances, hplaced⟩).imp fun offs b₁ ⟨h₁, hoffs⟩ => ?_)
  refine ends_bind.mpr ((ends_createErr h₁.idle herr).imp fun es b₂ ⟨h₂, hes⟩ => ?_)
  have hlength : offs.length = (rows.getD []).length :=
    hoffs.length_eq.trans (List.length_map _)
  have hoffs₂ := hoffs.imp fun _ _ hplaced => hplaced.of_grows h₂.grows
  have hvector : ∀ rs, rows = some rs → Ends (createVectorOfOffsets offs) b₂ fun o b' =>
      Advances b₂ b' (4 * (rows.getD []).length + 17) ∧
        Placed b' o (Holds (fun buf => decodeElements buf (decodeRow buf))
          (fun buf => verifyElements buf (verifyRow buf))
          (rs.map fun row => row.map Row.received)) := by
    rintro rs rfl
    rw [← hlength]
    exact ends_createVectorOfOffsets h₂.idle hoffs₂
  refine ends_bind.mpr ((ends_createOptional h₂.idle hvector).imp fun vec b₃ ⟨h₃, hvec⟩ => ?_)
  refine (ends_createBatchGetResponse h₃.idle hvec (hes.of_grows h₃.grows)).imp
    fun o b' ⟨hadvances, hbound, hplaced⟩ => ⟨?_, hbound, hplaced⟩
  have hle : rows.elim 0 (fun _ => 4 * (rows.getD []).length + 17) ≤
      4 * (rows.getD []).length + 17 := by
    cases rows with
    | none => exact Nat.zero_le _
    | some rs => exact le_rfl
  exact h₁.trans (h₂.trans ((h₃.le hle).trans hadvances))

/-- A reply that can be sent is built, and it is of the method's type and arrives, if it is
not too long for a buffer. -/
theorem reply_arrives {reply : Reply} (h : reply.Sendable) (hsize : reply.weight + 16 ≤ maxSize) :
    ∃ buf, built (packReply reply) = some buf ∧ wellFormedReply buf reply.method = true ∧
      decodeReply buf reply.method = .ok reply.received := by
  have hends : Ends (packReply reply) {} fun o b => Advances {} b reply.weight ∧ 8 ≤ b.size ∧
      Placed b o (Holds (fun buf => decodeResponse buf reply.method)
        (fun buf => verifyResponse buf reply.method) reply.received) := by
    cases reply with
    | get resp indexGetNs =>
      refine ends_bind.mpr ((ends_createErr .initial h.1).imp fun er b₁ ⟨h₁, her⟩ => ?_)
      refine ends_bind.mpr ((ends_createOptional h₁.idle fun row hrow =>
        (ends_packRow h₁.idle (h.2 row hrow)).imp fun _ _ ⟨hadvances, _, hplaced⟩ =>
          ⟨hadvances, hplaced⟩).imp fun row b₂ ⟨h₂, hrow⟩ => ?_)
      exact (ends_createGetResponse h₂.idle indexGetNs (her.of_grows h₂.grows) hrow).imp
        fun o b ⟨hadvances, hbound, hplaced⟩ => ⟨h₁.trans (h₂.trans hadvances), hbound, hplaced⟩
    | put ok err =>
      refine ends_bind.mpr ((ends_createErr .initial h).imp fun es b₁ ⟨h₁, hes⟩ => ?_)
      exact (ends_createPutResponse h₁.idle .put hes).imp
        fun o b ⟨hadvances, hbound, hplaced⟩ => ⟨h₁.trans hadvances, hbound, hplaced⟩
    | putBatch ok err =>
      refine ends_bind.mpr ((ends_createErr .initial h).imp fun es b₁ ⟨h₁, hes⟩ => ?_)
      exact (ends_createPutResponse h₁.idle .putBatch hes).imp
        fun o b ⟨hadvances, hbound, hplaced⟩ => ⟨h₁.trans hadvances, hbound, hplaced⟩
    | batchGet rows err => exact ends_packBatchGet .initial h.1 h.2
  obtain ⟨buf, hbuilt, hverify, p, hroot, hread⟩ := built_holds hends hsize
  exact ⟨buf, hbuilt, hverify, bind_eq_ok.mpr ⟨p, hroot, hread⟩⟩

end Responses

end YikvServer.Db.Wire
