import YikvServer.Db.WireTexts

/-!
# The service over whole runs

The tables of a server, and calls one after another on bytes and on requests. Whatever the
tables hold was stored through the service or has texts of bytes, and each reply on bytes is
that on the request, as it arrives.
-/
namespace YikvServer.Db

open YikvServer.Theory YikvServer.Theory.FlatBuffers YikvServer.Index YikvServer.Stream Wire

/-! ## Tables -/

/-- A table that is registered: its schema, and the contents of its index. -/
structure Slot (Y : Yikv) where
  schema : Schema
  index : Y.Contents

/-- The registered tables, by name. -/
abbrev Tables (Y : Yikv) := String → Option (Slot Y)

namespace Tables
variable {Y : Yikv}

def acquire (ts : Tables Y) (name : String) : Option Schema := (ts name).map Slot.schema

/-- What an index call gives that is not made. -/
def absent : (o : Y.KvOp) → Yikv.KvOp.Res Y o
  | .get _ => none
  | .put _ | .upsert _ | .batchUpsert _ | .delete _ | .lock | .unlock => ()

/-- An index call of a handler, on the slot that it acquired. -/
def exec (name : String) (o : Y.KvOp) (ts : Tables Y) : Yikv.KvOp.Res Y o × Tables Y :=
  match ts name with
  | none => (absent o, ts)
  | some slot =>
    let r := Y.exec slot.schema o slot.index
    (r.1, Function.update ts name (some { slot with index := r.2 }))

end Tables

namespace Wire

def Request.tableName : Request → Option String
  | get req => req.tableName
  | put req => req.tableName
  | putBatch req => req.tableName
  | batchGet req => req.tableName

/-- The name of the table that a body asks for. -/
def tableOf (body : Buffer) : String :=
  match getRoot body >>= fun root => optional body (text body) root 6 with
  | .ok name => name.getD ""
  | .error _ => ""

/-- A call on bytes: the method, the payload, and the time that the lookup took. -/
structure Call where
  method : Method
  body : Buffer
  indexGetNs : UInt64

section Calls
variable {Y : Yikv}

def Call.run (c : Call) (ts : Tables Y) : Except Crash Buffer × Tables Y :=
  Prog.run (Tables.exec (tableOf c.body)) (serve Y ts.acquire c.indexGetNs c.method c.body) ts

/-- The calls of a run, one after another. -/
def runCalls (ts : Tables Y) : List Call → List (Except Crash Buffer) × Tables Y
  | [] => ([], ts)
  | c :: rest =>
    let (out, ts) := c.run ts
    let (outs, ts) := runCalls ts rest
    (out :: outs, ts)

/-- The service on a request. -/
def Request.run (req : Request) (indexGetNs : UInt64) (ts : Tables Y) :
    Except Stop Reply × Tables Y :=
  Prog.run (Tables.exec (req.tableName.getD "")) (req.serve Y ts.acquire indexGetNs) ts

def runRequests (ts : Tables Y) : List (Request × UInt64) → List (Except Stop Reply) × Tables Y
  | [] => ([], ts)
  | (req, indexGetNs) :: rest =>
    let (out, ts) := req.run indexGetNs ts
    let (outs, ts) := runRequests ts rest
    (out :: outs, ts)

theorem runCalls_cons (ts : Tables Y) (c : Call) (rest : List Call) :
    runCalls ts (c :: rest) =
      ((c.run ts).1 :: (runCalls (c.run ts).2 rest).1, (runCalls (c.run ts).2 rest).2) := rfl

theorem runRequests_cons (ts : Tables Y) (req : Request) (indexGetNs : UInt64)
    (rest : List (Request × UInt64)) :
    runRequests ts ((req, indexGetNs) :: rest) =
      ((req.run indexGetNs ts).1 :: (runRequests (req.run indexGetNs ts).2 rest).1,
        (runRequests (req.run indexGetNs ts).2 rest).2) := rfl

end Calls

/-! ## A program on one slot -/

section Slots
variable {Y : Yikv} {ts : Tables Y} {slot : Slot Y} {name : String} {ε α : Type}

theorem update_slot (h : ts name = some slot) :
    Function.update ts name (some slot) = ts := by
  rw [← h, Function.update_eq_self]

/-- A program on the tables is one on the slot that is there. -/
theorem run_tables (p : Prog ε (Yikv.KvOp.Res Y) α) (h : ts name = some slot) :
    Prog.run (Tables.exec name) p ts =
      ((Prog.run (Y.exec slot.schema) p slot.index).1, Function.update ts name
        (some { slot with index := (Prog.run (Y.exec slot.schema) p slot.index).2 })) := by
  induction p generalizing ts slot with
  | pure a => exact Prod.ext rfl (update_slot h).symm
  | fail e => exact Prod.ext rfl (update_slot h).symm
  | step o k ih =>
    have hexec : Tables.exec name o ts = ((Y.exec slot.schema o slot.index).1, Function.update ts
        name (some { slot with index := (Y.exec slot.schema o slot.index).2 })) := by
      unfold Tables.exec
      rw [h]
    rw [Prog.run_step, hexec, ih _ (Function.update_self ..), Function.update_idem]
    rfl

end Slots
end Wire

/-! ## A request keeps texts of bytes -/

/-- Contents whose documents have texts of bytes. -/
def ByteContents (Y : Yikv) (schema : Schema) (idx : Y.Contents) : Prop :=
  ∀ k doc, idx k = some doc → ByteDoc Y schema doc

section Replies
variable {Y : Yikv} {schema : Schema} {acquire : String → Option Schema} {indexGetNs : UInt64}
  {idx : Y.Contents} {req : Wire.Request} {doc : Y.Doc} {docs : List Y.Doc}

theorem ByteContents.upsert (h : ByteContents Y schema idx) (hdoc : ByteDoc Y schema doc) :
    ByteContents Y schema (Y.upsert schema idx doc) := by
  intro k d hd
  rw [Yikv.upsert_apply] at hd
  split at hd
  · exact Option.some.inj hd ▸ hdoc
  · exact h k d hd

theorem ByteContents.batchUpsert (h : ByteContents Y schema idx)
    (hdocs : ∀ doc ∈ docs, ByteDoc Y schema doc) :
    ByteContents Y schema (Y.batchUpsert schema idx docs) := by
  induction docs generalizing idx with
  | nil => exact h
  | cons doc rest ih =>
    obtain ⟨hdoc, hrest⟩ := List.forall_mem_cons.mp hdocs
    exact ih (h.upsert hdoc) hrest

/-- The service replies to a request with what can be sent, and leaves contents of byte texts. -/
def Replies (Y : Yikv) (schema : Schema) (acquire : String → Option Schema) (indexGetNs : UInt64)
    (req : Wire.Request) (idx : Y.Contents) : Prop :=
  let r := Prog.run (Y.exec schema) (req.serve Y acquire indexGetNs) idx
  ∃ reply, r.1 = .ok reply ∧ reply.method = req.method ∧ reply.Sendable ∧
    ByteContents Y schema r.2

theorem refused_sendable (method : Method) {msg : String} (h : ByteText msg) :
    (Reply.refused method msg).method = method ∧ (Reply.refused method msg).Sendable := by
  have hmsg : ∀ t ∈ some msg, ByteText t := fun t ht => Option.some.inj ht ▸ h
  cases method
  case get => exact ⟨rfl, hmsg, fun _ h => (nomatch h)⟩
  case batchGet => exact ⟨rfl, fun _ h => (nomatch h), hmsg⟩
  all_goals exact ⟨rfl, hmsg⟩

section Run
variable {σ : Type} {exec : (o : Y.KvOp) → σ → Yikv.KvOp.Res Y o × σ} {s t : σ}

theorem run_serve_refused {msg : String}
    (h : Prog.run exec (req.handle Y acquire) s = (.error (.refused msg), t)) :
    Prog.run exec (req.serve Y acquire indexGetNs) s = (.ok (.refused req.method msg), t) := by
  simp only [Wire.Request.serve, Prog.run_handle, Prog.run_bind, h]
  rfl

theorem run_serve_reply {resp : Response}
    (h : Prog.run exec (req.handle Y acquire) s = (.ok resp, t)) :
    Prog.run exec (req.serve Y acquire indexGetNs) s = (.ok (resp.reply indexGetNs), t) := by
  simp only [Wire.Request.serve, Prog.run_handle, Prog.run_bind, h]
  rfl

end Run

theorem replies_refused (msg : String) (idx' : Y.Contents)
    (h : Prog.run (Y.exec schema) (req.handle Y acquire) idx = (.error (.refused msg), idx'))
    (hmsg : ByteText msg) (hidx : ByteContents Y schema idx') :
    Replies Y schema acquire indexGetNs req idx := by
  obtain ⟨hmethod, hsendable⟩ := refused_sendable req.method hmsg
  rw [Replies, run_serve_refused h]
  exact ⟨_, rfl, hmethod, hsendable, hidx⟩

theorem replies_reply (resp : Response) (idx' : Y.Contents)
    (h : Prog.run (Y.exec schema) (req.handle Y acquire) idx = (.ok resp, idx'))
    (hmethod : (resp.reply indexGetNs).method = req.method)
    (hresp : (resp.reply indexGetNs).Sendable) (hidx : ByteContents Y schema idx') :
    Replies Y schema acquire indexGetNs req idx := by
  rw [Replies, run_serve_reply h]
  exact ⟨_, rfl, hmethod, hresp, hidx⟩

theorem acquireOrError_refused {tableName : Option String} {stop : Stop}
    (h : acquireOrError acquire tableName = .error stop) (hname : ∀ t ∈ tableName, ByteText t) :
    ∃ msg, stop = .refused msg ∧ ByteText msg := by
  cases tableName with
  | none => exact ⟨_, (Except.error.inj h).symm, by decide⟩
  | some name =>
    unfold acquireOrError at h
    dsimp only at h
    split at h
    · exact ⟨_, (Except.error.inj h).symm, by decide⟩
    · split at h
      · exact ⟨_, (Except.error.inj h).symm, ByteText.append (by decide) (hname name rfl)⟩
      · cases h

/-- A request that names no table is refused, and no call is made of an index. -/
theorem run_unacquired {σ : Type} {exec : (o : Y.KvOp) → σ → Yikv.KvOp.Res Y o × σ} {stop : Stop}
    (hreq : req.Sendable) (h : acquireOrError acquire req.tableName = .error stop) (s : σ) :
    ∃ msg, Prog.run exec (req.handle Y acquire) s = (.error (.refused msg), s) ∧
      ByteText msg := by
  cases req with
  | get req =>
    obtain ⟨pk, tableName⟩ := req
    obtain ⟨⟨pk, rfl, -⟩, hname⟩ := hreq
    simp only [Wire.Request.tableName] at h
    obtain ⟨msg, rfl, hmsg⟩ := acquireOrError_refused h hname
    exact ⟨msg, by simp only [Wire.Request.handle, handleGet, h]; rfl, hmsg⟩
  | put req =>
    obtain ⟨row, tableName⟩ := req
    obtain ⟨⟨row, rfl, -⟩, hname⟩ := hreq
    simp only [Wire.Request.tableName] at h
    obtain ⟨msg, rfl, hmsg⟩ := acquireOrError_refused h hname
    exact ⟨msg, by simp only [Wire.Request.handle, handlePut, h]; rfl, hmsg⟩
  | putBatch req =>
    obtain ⟨rows, tableName⟩ := req
    obtain ⟨⟨rows, rfl, -⟩, hname⟩ := hreq
    simp only [Wire.Request.tableName] at h
    obtain ⟨msg, rfl, hmsg⟩ := acquireOrError_refused h hname
    exact ⟨msg, by simp only [Wire.Request.handle, handlePutBatch, h]; rfl, hmsg⟩
  | batchGet req =>
    obtain ⟨pks, tableName⟩ := req
    obtain ⟨-, hname⟩ := hreq
    simp only [Wire.Request.tableName] at h
    obtain ⟨msg, rfl, hmsg⟩ := acquireOrError_refused h hname
    cases pks with
    | none => exact ⟨"missing pks", rfl, by decide⟩
    | some pks =>
      exact ⟨msg, by simp only [Wire.Request.handle, handleBatchGet, h]; rfl, hmsg⟩

/-! ### On the slot that was acquired -/

section Acquired
variable {tableName : Option String}

theorem replies_get {pk : String} (hslot : acquireOrError acquire tableName = .ok schema)
    (hidx : ByteContents Y schema idx) :
    Replies Y schema acquire indexGetNs (.get ⟨some pk, tableName⟩) idx := by
  have hempty : ∀ t ∈ some "", ByteText t := fun t ht => Option.some.inj ht ▸ by decide
  cases hrow : idx pk with
  | none =>
    refine replies_reply (.get ⟨false, some "", none⟩) idx ?_ rfl
      ⟨hempty, fun _ h => (nomatch h)⟩ hidx
    simp only [Wire.Request.handle, Prog.run_bind, run_handleGet_miss hslot pk hrow]
    rfl
  | some doc =>
    refine replies_reply (.get ⟨true, some "", some (buildRow Y doc schema)⟩) idx ?_ rfl
      ⟨hempty, fun row hrow' => Option.some.inj hrow' ▸ sendable_buildRow (hidx pk doc hrow)⟩ hidx
    simp only [Wire.Request.handle, Prog.run_bind, run_handleGet hslot pk hrow]
    rfl

theorem replies_put {row : Row} (hnames : ByteNames Y) (hrow : row.Sendable)
    (hslot : acquireOrError acquire tableName = .ok schema) (hidx : ByteContents Y schema idx) :
    Replies Y schema acquire indexGetNs (.put ⟨some row, tableName⟩) idx := by
  obtain ⟨hdoc, herr⟩ := byte_rowDoc (Y := Y) hnames hrow
    "cannot derive pk (check pk field type in schema)" (by decide)
  cases hwork : rowDoc Y schema "cannot derive pk (check pk field type in schema)" row with
  | error err =>
    refine replies_refused err idx ?_ (herr err hwork) hidx
    simp only [Wire.Request.handle, handlePut, hslot, Prog.lift_ok, Prog.pure_bind', hwork]
    rfl
  | ok doc =>
    refine replies_reply .put (Y.upsert schema idx doc) ?_ rfl
      (fun t ht => Option.some.inj ht ▸ by decide) (hidx.upsert (hdoc doc hwork))
    simp only [Wire.Request.handle, handlePut, hslot, Prog.lift_ok, Prog.pure_bind', hwork]
    rfl

theorem replies_putBatch {rows : List (Option Row)} (hnames : ByteNames Y)
    (hrows : ∀ row ∈ rows, Entry Row.Sendable row)
    (hslot : acquireOrError acquire tableName = .ok schema) (hidx : ByteContents Y schema idx) :
    Replies Y schema acquire indexGetNs (.putBatch ⟨some rows, tableName⟩) idx := by
  by_cases hne : rows = []
  · refine replies_refused "empty batch" idx ?_ (by decide) hidx
    simp only [Wire.Request.handle, handlePutBatch, hslot, Prog.lift_ok, Prog.pure_bind',
      if_pos hne]
    rfl
  obtain ⟨hdocs, herr⟩ := byte_stageRows (Y := Y) hnames hrows
  cases hwork : stageRows Y schema rows with
  | error err =>
    refine replies_refused err idx ?_ (herr err hwork) hidx
    simp only [Wire.Request.handle, handlePutBatch, hslot, Prog.lift_ok, Prog.pure_bind',
      if_neg hne, hwork]
    rfl
  | ok docs =>
    refine replies_reply .putBatch (Y.batchUpsert schema idx docs) ?_ rfl
      (fun t ht => Option.some.inj ht ▸ by decide) (hidx.batchUpsert (hdocs docs hwork))
    simp only [Wire.Request.handle, handlePutBatch, hslot, Prog.lift_ok, Prog.pure_bind',
      if_neg hne, hwork]
    rfl

theorem sendable_batchRow (hidx : ByteContents Y schema idx) (key : Option String) :
    (batchRow Y schema idx key).Sendable := by
  unfold batchRow
  cases hrow : key.bind idx with
  | none => exact ⟨fun _ h => nomatch h⟩
  | some doc =>
    obtain ⟨pk, -, hdoc⟩ := Option.bind_eq_some_iff.mp hrow
    exact sendable_buildRow (hidx pk doc hdoc)

theorem replies_batchGet {pks : List (Option String)}
    (hslot : acquireOrError acquire tableName = .ok schema) (hidx : ByteContents Y schema idx) :
    Replies Y schema acquire indexGetNs (.batchGet ⟨some pks, tableName⟩) idx := by
  refine replies_reply (.batchGet ⟨some (pks.map (batchRow Y schema idx)), some ""⟩) idx ?_ rfl
    ⟨fun row hrow => ?_, fun t ht => Option.some.inj ht ▸ by decide⟩ hidx
  · simp only [Wire.Request.handle, handleBatchGet, hslot, Prog.lift_ok, Prog.pure_bind',
      Prog.run_bind, run_batchGetRows]
    rfl
  · obtain ⟨r, hr, rfl⟩ := List.mem_map.mp hrow
    obtain ⟨pk, -, rfl⟩ := List.mem_map.mp hr
    exact ⟨_, rfl, sendable_batchRow hidx pk⟩

end Acquired

/-- A request is replied to with what can be sent, and the contents keep texts of bytes. -/
theorem replies_serve (indexGetNs : UInt64) (hnames : ByteNames Y) (hreq : req.Sendable)
    (hacquire : ∀ s, acquireOrError acquire req.tableName = .ok s → s = schema)
    (hidx : ByteContents Y schema idx) :
    Replies Y schema acquire indexGetNs req idx := by
  cases hslot : acquireOrError acquire req.tableName with
  | error stop =>
    obtain ⟨msg, hrun, hmsg⟩ := run_unacquired hreq hslot idx
    exact replies_refused msg idx hrun hmsg hidx
  | ok schema' =>
    obtain rfl := hacquire schema' hslot
    cases req with
    | get req =>
      obtain ⟨pk, tableName⟩ := req
      obtain ⟨⟨pk, rfl, -⟩, -⟩ := hreq
      exact replies_get hslot hidx
    | put req =>
      obtain ⟨row, tableName⟩ := req
      obtain ⟨⟨row, rfl, hrow⟩, -⟩ := hreq
      exact replies_put hnames hrow hslot hidx
    | putBatch req =>
      obtain ⟨rows, tableName⟩ := req
      obtain ⟨⟨rows, rfl, hrows⟩, -⟩ := hreq
      exact replies_putBatch hnames hrows hslot hidx
    | batchGet req =>
      obtain ⟨pks, tableName⟩ := req
      cases pks with
      | none => exact replies_refused "missing pks" idx rfl (by decide) hidx
      | some pks => exact replies_batchGet hslot hidx

end Replies

/-! ## Calls -/

/-- Tables whose documents have texts of bytes. -/
def ByteTables {Y : Yikv} (ts : Tables Y) : Prop :=
  ∀ name slot, ts name = some slot → ByteContents Y slot.schema slot.index

section Runs
variable {Y : Yikv} {ts : Tables Y} {slot : Slot Y} {name : String} {req : Wire.Request}
  {indexGetNs : UInt64} {c : Call}

theorem acquireOrError_tables {tableName : Option String} {schema : Schema}
    (h : acquireOrError ts.acquire tableName = .ok schema) :
    ∃ slot, ts (tableName.getD "") = some slot ∧ slot.schema = schema := by
  cases tableName with
  | none => cases h
  | some name =>
    unfold acquireOrError at h
    dsimp only at h
    split at h
    · cases h
    · cases hslot : ts name with
      | none => simp only [Tables.acquire, hslot, Option.map_none, reduceCtorEq] at h
      | some slot =>
        simp only [Tables.acquire, hslot, Option.map_some, Except.ok.injEq] at h
        exact ⟨slot, hslot, h⟩

theorem ByteTables.update (h : ByteTables ts) (hslot : ByteContents Y slot.schema slot.index) :
    ByteTables (Function.update ts name (some slot)) := by
  intro name' slot' hslot'
  rw [Function.update_apply] at hslot'
  split at hslot'
  · exact Option.some.inj hslot' ▸ hslot
  · exact h name' slot' hslot'

/-- A request on the tables is replied to with what can be sent. -/
theorem run_request (indexGetNs : UInt64) (hnames : ByteNames Y) (hreq : req.Sendable)
    (hts : ByteTables ts) : ∃ reply, (req.run indexGetNs ts).1 = .ok reply ∧ reply.method = req.method ∧
      reply.Sendable ∧ ByteTables (req.run indexGetNs ts).2 := by
  cases hslot : ts (req.tableName.getD "") with
  | none =>
    cases hacquire : acquireOrError ts.acquire req.tableName with
    | ok schema =>
      obtain ⟨slot, hthere, -⟩ := acquireOrError_tables hacquire
      cases hslot.symm.trans hthere
    | error stop =>
      obtain ⟨msg, hrun, hmsg⟩ := run_unacquired hreq hacquire ts
      obtain ⟨hmethod, hsendable⟩ := refused_sendable req.method hmsg
      rw [Wire.Request.run, run_serve_refused hrun]
      exact ⟨_, rfl, hmethod, hsendable, hts⟩
  | some slot =>
    have hacquire : ∀ s, acquireOrError ts.acquire req.tableName = .ok s → s = slot.schema := by
      intro s hs
      obtain ⟨slot', hslot', rfl⟩ := acquireOrError_tables hs
      rw [hslot] at hslot'
      rw [Option.some.inj hslot']
    obtain ⟨reply, hreply, hmethod, hsendable, hidx⟩ :=
      replies_serve indexGetNs hnames hreq hacquire (hts _ _ hslot)
    rw [Wire.Request.run, run_tables _ hslot]
    exact ⟨reply, hreply, hmethod, hsendable, hts.update hidx⟩

theorem tableOf_of_decode {method : Method} {body : Buffer} (h : decode body method = .ok req) :
    tableOf body = req.tableName.getD "" := by
  have hname : ∀ {α : Type} {decode : Int → Read α} {first : Option α} {name : Option String},
      decodeRequest body decode = .ok (first, name) → tableOf body = name.getD "" := by
    intro α decode first name hreq
    obtain ⟨root, hroot, -⟩ := bind_eq_ok.mp hreq
    rw [tableOf, bind_eq_ok.mpr ⟨root, hroot, (decodeRequest_fields hroot hreq).2⟩]
  cases method <;> (obtain ⟨_, hreq, rfl⟩ := map_eq_ok.mp h; exact hname hreq)

/-- A call on a well-formed body leaves the tables as its request does, and its reply is the
request's as it arrives, if it is not too long for a buffer. -/
theorem run_call (hnames : ByteNames Y) (hts : ByteTables ts)
    (hwell : wellFormed c.body c.method = true) (hdecode : decode c.body c.method = .ok req)
    (hsize : ∀ reply, (req.run c.indexGetNs ts).1 = .ok reply → reply.weight + 16 ≤ maxSize) :
    ∃ reply buf, (req.run c.indexGetNs ts).1 = .ok reply ∧
      c.run ts = (.ok buf, (req.run c.indexGetNs ts).2) ∧
      wellFormedReply buf c.method = true ∧ decodeReply buf c.method = .ok reply.received ∧
      ByteTables (req.run c.indexGetNs ts).2 := by
  obtain ⟨reply, hreply, hmethod, hsendable, hbytes⟩ :=
    run_request c.indexGetNs hnames (sendable_of_decode hwell hdecode) hts
  obtain ⟨buf, hbuilt, hverify, hread⟩ := reply_arrives hsendable (hsize reply hreply)
  rw [hmethod, decode_method hdecode] at hverify hread
  refine ⟨reply, buf, hreply, ?_, hverify, hread, hbytes⟩
  rw [Call.run, tableOf_of_decode hdecode, run_serve_of_decode hdecode]
  show (replyBytes (req.run c.indexGetNs ts).1, (req.run c.indexGetNs ts).2) = _
  rw [hreply, replyBytes, finishResp, hbuilt]

/-- A call on a body that holds this request, with this time for the lookup. -/
def Carries (c : Call) (r : Wire.Request × UInt64) : Prop :=
  wellFormed c.body c.method = true ∧ decode c.body c.method = .ok r.1 ∧ c.indexGetNs = r.2

/-- The bytes of this reply: of the type of the call's method, and read as the reply arrives. -/
def RepliesWith (x : Call × Except Crash Buffer) (answer : Except Stop Reply) : Prop :=
  ∃ reply buf, answer = .ok reply ∧ x.2 = .ok buf ∧ wellFormedReply buf x.1.method = true ∧
    decodeReply buf x.1.method = .ok reply.received

/-- A run on well-formed bodies is the run on the requests that they hold: it leaves the same
tables, it never fails, and each of its replies is of its type and arrives. -/
theorem runCalls_refines (Y : Yikv) (hnames : ByteNames Y) (ts : Tables Y) (hts : ByteTables ts)
    (calls : List Call) (reqs : List (Wire.Request × UInt64))
    (h : List.Forall₂ Carries calls reqs)
    (hsize : ∀ reply, .ok reply ∈ (runRequests ts reqs).1 → reply.weight + 16 ≤ maxSize) :
    (runCalls ts calls).2 = (runRequests ts reqs).2 ∧
      List.Forall₂ RepliesWith (calls.zip (runCalls ts calls).1) (runRequests ts reqs).1 := by
  induction h generalizing ts with
  | nil => exact ⟨rfl, .nil⟩
  | @cons c r calls reqs hcall _ ih =>
    obtain ⟨req, ns⟩ := r
    obtain ⟨hwell, hdecode, rfl⟩ := hcall
    have hsize' : ∀ reply, (req.run c.indexGetNs ts).1 = .ok reply →
        reply.weight + 16 ≤ maxSize := fun reply hreply =>
      hsize reply (List.mem_cons.mpr (.inl hreply.symm))
    obtain ⟨reply, buf, hreply, hrun, hverify, hread, hbytes⟩ :=
      run_call hnames hts hwell hdecode hsize'
    obtain ⟨htables, hreplies⟩ := ih (req.run c.indexGetNs ts).2 hbytes fun reply hmem =>
      hsize reply (List.mem_cons_of_mem _ hmem)
    rw [runCalls_cons, runRequests_cons, hrun]
    exact ⟨htables, .cons ⟨reply, buf, hreply, rfl, hverify, hread⟩ hreplies⟩

end Runs

/-! ### A put and a get -/

deriving instance DecidableEq for FieldValue, Row, GetRequest, PutRequest, PutBatchRequest,
  BatchGetRequest, Wire.Request

/-- A `PutRequest` for table `t`: an id of 7, and a score of zero, which is left out. -/
def putBody : Buffer :=
  [16, 0, 0, 0, 0, 0, 0, 0, 8, 0, 12, 0, 4, 0, 8, 0, 8, 0, 0, 0, 20, 0, 0, 0, 4, 0, 0, 0,
    1, 0, 0, 0, 116, 0, 6, 0, 8, 0, 4, 0, 6, 0, 0, 0, 4, 0, 0, 0, 2, 0, 0, 0, 36, 0, 0, 0,
    12, 0, 0, 0, 8, 0, 8, 0, 6, 0, 5, 0, 8, 0, 0, 0, 0, 5, 4, 0, 12, 0, 16, 0, 6, 0, 5, 0,
    0, 0, 8, 0, 12, 0, 0, 0, 0, 3, 1, 0, 7, 0, 0, 0, 0, 0, 0, 0]

def putCall : Call := ⟨.put, putBody, 0⟩

def getCall : Call := ⟨.get, getBody, 250⟩

theorem carries_putCall : Carries putCall (.put ⟨some (scored 0), some "t"⟩, 0) :=
  ⟨by decide +kernel, by decide +kernel, rfl⟩

theorem carries_getCall : Carries getCall (.get ⟨some "7", some "t"⟩, 250) :=
  ⟨by decide +kernel, rfl, rfl⟩

def profileTables : Tables .plain := fun name =>
  if name = "t" then some ⟨profileSchema, fun _ => none⟩ else none

theorem byteTables_profileTables : ByteTables profileTables := by
  intro name slot hslot k doc hdoc
  unfold profileTables at hslot
  split at hslot
  · obtain rfl := Option.some.inj hslot
    cases hdoc
  · cases hslot

theorem byteNames_plain : ByteNames .plain := by
  intro type
  cases type <;> decide

/-- The reply of a table with every field of its schema. -/
def scoreReply : Reply :=
  .get ⟨true, some "", some ⟨some [some { fieldId := 1, vtype := .i64, i64 := 7 },
    some { fieldId := 2, vtype := .bool }, some { fieldId := 3, vtype := .arrString },
    some { fieldId := 4, vtype := .f64 }]⟩⟩ 250

theorem putAndGet_refines :
    (runCalls profileTables [putCall, getCall]).2 = (runRequests profileTables
        [(.put ⟨some (scored 0), some "t"⟩, 0), (.get ⟨some "7", some "t"⟩, 250)]).2 ∧
      List.Forall₂ RepliesWith ([putCall, getCall].zip (runCalls profileTables
        [putCall, getCall]).1) [.ok (.put true (some "")), .ok scoreReply] :=
  runCalls_refines .plain byteNames_plain profileTables byteTables_profileTables
    [putCall, getCall] [(.put ⟨some (scored 0), some "t"⟩, 0), (.get ⟨some "7", some "t"⟩, 250)]
    (.cons carries_putCall (.cons carries_getCall .nil)) (by
      intro reply hreply
      have hreplies : reply = .put true (some "") ∨ reply = scoreReply := by
        rcases List.mem_cons.mp hreply with h | h
        · exact .inl (Except.ok.inj h)
        · exact .inr (Except.ok.inj (List.mem_singleton.mp h))
      rcases hreplies with rfl | rfl <;> decide)

end YikvServer.Db
