import YikvServer.Db.WireReply

/-!
# The handlers, from bytes to bytes

Each handler of `db/handlers.cc` with the response that it builds: `error_resp`, and the
table that `fbb.Finish` ends. The time that `index_get_ns` reports is a parameter, and what
is built is built at the end, which the index does not see.
-/
namespace YikvServer.Db.Wire

open YikvServer.Theory YikvServer.Theory.FlatBuffers YikvServer.Index YikvServer.Stream

/-- How a handler ends without a response: beyond the body, or in an assertion of `fbb`. -/
inductive Crash where
  | fault (f : Fault)
  | assertion
  deriving DecidableEq

/-- `error_resp` of each handler. -/
def errorResp (method : Method) (msg : String) : Build Nat := do
  let er ← createText msg
  match method with
  | .get => createGetResponse false er 0 0
  | .put => createPutResponse false er
  | .putBatch => createPutBatchResponse false er
  | .batchGet => createBatchGetResponse 0 er

/-- `fbb.Finish`, and the bytes of `fbb`. -/
def finishResp (m : Build Nat) : Except Crash Buffer :=
  match built m with
  | none => .error .assertion
  | some buf => .ok buf

section Serve
variable (Y : Yikv) (acquire : String → Option Schema) (indexGetNs : UInt64)

/-- What a handler builds when nothing is wrong, or `error_resp`. -/
def respond (method : Method) (p : Prog Fault (Yikv.KvOp.Res Y) (Build Nat)) :
    Prog Crash (Yikv.KvOp.Res Y) Buffer := do
  let m ← p.handle fun
    | .stop (.refused msg) => .pure (errorResp method msg)
    | f => .fail (.fault f)
  Prog.lift (finishResp m)

section Body
variable (body : Buffer)

def serveGet : Prog Fault (Yikv.KvOp.Res Y) (Build Nat) := do
  let (schema, pk) ← Prog.lift (begin body acquire "missing pk")
  let pk ← Prog.lift (reading (text body pk))
  let hit : Option Y.Doc ← Prog.perform (Yikv.KvOp.get pk)
  pure do
    let er ← createText ""
    match hit with
    | none => createGetResponse false er 0 indexGetNs
    | some doc => do
      let row ← buildRow Y doc schema
      createGetResponse true er row indexGetNs

def servePut : Prog Fault (Yikv.KvOp.Res Y) (Build Nat) := do
  handlePut body Y acquire
  pure do
    let es ← createText ""
    createPutResponse true es

def servePutBatch : Prog Fault (Yikv.KvOp.Res Y) (Build Nat) := do
  handlePutBatch body Y acquire
  pure do
    let es ← createText ""
    createPutBatchResponse true es

/-- The loop of `HandleBatchGet`, with what it builds of each key. -/
def serveRows (schema : Schema) (pks : Int) :
    List Nat → Prog Fault (Yikv.KvOp.Res Y) (List (Build Nat))
  | [] => pure []
  | i :: rest => do
    let pk ← Prog.lift (reading (element body pks i >>= text body))
    let hit : Option Y.Doc ← Prog.perform (Yikv.KvOp.get pk)
    let rows ← serveRows schema pks rest
    match hit with
    | none => pure (createRow 0 :: rows)
    | some doc => pure (buildRow Y doc schema :: rows)

def serveBatchGet : Prog Fault (Yikv.KvOp.Res Y) (Build Nat) := do
  let (schema, pks) ← Prog.lift (begin body acquire "missing pks")
  let n ← Prog.lift (reading (size body pks))
  let rows ← serveRows Y body schema pks (List.range n)
  pure do
    let rowOffs ← rows.mapM id
    let es ← createText ""
    let rows ← createVectorOfOffsets rowOffs
    createBatchGetResponse rows es

end Body

/-- A call: the payload to the handler of the method, and `out_resp`. -/
def serve (method : Method) (body : Buffer) : Prog Crash (Yikv.KvOp.Res Y) Buffer :=
  respond Y method <|
    match method with
    | .get => serveGet Y acquire indexGetNs body
    | .put => servePut Y acquire body
    | .putBatch => servePutBatch Y acquire body
    | .batchGet => serveBatchGet Y acquire body

end Serve

/-! ## What is replied -/

/-- The reply of a request that was refused. -/
def Reply.refused (method : Method) (msg : String) : Reply :=
  match method with
  | .get => .get ⟨false, some msg, none⟩ 0
  | .put => .put false (some msg)
  | .putBatch => .putBatch false (some msg)
  | .batchGet => .batchGet none (some msg)

/-- The reply of a request that was not. -/
def Response.reply (indexGetNs : UInt64) : Response → Reply
  | .get resp => .get resp indexGetNs
  | .put => .put true (some "")
  | .putBatch => .putBatch true (some "")
  | .batchGet resp => .batchGet (resp.rows.map fun rows => rows.map some) resp.err

theorem errorResp_eq (method : Method) (msg : String) :
    errorResp method msg = packReply (.refused method msg) := by
  cases method <;> rfl

section Served
variable (Y : Yikv) (acquire : String → Option Schema) (indexGetNs : UInt64) (body : Buffer)

theorem serveGet_eq : serveGet Y acquire indexGetNs body =
    (handleGet body Y acquire >>= fun resp => pure (packReply (.get resp indexGetNs))) := by
  unfold serveGet handleGet
  cases begin body acquire "missing pk" with
  | error f => rfl
  | ok start =>
    obtain ⟨schema, p⟩ := start
    simp only [Prog.lift_ok, Prog.pure_bind']
    cases reading (text body p) with
    | error f => rfl
    | ok pk =>
      refine congrArg (Prog.step _) (funext fun hit => ?_)
      cases hit with
      | none => rfl
      | some doc =>
        refine congrArg Prog.pure ?_
        simp only [buildRow_eq]
        rfl

theorem serveRows_eq (schema : Schema) (pks : Int) (indices : List Nat) :
    serveRows Y body schema pks indices = (batchGetRows body Y schema pks indices >>=
      fun rows => pure (rows.map packRow)) := by
  induction indices with
  | nil => rfl
  | cons i rest ih =>
    rw [serveRows, batchGetRows, ih]
    cases reading (element body pks i >>= text body) with
    | error f => rfl
    | ok pk =>
      simp only [Prog.lift_ok, Prog.pure_bind', Prog.perform_bind, Prog.step_bind,
        Prog.bind_assoc']
      refine congrArg (Prog.step _) (funext fun hit => congrArg (_ >>= ·) (funext fun rows => ?_))
      cases hit with
      | none => rfl
      | some doc => exact congrArg (fun m => Prog.pure (m :: _)) (buildRow_eq Y doc schema)

theorem serveBatchGet_eq : serveBatchGet Y acquire body = (handleBatchGet body Y acquire >>=
    fun resp => pure (packReply (Response.reply indexGetNs (.batchGet resp)))) := by
  have hrows : ∀ rows : List Row, (rows.map some).mapM (createEntry packRow) =
      (rows.map packRow).mapM id := fun rows => by rw [List.mapM_map, List.mapM_map]; rfl
  unfold serveBatchGet handleBatchGet
  cases begin body acquire "missing pks" with
  | error f => rfl
  | ok start =>
    obtain ⟨schema, pks⟩ := start
    simp only [Prog.lift_ok, Prog.pure_bind']
    cases reading (size body pks) with
    | error f => rfl
    | ok n =>
      simp only [Prog.lift_ok, Prog.pure_bind', serveRows_eq, Prog.bind_assoc']
      refine congrArg (_ >>= ·) (funext fun rows => congrArg Prog.pure ?_)
      show _ = packReply (.batchGet (some (rows.map some)) (some ""))
      rw [packReply, Option.getD_some, hrows]
      rfl

/-- What a handler builds is the reply of what it answers. -/
theorem serve_eq (method : Method) : serve Y acquire indexGetNs method body =
    respond Y method (handle Y acquire method body >>=
      fun resp => pure (packReply (resp.reply indexGetNs))) := by
  cases method with
  | get =>
    show respond Y .get (serveGet Y acquire indexGetNs body) = _
    rw [serveGet_eq, handle, Prog.bind_assoc']
    rfl
  | put =>
    show respond Y .put (servePut Y acquire body) = _
    rw [servePut, handle, Prog.bind_assoc']
    rfl
  | putBatch =>
    show respond Y .putBatch (servePutBatch Y acquire body) = _
    rw [servePutBatch, handle, Prog.bind_assoc']
    rfl
  | batchGet =>
    show respond Y .batchGet (serveBatchGet Y acquire body) = _
    rw [serveBatchGet_eq Y acquire indexGetNs, handle, Prog.bind_assoc']
    rfl

end Served

/-! ## The service without bytes -/

/-- What is replied to a request. -/
def Request.serve (Y : Yikv) (acquire : String → Option Schema) (indexGetNs : UInt64)
    (req : Request) : Prog Stop (Yikv.KvOp.Res Y) Reply :=
  (req.handle Y acquire >>= fun resp => pure (resp.reply indexGetNs)).handle fun
    | .refused msg => .pure (Reply.refused req.method msg)
    | stop => .fail stop

/-- The bytes of a reply. -/
def replyBytes : Except Stop Reply → Except Crash Buffer
  | .ok reply => finishResp (packReply reply)
  | .error stop => .error (.fault (.stop stop))

section Run
variable {Y : Yikv} {acquire : String → Option Schema} {indexGetNs : UInt64} {body : Buffer}
  {method : Method} {req : Request} {σ : Type} {exec : (o : Y.KvOp) → σ → Yikv.KvOp.Res Y o × σ}

theorem decode_method (h : decode body method = .ok req) : req.method = method := by
  cases method <;> (obtain ⟨_, _, rfl⟩ := map_eq_ok.mp h; rfl)

/-- On a body that holds a request, the bytes are those of its reply. -/
theorem run_serve_of_decode (h : decode body method = .ok req) (s : σ) :
    Prog.run exec (serve Y acquire indexGetNs method body) s =
      (replyBytes (Prog.run exec (req.serve Y acquire indexGetNs) s).1,
        (Prog.run exec (req.serve Y acquire indexGetNs) s).2) := by
  rw [serve_eq, handle_of_decode h, respond, Request.serve, decode_method h]
  simp only [Prog.run_bind, Prog.run_handle, Prog.run_mapError]
  have hlift : ∀ (m : Build Nat) (t : σ), Prog.run exec (Prog.lift (finishResp m) :
      Prog Crash (Yikv.KvOp.Res Y) Buffer) t = (finishResp m, t) := by
    intro m t
    cases finishResp m <;> rfl
  obtain ⟨outcome, t⟩ := Prog.run exec (req.handle Y acquire) s
  cases outcome with
  | ok resp => exact hlift _ t
  | error stop =>
    cases stop with
    | thrown e => rfl
    | refused msg =>
      show Prog.run exec (Prog.lift (finishResp (errorResp method msg))) t = _
      rw [hlift, errorResp_eq]
      rfl

end Run

end YikvServer.Db.Wire
