import YikvServer.Db.WireService
import YikvServer.Db.RoundTrip

/-!
# A row over a run

What calls leave of the contents of a table, and a row that is put, read back after any calls
that put no other row of its key, on the bytes of the requests and of the replies.
-/
namespace YikvServer.Db

open YikvServer.Theory YikvServer.Theory.FlatBuffers YikvServer.Index YikvServer.Stream Wire

/-! ## What a request leaves -/

/-- A request that puts no row of this key in this table. -/
def Spares (Y : Yikv) (table : String) (schema : Schema) (key : String) : Wire.Request → Prop
  | .put req => req.tableName = some table →
    ∀ doc, Takes Y schema req.row doc → Y.key schema doc ≠ key
  | .putBatch req => req.tableName = some table → ∀ rows, req.rows = some rows → ∀ row ∈ rows,
    ∀ doc, Takes Y schema row doc → Y.key schema doc ≠ key
  | .get _ | .batchGet _ => True

section Contents
variable {Y : Yikv} {schema : Schema} {acquire : String → Option Schema} {indexGetNs : UInt64}
  {idx : Y.Contents} {req : Wire.Request} {table key : String}

/-- The service leaves the contents as the handler does. -/
theorem run_serve_contents {σ : Type} {exec : (o : Y.KvOp) → σ → Yikv.KvOp.Res Y o × σ} (s : σ) :
    (Prog.run exec (req.serve Y acquire indexGetNs) s).2 =
      (Prog.run exec (req.handle Y acquire) s).2 := by
  rw [Wire.Request.serve, Prog.run_handle, Prog.run_bind]
  obtain ⟨outcome, t⟩ := Prog.run exec (req.handle Y acquire) s
  cases outcome with
  | ok resp => rfl
  | error stop => cases stop <;> rfl

/-- A request on the slot that it acquired leaves the row of a key that it spares. -/
theorem spares_slot (hslot : acquireOrError acquire req.tableName = .ok schema)
    (hname : req.tableName = some table) (h : Spares Y table schema key req) :
    (Prog.run (Y.exec schema) (req.handle Y acquire) idx).2 key = idx key := by
  cases req with
  | get req =>
    obtain ⟨pk, tableName⟩ := req
    simp only [Wire.Request.tableName] at hslot
    cases pk with
    | none => rfl
    | some pk =>
      cases hrow : idx pk with
      | none =>
        simp only [Wire.Request.handle, Prog.run_bind, run_handleGet_miss hslot pk hrow]
        rfl
      | some doc =>
        simp only [Wire.Request.handle, Prog.run_bind, run_handleGet hslot pk hrow]
        rfl
  | put req =>
    obtain ⟨row, tableName⟩ := req
    simp only [Wire.Request.tableName] at hslot hname
    by_cases htakes : ∃ doc, Takes Y schema row doc
    · obtain ⟨doc, htakes⟩ := htakes
      simp only [Wire.Request.handle, Prog.run_bind, run_handlePut hslot htakes]
      exact Yikv.upsert_apply.trans (if_neg (h hname doc htakes).symm)
    · obtain ⟨stop, hrun⟩ : ∃ stop, Prog.run (Y.exec schema)
          (handlePut Y acquire ⟨row, tableName⟩) idx = (.error stop, idx) := by
        refine run_handlePut_refused (fun slot hslot' doc htakes' => htakes ⟨doc, ?_⟩) idx
        exact Except.ok.inj (hslot.symm.trans hslot') ▸ htakes'
      simp only [Wire.Request.handle, Prog.run_bind, hrun]
  | putBatch req =>
    obtain ⟨rows, tableName⟩ := req
    simp only [Wire.Request.tableName] at hslot hname
    by_cases htakes : ∃ entries docs, rows = some entries ∧ entries ≠ [] ∧
        List.Forall₂ (Takes Y schema) entries docs
    · obtain ⟨entries, docs, rfl, hne, htakes⟩ := htakes
      simp only [Wire.Request.handle, Prog.run_bind, run_handlePutBatch hslot hne htakes]
      refine Yikv.batchUpsert_other fun doc hdoc => ?_
      obtain ⟨row, hrow, htake⟩ := exists_left_of_forall₂ htakes doc hdoc
      exact h hname entries rfl row hrow doc htake
    · obtain ⟨stop, hrun⟩ : ∃ stop, Prog.run (Y.exec schema)
          (handlePutBatch Y acquire ⟨rows, tableName⟩) idx = (.error stop, idx) := by
        refine run_handlePutBatch_refused (fun slot hslot' entries hentries hne => ?_) idx
        obtain rfl := Except.ok.inj (hslot.symm.trans hslot')
        by_contra hall
        push Not at hall
        obtain ⟨docs, hdocs⟩ := forall₂_takes hall
        exact htakes ⟨entries, docs, hentries, hne, hdocs⟩
      simp only [Wire.Request.handle, Prog.run_bind, hrun]
  | batchGet req =>
    obtain ⟨pks, tableName⟩ := req
    simp only [Wire.Request.tableName] at hslot
    cases pks with
    | none => rfl
    | some pks =>
      simp only [Wire.Request.handle, handleBatchGet, hslot, Prog.lift_ok, Prog.pure_bind',
        Prog.run_bind, run_batchGetRows]
      rfl

end Contents

/-! ## What a run leaves -/

/-- The table is there, and this document is stored in it under this key. -/
def Stores {Y : Yikv} (ts : Tables Y) (table : String) (schema : Schema) (key : String)
    (doc : Y.Doc) : Prop := ∃ idx, ts table = some ⟨schema, idx⟩ ∧ idx key = some doc

section Runs
variable {Y : Yikv} {ts : Tables Y} {schema : Schema} {req : Wire.Request} {table key : String}
  {doc : Y.Doc} {c : Call}

theorem acquireOrError_name {tableName : Option String}
    (h : acquireOrError ts.acquire tableName = .ok schema) :
    tableName = some (tableName.getD "") := by
  cases tableName with
  | none => cases h
  | some name => rfl

theorem Stores.run (h : Stores ts table schema key doc) (indexGetNs : UInt64)
    (hreq : req.Sendable) (hspares : Spares Y table schema key req) :
    Stores (req.run indexGetNs ts).2 table schema key doc := by
  obtain ⟨idx, hts, hkey⟩ := h
  rw [Wire.Request.run, run_serve_contents]
  cases hacquire : acquireOrError ts.acquire req.tableName with
  | error stop =>
    obtain ⟨msg, hrun, -⟩ := run_unacquired hreq hacquire ts
    rw [hrun]
    exact ⟨idx, hts, hkey⟩
  | ok schema' =>
    obtain ⟨slot, hslot, rfl⟩ := acquireOrError_tables hacquire
    rw [run_tables _ hslot]
    by_cases hname : req.tableName.getD "" = table
    · obtain rfl : slot = ⟨schema, idx⟩ := Option.some.inj (hslot.symm.trans (hname ▸ hts))
      refine ⟨_, by rw [hname]; exact Function.update_self .., ?_⟩
      rw [spares_slot hacquire ((acquireOrError_name hacquire).trans (congrArg some hname)) hspares]
      exact hkey
    · exact ⟨idx, (Function.update_of_ne (Ne.symm hname) _ _).trans hts, hkey⟩

/-- Calls that spare the key keep what is stored under it, and the texts of bytes. -/
theorem runCalls_stores (hnames : ByteNames Y) {calls : List Call}
    {reqs : List (Wire.Request × UInt64)} (h : List.Forall₂ Carries calls reqs)
    (hspares : ∀ r ∈ reqs, Spares Y table schema key r.1)
    (hsize : ∀ reply, .ok reply ∈ (runRequests ts reqs).1 → reply.weight + 16 ≤ maxSize)
    (hts : ByteTables ts) (hstores : Stores ts table schema key doc) :
    (runCalls ts calls).2 = (runRequests ts reqs).2 ∧ ByteTables (runCalls ts calls).2 ∧
      Stores (runCalls ts calls).2 table schema key doc := by
  induction h generalizing ts with
  | nil => exact ⟨rfl, hts, hstores⟩
  | @cons c r calls reqs hcall _ ih =>
    obtain ⟨req, ns⟩ := r
    obtain ⟨hwell, hdecode, rfl⟩ := hcall
    obtain ⟨hspare, hspares⟩ := List.forall_mem_cons.mp hspares
    obtain ⟨reply, buf, hreply, hrun, -, -, hbytes⟩ := run_call hnames hts hwell hdecode
      fun reply hreply => hsize reply (List.mem_cons.mpr (.inl hreply.symm))
    rw [runCalls_cons, runRequests_cons, hrun]
    exact ih hspares (fun reply hmem => hsize reply (List.mem_cons_of_mem _ hmem)) hbytes
      (hstores.run _ (sendable_of_decode hwell hdecode) hspare)

theorem runCalls_append (ts : Tables Y) (calls calls' : List Call) :
    runCalls ts (calls ++ calls') =
      ((runCalls ts calls).1 ++ (runCalls (runCalls ts calls).2 calls').1,
        (runCalls (runCalls ts calls).2 calls').2) := by
  induction calls generalizing ts with
  | nil => rfl
  | cons c rest ih =>
    rw [List.cons_append, runCalls_cons, ih]
    rfl

theorem runRequests_append (ts : Tables Y) (reqs reqs' : List (Wire.Request × UInt64)) :
    runRequests ts (reqs ++ reqs') =
      ((runRequests ts reqs).1 ++ (runRequests (runRequests ts reqs).2 reqs').1,
        (runRequests (runRequests ts reqs).2 reqs').2) := by
  induction reqs generalizing ts with
  | nil => rfl
  | cons r rest ih =>
    obtain ⟨req, ns⟩ := r
    rw [List.cons_append, runRequests_cons, ih]
    rfl

/-! ## What a reader finds -/

theorem Answers.received {fd : FieldDef} {v : fd.cell.Val} {fv : FieldValue}
    (h : Answers fd v fv) : Answers fd (arrived fd v) fv.received where
  id := h.id
  vtype := h.vtype
  value := by
    obtain ⟨-, -, rfl⟩ := h
    obtain ⟨name, fid, type, arr⟩ := fd
    cases arr <;> cases type <;> rfl

/-- The row that is built of a document, as it arrives. -/
theorem received_buildRow (doc : Y.Doc) : (buildRow Y doc schema).received =
    ⟨some ((schema.fields.map fun fd => (buildFieldValue Y doc fd).received).map some)⟩ := by
  simp only [Row.received, buildRow, Option.map_some, List.map_map]
  rfl

theorem acquire_stored {idx : Y.Contents} (htable : ts table = some ⟨schema, idx⟩)
    (hname : table ≠ "") : acquireOrError ts.acquire (some table) = .ok schema := by
  simp only [acquireOrError, if_neg hname, Tables.acquire, htable, Option.map_some]

theorem run_put (indexGetNs : UInt64) {row : Row} {idx : Y.Contents}
    (htable : ts table = some ⟨schema, idx⟩) (hname : table ≠ "")
    (htakes : Takes Y schema (some row) doc) :
    (Wire.Request.put ⟨some row, some table⟩).run indexGetNs ts = (.ok (.put true (some "")),
      Function.update ts table (some ⟨schema, Y.upsert schema idx doc⟩)) := by
  have hrun : Prog.run (Y.exec schema)
      ((Wire.Request.put ⟨some row, some table⟩).handle Y ts.acquire) idx =
        (.ok .put, Y.upsert schema idx doc) := by
    simp only [Wire.Request.handle, Prog.run_bind,
      run_handlePut (acquire_stored htable hname) htakes]
    rfl
  show Prog.run (Tables.exec table) _ ts = _
  rw [run_tables _ htable, run_serve_reply hrun]
  rfl

theorem run_get (indexGetNs : UInt64) {pk : String} (hstores : Stores ts table schema pk doc)
    (hname : table ≠ "") : (Wire.Request.get ⟨some pk, some table⟩).run indexGetNs ts =
      (.ok (.get ⟨true, some "", some (buildRow Y doc schema)⟩ indexGetNs), ts) := by
  obtain ⟨idx, htable, hkey⟩ := hstores
  have hrun : Prog.run (Y.exec schema)
      ((Wire.Request.get ⟨some pk, some table⟩).handle Y ts.acquire) idx = (.ok (.get ⟨true, some "", some (buildRow Y doc schema)⟩), idx) := by
    simp only [Wire.Request.handle, Prog.run_bind,
      run_handleGet (acquire_stored htable hname) pk hkey]
    rfl
  show Prog.run (Tables.exec table) _ ts = _
  rw [run_tables _ htable, run_serve_reply hrun]
  exact Prod.ext rfl (update_slot htable)

/-- A row that is put is found after any calls that put no other row of its key, with what
it supplied for each field of the schema, as that arrives. -/
theorem put_then_get (Y : Yikv) (hnames : ByteNames Y) (ts : Tables Y) (hts : ByteTables ts)
    (table : String) (hname : table ≠ "") (schema : Schema) (idx : Y.Contents)
    (htable : ts table = some ⟨schema, idx⟩) (hids16 : ∀ fd ∈ schema.fields, fd.fieldId < 65536)
    (hpk : ∃ fd, schema.findField schema.pk = some fd ∧ fd.isArray = false)
    (harr : ArraysCarried schema) (row : Row) (hids : row.ids.Nodup) (doc : Y.Doc)
    (hdoc : applyRowToDoc Y schema Y.newDoc row = .ok doc)
    (hkey : extractPkString Y schema doc ≠ "") (put get : Call) (between : List Call)
    (reqs : List (Wire.Request × UInt64)) (n m : UInt64)
    (hput : Carries put (.put ⟨some row, some table⟩, n))
    (hbetween : List.Forall₂ Carries between reqs)
    (hget : Carries get (.get ⟨some (extractPkString Y schema doc), some table⟩, m))
    (hspares : ∀ r ∈ reqs, Spares Y table schema (extractPkString Y schema doc) r.1)
    (hsize : ∀ reply, .ok reply ∈ (runRequests ts ((.put ⟨some row, some table⟩, n) :: (reqs ++
      [(.get ⟨some (extractPkString Y schema doc), some table⟩, m)]))).1 →
        reply.weight + 16 ≤ maxSize) :
    ∃ buf outs buf' fvs,
      (runCalls ts (put :: (between ++ [get]))).1 = .ok buf :: (outs ++ [.ok buf']) ∧
      decodeReply buf .put = .ok (.put true (some "")) ∧
      decodeReply buf' .get = .ok (.get ⟨true, some "", some ⟨some (fvs.map some)⟩⟩ m) ∧
      List.Forall₂ (fun fd fv => Answers fd (arrived fd (row.supplied fd)) fv)
        schema.fields fvs := by
  obtain ⟨hwell, hdecode, rfl⟩ := hput
  obtain ⟨hwell', hdecode', rfl⟩ := hget
  have hkey' : Y.key schema doc = extractPkString Y schema doc := key_of_extractPk hpk hkey
  have hrunPut := run_put put.indexGetNs htable hname ⟨row, rfl, hdoc, hkey⟩
  rw [runRequests_cons, runRequests_append, hrunPut] at hsize
  obtain ⟨reply, buf, hreply, hcall, -, hread, hbytes⟩ := run_call hnames hts hwell hdecode
    fun reply hreply => hsize reply (List.mem_cons.mpr (.inl (by rw [← hreply, hrunPut])))
  rw [hrunPut] at hreply hcall hbytes
  obtain rfl := Except.ok.inj hreply
  have hstores : Stores (Function.update ts table (some ⟨schema, Y.upsert schema idx doc⟩)) table
      schema (extractPkString Y schema doc) doc := by
    refine ⟨_, Function.update_self .., ?_⟩
    rw [Yikv.upsert_apply, if_pos hkey'.symm]
  generalize Function.update ts table (some ⟨schema, Y.upsert schema idx doc⟩) = stored
    at hsize hcall hbytes hstores
  obtain ⟨htables, hbytes', hstores'⟩ := runCalls_stores hnames hbetween hspares
    (fun reply hmem => hsize reply (List.mem_cons_of_mem _ (List.mem_append_left _ hmem)))
    hbytes hstores
  rw [htables] at hbytes' hstores'
  have hrunGet := run_get get.indexGetNs hstores' hname
  obtain ⟨reply', buf', hreply', hcall', -, hread', -⟩ :=
    run_call hnames hbytes' hwell' hdecode' fun reply' hreply' => hsize reply'
      (List.mem_cons_of_mem _ (List.mem_append_right _ (by
        rw [runRequests_cons, hreply']
        exact List.mem_cons_self)))
  rw [hrunGet] at hreply' hcall'
  obtain rfl := Except.ok.inj hreply'
  refine ⟨buf, (runCalls stored between).1, buf',
    schema.fields.map fun fd => (buildFieldValue Y doc fd).received, ?_, ?_, ?_, ?_⟩
  · rw [runCalls_cons, hcall, runCalls_append, htables, runCalls_cons, hcall']
    rfl
  · rw [← decode_method hdecode] at hread
    exact hread
  · rw [← decode_method hdecode'] at hread'
    rw [← received_buildRow]
    exact hread'
  · rw [List.forall₂_map_right_iff, List.forall₂_same]
    intro fd hfd
    have hbuilt := buildFieldValue_answers (hids16 fd hfd) (harr fd hfd) doc
    rw [get_rowDoc hdoc hids harr hfd, normal_supplied] at hbuilt
    rw [← arrived_idem]
    exact hbuilt.received

end Runs

/-- A row that is put, looked up, and found again: its score of zero too. -/
theorem score_putThenGet : ∃ doc buf outs buf' fvs,
    applyRowToDoc .plain profileSchema Yikv.plain.newDoc (scored 0) = .ok doc ∧
      (runCalls profileTables (putCall :: ([getCall] ++ [getCall]))).1 =
        .ok buf :: (outs ++ [.ok buf']) ∧
      decodeReply buf .put = .ok (.put true (some "")) ∧
      decodeReply buf' .get = .ok (.get ⟨true, some "", some ⟨some (fvs.map some)⟩⟩ 250) ∧
      List.Forall₂ (fun fd fv => Answers fd (arrived fd ((scored 0).supplied fd)) fv)
        profileSchema.fields fvs := by
  obtain ⟨doc, hdoc⟩ : ∃ doc, applyRowToDoc .plain profileSchema Yikv.plain.newDoc (scored 0) =
    .ok doc := ⟨_, rfl⟩
  have hpk : extractPkString .plain profileSchema doc = "7" := by
    obtain rfl := Except.ok.inj hdoc
    rfl
  have hreplies : ∀ reply, .ok reply ∈ (runRequests profileTables
      ((.put ⟨some (scored 0), some "t"⟩, 0) :: ([(.get ⟨some "7", some "t"⟩, 250)] ++
        [(.get ⟨some "7", some "t"⟩, 250)]))).1 → reply.weight + 16 ≤ maxSize := by
    intro reply hreply
    have hreply : reply = .put true (some "") ∨ reply = scoreReply ∨ reply = scoreReply := by
      rcases List.mem_cons.mp hreply with h | h
      · exact .inl (Except.ok.inj h)
      · rcases List.mem_cons.mp h with h | h
        · exact .inr (.inl (Except.ok.inj h))
        · exact .inr (.inr (Except.ok.inj (List.mem_singleton.mp h)))
    rcases hreply with rfl | rfl | rfl <;> decide
  rw [← hpk] at hreplies
  obtain ⟨buf, outs, buf', fvs, hrun⟩ := put_then_get .plain byteNames_plain profileTables
    byteTables_profileTables "t" (by decide) profileSchema (fun _ => none) rfl (by decide)
    ⟨_, rfl, rfl⟩ (by decide) (scored 0) (by decide) doc hdoc (by rw [hpk]; decide) putCall getCall
    [getCall] [(.get ⟨some (extractPkString .plain profileSchema doc), some "t"⟩, 250)] 0 250
    carries_putCall (.cons (by rw [hpk]; exact carries_getCall) .nil)
    (by rw [hpk]; exact carries_getCall) (by simp [Spares]) hreplies
  exact ⟨doc, buf, outs, buf', fvs, hdoc, hrun⟩

end YikvServer.Db
