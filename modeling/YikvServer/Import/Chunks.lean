import YikvServer.Import.Cells
import YikvServer.Theory.GrowingVector
import YikvServer.Theory.Prog

/-!
# Chunked import and row by row

`ProcessBatch` with its vectors: the documents of a chunk are pushed into one vector, and
the pointers that `BatchPut` is given lead into it. The size of a chunk is a parameter. For
every size the pointers are good and the import is the one of the rows taken one by one.
-/
namespace YikvServer.Import

open YikvServer.Index YikvServer.Theory.GrowingVector

/-- `batch_docs` and `batch_ptrs`. -/
structure Chunk (Y : Yikv) where
  docs : Vec Y.Doc
  ptrs : List Ptr

/-- The two vectors with `chunk_cap` reserved. -/
def Chunk.reserved (Y : Yikv) (cap : Nat) : Chunk Y := ⟨Vec.empty.reserve cap, []⟩

/-- A document is moved in, and its address is kept. -/
def Chunk.push {Y : Yikv} (chunk : Chunk Y) (doc : Y.Doc) : Chunk Y :=
  ⟨chunk.docs.pushBack doc, chunk.ptrs ++ [(chunk.docs.pushBack doc).back]⟩

/-- What `BatchPut` reads through the pointers; none when one dangles. -/
def Chunk.read {Y : Yikv} (chunk : Chunk Y) : Option (List Y.Doc) :=
  chunk.ptrs.mapM chunk.docs.deref

namespace Chunked
variable (Y : Yikv) (schema : Schema) (batch : RecordBatch)

/-- The loop over the rows of one chunk, with the skipped rows counted on. -/
def chunkLoop (pkDef : FieldDef) :
    List Nat → Chunk Y → Nat → Except ImportError (Chunk Y) × Nat
  | [], chunk, skipped => (.ok chunk, skipped)
  | row :: rest, chunk, skipped =>
    match importRow Y schema batch pkDef row with
    | .error err => (.error err, skipped)
    | .ok none => chunkLoop pkDef rest chunk (skipped + 1)
    | .ok (some doc) => chunkLoop pkDef rest (chunk.push doc) skipped

/-- The loop over the chunks from `chunkStart` on; `chunks` bounds how many there are. No
result means that `BatchPut` has read through a dangling pointer. -/
def processChunks (kChunkRows : Nat) (pkDef : FieldDef) :
    (chunks chunkStart : Nat) → Imported Y → Option (Imported Y × Except ImportError Unit)
  | 0, _, done => some (done, .ok ())
  | chunks + 1, chunkStart, done =>
    if chunkStart < batch.numRows then
      let chunkEnd := min batch.numRows (chunkStart + kChunkRows)
      let rows := List.range' chunkStart (chunkEnd - chunkStart)
      match chunkLoop Y schema batch pkDef rows (.reserved Y (chunkEnd - chunkStart))
        done.skippedPkNull with
      | (.error err, skipped) => some ({ done with skippedPkNull := skipped }, .error err)
      | (.ok chunk, skipped) =>
        if chunk.ptrs = [] then
          processChunks kChunkRows pkDef chunks (chunkStart + kChunkRows)
            { done with skippedPkNull := skipped }
        else
          chunk.read.bind fun docs =>
            processChunks kChunkRows pkDef chunks (chunkStart + kChunkRows)
              { puts := done.puts ++ [docs]
                rowsImported := done.rowsImported + chunk.ptrs.length
                skippedPkNull := skipped }
    else some (done, .ok ())

def processBatch (kChunkRows : Nat) (done : Imported Y) :
    Option (Imported Y × Except ImportError Unit) :=
  match validateBatchColumns batch schema with
  | .error err => some (done, .error err)
  | .ok () =>
    match schema.findField schema.pk with
    | none => some (done, .error (.invalid "schema has no pk"))
    | some pkDef =>
      processChunks Y schema batch kChunkRows pkDef (batch.numRows / kChunkRows + 1) 0 done

end Chunked

section Spec
variable (Y : Yikv) (schema : Schema) (batch : RecordBatch) (pkDef : FieldDef)

/-- The row has a pk cell that is not null, its columns give the document, and the pk of
that is not empty. -/
def Qualifies (row : Nat) (doc : Y.Doc) : Prop :=
  ∃ pkCol pk, batch.getColumnByName pkDef.name = some pkCol ∧
    arrowCellIsNull pkCol row = false ∧
    schema.fields.foldlM (applyColumn Y batch row) Y.newDoc = .ok doc ∧
    importPk Y pkDef doc = .ok pk ∧ pk ≠ ""

/-- The row has a pk cell that is not null, and one of its columns is refused or the pk of its
document is. -/
def Refuses (row : Nat) (err : ImportError) : Prop :=
  ∃ pkCol, batch.getColumnByName pkDef.name = some pkCol ∧ arrowCellIsNull pkCol row = false ∧
    (schema.fields.foldlM (applyColumn Y batch row) Y.newDoc = .error err ∨
      ∃ doc, schema.fields.foldlM (applyColumn Y batch row) Y.newDoc = .ok doc ∧
        importPk Y pkDef doc = .error err)

/-- The documents of the rows before `n` that qualify, in the order of the rows. -/
def QualifyingDocs (n : Nat) (docs : List Y.Doc) : Prop :=
  ∃ rows : List Nat, rows.Pairwise (· < ·) ∧
    (∀ row, row ∈ rows ↔ row < n ∧ ∃ doc, Qualifies Y schema batch pkDef row doc) ∧
    List.Forall₂ (Qualifies Y schema batch pkDef) rows docs

/-- No row before `n` is refused. -/
def NoneRefused (n : Nat) : Prop := ∀ row < n, ∀ err, ¬ Refuses Y schema batch pkDef row err

/-- These documents have been put since, and have been counted. -/
structure Grown (before after : Imported Y) (docs : List Y.Doc) : Prop where
  puts : after.puts.flatten = before.puts.flatten ++ docs
  rowsImported : after.rowsImported = before.rowsImported + docs.length

/-- The import of the rows one by one. When no row is refused, exactly the documents of those
that qualify have been put, in order, and every row has been counted once. When one is, the
documents of the chunks before its chunk have been put. -/
def RowByRow (kChunkRows : Nat) (before : Imported Y) :
    Imported Y × Except ImportError Unit → Prop
  | (after, .ok ()) => NoneRefused Y schema batch pkDef batch.numRows ∧
    ∃ docs, QualifyingDocs Y schema batch pkDef batch.numRows docs ∧ Grown Y before after docs ∧
      after.skippedPkNull + docs.length = before.skippedPkNull + batch.numRows
  | (after, .error err) => ∃ row < batch.numRows, NoneRefused Y schema batch pkDef row ∧
    Refuses Y schema batch pkDef row err ∧
    ∃ docs, QualifyingDocs Y schema batch pkDef (row / kChunkRows * kChunkRows) docs ∧
      Grown Y before after docs

/-- The outcome of a batch: refused as a whole before any row, or row by row. -/
def BatchImported (kChunkRows : Nat) (before : Imported Y)
    (outcome : Imported Y × Except ImportError Unit) : Prop :=
  (∃ err, outcome = (before, .error err) ∧
    (validateBatchColumns batch schema = .error err ∨ schema.findField schema.pk = none)) ∨
  ∃ pkDef, schema.findField schema.pk = some pkDef ∧
    RowByRow Y schema batch pkDef kChunkRows before outcome

end Spec

section Rows
variable (Y : Yikv) (schema : Schema) (batch : RecordBatch) (pkDef : FieldDef)

/-- The document that the body of the row loop gives. -/
def rowDoc (row : Nat) : Option Y.Doc :=
  match importRow Y schema batch pkDef row with
  | .ok entry => entry
  | .error _ => none

def docsBefore (n : Nat) : List Y.Doc := (List.range n).filterMap (rowDoc Y schema batch pkDef)

/-- The body of the row loop goes through the rows before `n` without an error. -/
def CleanBefore (n : Nat) : Prop :=
  ∀ row < n, ∃ entry, importRow Y schema batch pkDef row = .ok entry

/-- `RowByRow` by the body of the row loop. -/
def LoopedRows (kChunkRows : Nat) (before : Imported Y) :
    Imported Y × Except ImportError Unit → Prop
  | (after, .ok ()) => CleanBefore Y schema batch pkDef batch.numRows ∧
    Grown Y before after (docsBefore Y schema batch pkDef batch.numRows) ∧
    after.skippedPkNull + (docsBefore Y schema batch pkDef batch.numRows).length =
      before.skippedPkNull + batch.numRows
  | (after, .error err) => ∃ row < batch.numRows, CleanBefore Y schema batch pkDef row ∧
    importRow Y schema batch pkDef row = .error err ∧
    Grown Y before after (docsBefore Y schema batch pkDef (row / kChunkRows * kChunkRows))

/-- `BatchImported` by the body of the row loop. -/
def BatchLooped (kChunkRows : Nat) (before : Imported Y)
    (outcome : Imported Y × Except ImportError Unit) : Prop :=
  (∃ err, outcome = (before, .error err) ∧
    (validateBatchColumns batch schema = .error err ∨ schema.findField schema.pk = none)) ∨
  ∃ pkDef, schema.findField schema.pk = some pkDef ∧
    LoopedRows Y schema batch pkDef kChunkRows before outcome

end Rows

variable {Y : Yikv} {schema : Schema} {batch : RecordBatch} {pkDef : FieldDef} {row n k : Nat}
  {doc : Y.Doc} {rows : List Nat} {docs : List Y.Doc} {err : ImportError} {done : Imported Y}
  {chunk : Chunk Y} {skipped : Nat}

/-! ## Rows -/

theorem rowDoc_eq_some : rowDoc Y schema batch pkDef row = some doc ↔
    Qualifies Y schema batch pkDef row doc := by
  constructor
  · intro h
    unfold rowDoc importRow at h
    split at h
    swap
    · cases h
    rename_i entry hentry
    subst h
    split at hentry
    · cases hentry
    rename_i pkCol hcol
    split at hentry
    · cases hentry
    rename_i hnull
    split at hentry
    · cases hentry
    rename_i doc' hdoc
    split at hentry
    · cases hentry
    rename_i pk hpk
    split at hentry
    · cases hentry
    rename_i hne
    obtain rfl := Option.some.inj (Except.ok.inj hentry)
    exact ⟨pkCol, pk, hcol, Bool.eq_false_iff.mpr hnull, hdoc, hpk, hne⟩
  · rintro ⟨pkCol, pk, hcol, hnull, hdoc, hpk, hne⟩
    rw [rowDoc, importRow_of_fold hcol hnull hdoc hpk hne]

variable (Y schema batch pkDef) in
/-- The rows of a chunk, all good or up to the first that is not. -/
theorem chunkRows_spec (rows : List Nat) :
    match chunkRows Y schema batch pkDef rows with
    | (.ok docs, skipped) => (∀ row ∈ rows, ∃ entry,
        importRow Y schema batch pkDef row = .ok entry) ∧
      docs = rows.filterMap (rowDoc Y schema batch pkDef) ∧ skipped + docs.length = rows.length
    | (.error err, _) => ∃ pre row post, rows = pre ++ row :: post ∧
      (∀ row ∈ pre, ∃ entry, importRow Y schema batch pkDef row = .ok entry) ∧
      importRow Y schema batch pkDef row = .error err := by
  induction rows with
  | nil => exact ⟨fun _ h => (nomatch h), rfl, rfl⟩
  | cons row rest ih =>
    unfold chunkRows
    cases hrow : importRow Y schema batch pkDef row with
    | error err => exact ⟨[], row, rest, rfl, fun _ h => (nomatch h), hrow⟩
    | ok entry =>
      have hdoc : rowDoc Y schema batch pkDef row = entry := by rw [rowDoc, hrow]
      dsimp only
      cases hrest : chunkRows Y schema batch pkDef rest with
      | mk result skipped =>
        rw [hrest] at ih
        cases result with
        | error err =>
          obtain ⟨pre, bad, post, hsplit, hpre, hbad⟩ := ih
          have hall : ∀ r ∈ row :: pre, ∃ entry, importRow Y schema batch pkDef r = .ok entry :=
            List.forall_mem_cons.mpr ⟨⟨entry, hrow⟩, hpre⟩
          cases entry with
          | none => exact ⟨row :: pre, bad, post, congrArg (row :: ·) hsplit, hall, hbad⟩
          | some doc => exact ⟨row :: pre, bad, post, congrArg (row :: ·) hsplit, hall, hbad⟩
        | ok docs =>
          obtain ⟨hclean, hdocs, hcount⟩ := ih
          have hall : ∀ r ∈ row :: rest, ∃ entry, importRow Y schema batch pkDef r = .ok entry :=
            List.forall_mem_cons.mpr ⟨⟨entry, hrow⟩, hclean⟩
          cases entry with
          | none =>
            refine ⟨hall, ?_, ?_⟩
            · rw [List.filterMap_cons_none hdoc]
              exact hdocs
            · rw [List.length_cons]
              omega
          | some doc =>
            refine ⟨hall, ?_, ?_⟩
            · rw [List.filterMap_cons_some hdoc]
              exact congrArg (doc :: ·) hdocs
            · rw [List.length_cons, List.length_cons]
              omega

/-! ## Pointers -/

variable (Y schema batch pkDef rows chunk skipped) in
/-- While the reserved capacity is enough, the chunk loop is the one on lists, and all
documents can be read through the pointers. -/
theorem chunkLoop_eq (htracks : chunk.docs.Tracks chunk.ptrs)
    (hroom : chunk.docs.items.length + rows.length ≤ chunk.docs.capacity) :
    match chunkRows Y schema batch pkDef rows with
    | (.ok docs, more) => ∃ chunk' : Chunk Y,
      Chunked.chunkLoop Y schema batch pkDef rows chunk skipped = (.ok chunk', skipped + more) ∧
      chunk'.docs.Tracks chunk'.ptrs ∧ chunk'.docs.items = chunk.docs.items ++ docs
    | (.error err, more) =>
      Chunked.chunkLoop Y schema batch pkDef rows chunk skipped = (.error err, skipped + more) := by
  induction rows generalizing chunk skipped with
  | nil => exact ⟨chunk, rfl, htracks, (List.append_nil _).symm⟩
  | cons row rest ih =>
    unfold chunkRows Chunked.chunkLoop
    rw [List.length_cons] at hroom
    cases hrow : importRow Y schema batch pkDef row with
    | error err => rfl
    | ok entry =>
      dsimp only
      cases entry with
      | none =>
        have hnext := ih chunk (skipped + 1) htracks (by omega)
        cases hrest : chunkRows Y schema batch pkDef rest with
        | mk result more =>
          rw [hrest] at hnext
          have hsum : skipped + 1 + more = skipped + (more + 1) := by omega
          cases result with
          | error err => exact hnext.trans (congrArg _ hsum)
          | ok docs =>
            obtain ⟨chunk', hloop, htracks', hall⟩ := hnext
            exact ⟨chunk', hloop.trans (congrArg _ hsum), htracks', hall⟩
      | some doc =>
        have hlt : chunk.docs.items.length < chunk.docs.capacity := by omega
        have hitems : (chunk.push doc).docs.items = chunk.docs.items ++ [doc] := by
          rw [Chunk.push, Vec.pushBack_of_lt hlt]
        have hcap : (chunk.push doc).docs.capacity = chunk.docs.capacity := by
          rw [Chunk.push, Vec.pushBack_of_lt hlt]
        have hnext := ih (chunk.push doc) skipped (htracks.pushBack hlt) (by
          rw [hitems, hcap, List.length_append, List.length_singleton]
          omega)
        cases hrest : chunkRows Y schema batch pkDef rest with
        | mk result more =>
          rw [hrest] at hnext
          cases result with
          | error err => exact hnext
          | ok docs =>
            obtain ⟨chunk', hloop, htracks', hall⟩ := hnext
            refine ⟨chunk', hloop, htracks', ?_⟩
            rw [hall, hitems, List.append_assoc]
            rfl

variable (Y schema batch pkDef skipped) in
/-- The loop over the rows of a chunk with its vectors reserved. -/
theorem reservedLoop_eq (rows : List Nat) {cap : Nat} (hcap : rows.length ≤ cap) :
    match chunkRows Y schema batch pkDef rows with
    | (.ok docs, more) => ∃ chunk : Chunk Y,
      Chunked.chunkLoop Y schema batch pkDef rows (.reserved Y cap) skipped =
        (.ok chunk, skipped + more) ∧
      chunk.read = some docs ∧ chunk.ptrs.length = docs.length
    | (.error err, more) => Chunked.chunkLoop Y schema batch pkDef rows (.reserved Y cap) skipped =
      (.error err, skipped + more) := by
  obtain ⟨hnil, hle⟩ := Vec.capacity_reserve (α := Y.Doc) cap
  have hloop := chunkLoop_eq Y schema batch pkDef rows (.reserved Y cap) skipped
    (Vec.tracks_reserve cap) (by
      show (Vec.reserve Vec.empty cap).items.length + rows.length ≤ _
      rw [hnil, List.length_nil, Nat.zero_add]
      exact Nat.le_trans hcap hle)
  cases hrows : chunkRows Y schema batch pkDef rows with
  | mk result more =>
    rw [hrows] at hloop
    cases result with
    | error err => exact hloop
    | ok docs =>
      obtain ⟨chunk, heq, htracks, hitems⟩ := hloop
      have hdocs : chunk.docs.items = docs := by
        rw [hitems]
        show (Vec.reserve Vec.empty cap).items ++ docs = docs
        rw [hnil, List.nil_append]
      exact ⟨chunk, heq, hdocs ▸ htracks.mapM_deref, hdocs ▸ htracks.length⟩

/-! ## Chunks -/

/-- One more chunk; `BatchPut` is not called when it has no documents. -/
def Imported.put (done : Imported Y) (docs : List Y.Doc) (skipped : Nat) :
    Imported Y where
  puts :=
    match docs with
    | [] => done.puts
    | _ => done.puts ++ [docs]
  rowsImported := done.rowsImported + docs.length
  skippedPkNull := done.skippedPkNull + skipped

/-- One chunk of the code is the rows of it, put as they are. -/
theorem processChunks_succ {chunks start : Nat} (hlt : start < batch.numRows) :
    Chunked.processChunks Y schema batch k pkDef (chunks + 1) start done =
      match chunkRows Y schema batch pkDef
        (List.range' start (min batch.numRows (start + k) - start)) with
      | (.error err, more) =>
        some ({ done with skippedPkNull := done.skippedPkNull + more }, .error err)
      | (.ok docs, more) =>
        Chunked.processChunks Y schema batch k pkDef chunks (start + k) (done.put docs more) := by
  have hloop := reservedLoop_eq Y schema batch pkDef done.skippedPkNull
    (List.range' start (min batch.numRows (start + k) - start)) (Nat.le_of_eq List.length_range')
  rw [Chunked.processChunks, if_pos hlt]
  cases hresult : chunkRows Y schema batch pkDef
      (List.range' start (min batch.numRows (start + k) - start)) with
  | mk result more =>
    rw [hresult] at hloop
    cases result with
    | error err =>
      dsimp only at hloop ⊢
      rw [hloop]
    | ok docs =>
      obtain ⟨chunk, hloop, hread, hlen⟩ := hloop
      dsimp only
      rw [hloop]
      cases docs with
      | nil =>
        dsimp only
        rw [if_pos (List.length_eq_zero_iff.mp hlen)]
        rfl
      | cons doc docs =>
        have hne : chunk.ptrs ≠ [] := fun h => by
          rw [h] at hlen
          cases hlen
        dsimp only
        rw [if_neg hne, hread, hlen]
        rfl

theorem Imported.puts_put (docs : List Y.Doc) (skipped : Nat) :
    (done.put docs skipped).puts.flatten = done.puts.flatten ++ docs := by
  cases docs with
  | nil => exact (List.append_nil _).symm
  | cons doc docs => simp [Imported.put]

theorem docsBefore_add (m n : Nat) : docsBefore Y schema batch pkDef (m + n) =
    docsBefore Y schema batch pkDef m ++
      (List.range' m n).filterMap (rowDoc Y schema batch pkDef) := by
  rw [docsBefore, docsBefore, List.range_eq_range', List.range_eq_range', ← List.filterMap_append]
  have hsplit : List.range' 0 m ++ List.range' (0 + 1 * m) n = List.range' 0 (m + n) :=
    List.range'_append
  rw [Nat.zero_add, Nat.one_mul] at hsplit
  rw [hsplit]

/-- The rows before `start` have been imported, and all of them are good. -/
structure Reached (Y : Yikv) (schema : Schema) (batch : RecordBatch) (pkDef : FieldDef)
    (before done : Imported Y) (start : Nat) : Prop where
  clean : CleanBefore Y schema batch pkDef start
  grown : Grown Y before done (docsBefore Y schema batch pkDef start)
  skipped : done.skippedPkNull + (docsBefore Y schema batch pkDef start).length =
    before.skippedPkNull + start

/-- One chunk of good rows takes the import on. -/
theorem Reached.next {before : Imported Y} {start size more : Nat}
    (h : Reached Y schema batch pkDef before done start)
    (hclean : ∀ row ∈ List.range' start size, ∃ entry,
      importRow Y schema batch pkDef row = .ok entry)
    (hdocs : docs = (List.range' start size).filterMap (rowDoc Y schema batch pkDef))
    (hcount : more + docs.length = size) :
    Reached Y schema batch pkDef before (done.put docs more) (start + size) := by
  have hall : docsBefore Y schema batch pkDef (start + size) =
      docsBefore Y schema batch pkDef start ++ docs := by rw [docsBefore_add, hdocs]
  refine ⟨fun row hrow => ?_, ⟨?_, ?_⟩, ?_⟩
  · by_cases hlt : row < start
    · exact h.clean row hlt
    · exact hclean row (List.mem_range'_1.mpr ⟨by omega, hrow⟩)
  · rw [Imported.puts_put, h.grown.puts, hall, List.append_assoc]
  · rw [hall, List.length_append, ← Nat.add_assoc, ← h.grown.rowsImported]
    rfl
  · have hbefore := h.skipped
    rw [hall, List.length_append]
    dsimp only [Imported.put]
    omega

/-- A bad row of the chunk from `start` on: it is the first one, and its chunk is this. -/
theorem Reached.failed {before : Imported Y} {start size : Nat}
    (h : Reached Y schema batch pkDef before done start) (hk : k ∣ start) (hsize : size ≤ k)
    (hend : start + size ≤ batch.numRows) {pre post : List Nat}
    (hsplit : List.range' start size = pre ++ row :: post)
    (hpre : ∀ r ∈ pre, ∃ entry, importRow Y schema batch pkDef r = .ok entry)
    (hrow : importRow Y schema batch pkDef row = .error err) (skipped : Nat) :
    LoopedRows Y schema batch pkDef k before ({ done with skippedPkNull := skipped }, .error err) := by
  obtain ⟨i, hi, rfl, hrest⟩ := List.range'_eq_append_iff.mp hsplit
  obtain ⟨hindex, hlt, -⟩ := List.range'_eq_cons_iff.mp hrest.symm
  rw [Nat.mul_one] at hindex
  have hstart : row / k * k = start := by
    obtain ⟨m, rfl⟩ := hk
    have hdiv : row / k = m := by
      rw [← hindex, Nat.mul_add_div (by omega), Nat.div_eq_of_lt (by omega), Nat.add_zero]
    rw [hdiv, Nat.mul_comm]
  refine ⟨row, by omega, fun r hr => ?_, hrow, ?_⟩
  · by_cases hbefore : r < start
    · exact h.clean r hbefore
    · exact hpre r (List.mem_range'_1.mpr ⟨by omega, by omega⟩)
  · rw [hstart]
    exact ⟨h.grown.puts, h.grown.rowsImported⟩

theorem Reached.finished {before : Imported Y}
    (h : Reached Y schema batch pkDef before done batch.numRows) :
    LoopedRows Y schema batch pkDef k before (done, .ok ()) :=
  ⟨h.clean, h.grown, h.skipped⟩

variable (Y schema pkDef) in
/-- From any chunk on: no pointer dangles, and the outcome is the one of the rows. -/
theorem processChunks_looped {before : Imported Y} {chunks start : Nat}
    (hk : k ∣ start) (hpos : 0 < k) (hfuel : batch.numRows ≤ start + chunks * k)
    (h : Reached Y schema batch pkDef before done (min batch.numRows start)) :
    ∃ outcome, Chunked.processChunks Y schema batch k pkDef chunks start done = some outcome ∧
      LoopedRows Y schema batch pkDef k before outcome := by
  induction chunks generalizing start done with
  | zero =>
    rw [Nat.min_eq_left (by omega)] at h
    exact ⟨_, rfl, h.finished⟩
  | succ chunks ih =>
    by_cases hlt : start < batch.numRows
    swap
    · rw [Nat.min_eq_left (by omega)] at h
      rw [Chunked.processChunks, if_neg hlt]
      exact ⟨_, rfl, h.finished⟩
    rw [Nat.min_eq_right (by omega)] at h
    rw [processChunks_succ hlt]
    have hsize : min batch.numRows (start + k) - start ≤ k := by omega
    have hend : start + (min batch.numRows (start + k) - start) =
        min batch.numRows (start + k) := by omega
    have hnextFuel : batch.numRows ≤ start + k + chunks * k := by
      rw [Nat.add_mul, Nat.one_mul] at hfuel
      omega
    have hrows := chunkRows_spec Y schema batch pkDef
      (List.range' start (min batch.numRows (start + k) - start))
    cases hresult : chunkRows Y schema batch pkDef
        (List.range' start (min batch.numRows (start + k) - start)) with
    | mk result more =>
      rw [hresult] at hrows
      cases result with
      | error err =>
        obtain ⟨pre, row, post, hsplit, hpre, hrow⟩ := hrows
        exact ⟨_, rfl, h.failed hk hsize (by omega) hsplit hpre hrow _⟩
      | ok docs =>
        obtain ⟨hclean, hdocs, hcount⟩ := hrows
        rw [List.length_range'] at hcount
        exact ih (Nat.dvd_add hk (Nat.dvd_refl k)) hnextFuel (hend ▸ h.next hclean hdocs hcount)

theorem reached_start (before : Imported Y) :
    Reached Y schema batch pkDef before before 0 :=
  ⟨fun _ h => absurd h (Nat.not_lt_zero _), ⟨(List.append_nil _).symm, rfl⟩, rfl⟩

/-- Whatever the size of a chunk, no pointer dangles, and the outcome is the one of the rows. -/
theorem chunked_looped (Y : Yikv) (schema : Schema) (batch : RecordBatch) (k : Nat)
    (hpos : 0 < k) (before : Imported Y) :
    ∃ outcome, Chunked.processBatch Y schema batch k before = some outcome ∧
      BatchLooped Y schema batch k before outcome := by
  unfold Chunked.processBatch
  cases hvalid : validateBatchColumns batch schema with
  | error err => exact ⟨_, rfl, Or.inl ⟨err, rfl, Or.inl hvalid⟩⟩
  | ok u =>
    cases hpk : schema.findField schema.pk with
    | none => exact ⟨_, rfl, Or.inl ⟨_, rfl, Or.inr hpk⟩⟩
    | some pkDef =>
      have hfuel : batch.numRows ≤ 0 + (batch.numRows / k + 1) * k := by
        have hlt := Nat.lt_div_mul_add (a := batch.numRows) hpos
        rw [Nat.add_mul, Nat.one_mul]
        omega
      obtain ⟨outcome, hrun, hrows⟩ := processChunks_looped Y schema pkDef
        (Nat.dvd_zero k) hpos hfuel (by
          rw [Nat.min_zero]
          exact reached_start before)
      exact ⟨outcome, hrun, Or.inr ⟨pkDef, hpk, hrows⟩⟩

/-! ## The size of the source -/

theorem processChunks_eq (chunks start : Nat) (done : Imported Y) :
    Chunked.processChunks Y schema batch kImportChunkRows pkDef chunks start done =
      some (processChunks Y schema batch pkDef chunks start done) := by
  induction chunks generalizing start done with
  | zero => rfl
  | succ chunks ih =>
    by_cases hlt : start < batch.numRows
    swap
    · rw [Chunked.processChunks, processChunks, if_neg hlt, if_neg hlt]
    rw [processChunks_succ hlt, processChunks, if_pos hlt]
    dsimp only
    cases hresult : chunkRows Y schema batch pkDef
        (List.range' start (min batch.numRows (start + kImportChunkRows) - start)) with
    | mk result more =>
      cases result with
      | error err => rfl
      | ok docs =>
        cases docs with
        | nil => exact ih _ _
        | cons doc docs => exact ih _ _

/-- Reading through the pointers comes to the documents of the chunk. -/
theorem processBatch_eq (before : Imported Y) :
    Chunked.processBatch Y schema batch kImportChunkRows before =
      some (processBatch Y schema batch before) := by
  unfold Chunked.processBatch processBatch
  cases validateBatchColumns batch schema with
  | error err => rfl
  | ok u =>
    cases schema.findField schema.pk with
    | none => rfl
    | some pkDef => exact processChunks_eq _ _ _

/-! ## Qualifying rows -/

theorem importRow_eq_error :
    importRow Y schema batch pkDef row = .error err ↔ Refuses Y schema batch pkDef row err := by
  unfold importRow Refuses
  cases hcol : batch.getColumnByName pkDef.name with
  | none => exact iff_of_false (fun h => nomatch h) fun ⟨_, h, _⟩ => nomatch h
  | some pkCol =>
    dsimp only
    by_cases hnull : arrowCellIsNull pkCol row = true
    · rw [if_pos hnull]
      refine iff_of_false (fun h => nomatch h) ?_
      rintro ⟨pkCol', heq, hvalid, -⟩
      obtain rfl := Option.some.inj heq
      rw [hnull] at hvalid
      cases hvalid
    rw [if_neg hnull]
    have hvalid : arrowCellIsNull pkCol row = false := Bool.eq_false_iff.mpr hnull
    cases hfold : schema.fields.foldlM (applyColumn Y batch row) Y.newDoc with
    | error err' =>
      constructor
      · intro h
        exact ⟨pkCol, rfl, hvalid, Or.inl (congrArg Except.error (Except.error.inj h))⟩
      · rintro ⟨-, -, -, h | ⟨doc, h, -⟩⟩
        · exact congrArg Except.error (Except.error.inj h)
        · cases h
    | ok doc =>
      dsimp only
      constructor
      · intro h
        cases hpk : importPk Y pkDef doc with
        | error err' =>
          rw [hpk] at h
          obtain rfl := Except.error.inj h
          exact ⟨pkCol, rfl, hvalid, Or.inr ⟨doc, rfl, hpk⟩⟩
        | ok pk =>
          rw [hpk] at h
          dsimp only at h
          split at h <;> cases h
      · rintro ⟨-, -, -, h | ⟨doc', h, hpk⟩⟩
        · cases h
        · obtain rfl := Except.ok.inj h
          rw [hpk]

theorem noneRefused_of_clean (h : CleanBefore Y schema batch pkDef n) :
    NoneRefused Y schema batch pkDef n := by
  intro row hrow err hrefuses
  obtain ⟨entry, hentry⟩ := h row hrow
  rw [importRow_eq_error.mpr hrefuses] at hentry
  cases hentry

/-- Each document with the row that it is taken from. -/
theorem forall₂_filterMap {α β : Type} (f : α → Option β) (l : List α) :
    List.Forall₂ (fun a b => f a = some b) (l.filter fun a => (f a).isSome) (l.filterMap f) := by
  induction l with
  | nil => exact .nil
  | cons a rest ih =>
    cases hf : f a with
    | none =>
      rw [List.filterMap_cons_none hf, List.filter_cons_of_neg (by simp [hf])]
      exact ih
    | some b =>
      rw [List.filterMap_cons_some hf, List.filter_cons_of_pos (by simp [hf])]
      exact .cons hf ih

variable (Y schema batch pkDef n) in
/-- What the row loop collects are the documents of the qualifying rows. -/
theorem qualifyingDocs_docsBefore :
    QualifyingDocs Y schema batch pkDef n (docsBefore Y schema batch pkDef n) := by
  refine ⟨(List.range n).filter fun row => (rowDoc Y schema batch pkDef row).isSome,
    List.pairwise_lt_range.filter _, fun row => ?_, ?_⟩
  · rw [List.mem_filter, List.mem_range, Option.isSome_iff_exists]
    simp only [rowDoc_eq_some]
  · exact (forall₂_filterMap (rowDoc Y schema batch pkDef) _).imp fun _ _ h => rowDoc_eq_some.mp h

theorem LoopedRows.rowByRow {before : Imported Y} {outcome : Imported Y × Except ImportError Unit}
    (h : LoopedRows Y schema batch pkDef k before outcome) :
    RowByRow Y schema batch pkDef k before outcome := by
  obtain ⟨after, result⟩ := outcome
  cases result with
  | ok u =>
    obtain ⟨hclean, hgrown, hcount⟩ := h
    exact ⟨noneRefused_of_clean hclean, _, qualifyingDocs_docsBefore _ _ _ _ _, hgrown, hcount⟩
  | error err =>
    obtain ⟨row, hrow, hclean, herr, hgrown⟩ := h
    exact ⟨row, hrow, noneRefused_of_clean hclean, importRow_eq_error.mp herr, _,
      qualifyingDocs_docsBefore _ _ _ _ _, hgrown⟩

/-- Whatever the size of a chunk, a batch is refused as a whole or imported as its rows are
one by one, through pointers that are good. -/
theorem chunked_imported (Y : Yikv) (schema : Schema) (batch : RecordBatch) (k : Nat)
    (hpos : 0 < k) (before : Imported Y) :
    ∃ outcome, Chunked.processBatch Y schema batch k before = some outcome ∧
      BatchImported Y schema batch k before outcome := by
  obtain ⟨outcome, hrun, hlooped⟩ := chunked_looped Y schema batch k hpos before
  refine ⟨outcome, hrun, hlooped.imp_right ?_⟩
  rintro ⟨pkDef, hpk, hrows⟩
  exact ⟨pkDef, hpk, hrows.rowByRow⟩

/-- `ProcessBatch` imports a batch as its rows are imported one by one, and so it would with
chunks of any other size. -/
theorem processBatch_rowByRow (Y : Yikv) (schema : Schema) (batch : RecordBatch)
    (before : Imported Y) :
    Chunked.processBatch Y schema batch kImportChunkRows before =
        some (processBatch Y schema batch before) ∧
      BatchImported Y schema batch kImportChunkRows before (processBatch Y schema batch before) ∧
      ∀ k, 0 < k → ∃ outcome, Chunked.processBatch Y schema batch k before = some outcome ∧
        BatchImported Y schema batch k before outcome := by
  refine ⟨processBatch_eq before, ?_, fun k hpos => ?_⟩
  · obtain ⟨outcome, hrun, himported⟩ :=
      chunked_imported Y schema batch kImportChunkRows (by decide) before
    rw [processBatch_eq] at hrun
    exact Option.some.inj hrun ▸ himported
  · exact chunked_imported Y schema batch k hpos before

def idSchema : Schema where
  fields := [⟨"id", 1, .int64, false⟩]
  pk := "id"
  names := by decide
  ids := by decide

/-- Two rows, of which the second has no pk. -/
def idBatch : RecordBatch where
  numRows := 2
  columns := [("id", .int64 [⟨false, 5⟩, ⟨true, 0⟩])]
  lengths := by decide

/-- One row a chunk. -/
theorem idBatch_rowByRow :
    ∃ outcome, Chunked.processBatch .plain idSchema idBatch 1 ⟨[], 0, 0⟩ = some outcome ∧
      BatchImported .plain idSchema idBatch 1 ⟨[], 0, 0⟩ outcome :=
  (processBatch_rowByRow .plain idSchema idBatch ⟨[], 0, 0⟩).2.2 1 (by decide)

end YikvServer.Import
