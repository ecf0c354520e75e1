import YikvServer.Import.WholeImport
import YikvServer.Import.Chunks

/-!
# What an import leaves in the index

The threads of the pipeline and `ProcessBatch` in one system: the writer processes the
record batch of the rows it has popped, and its failures are those of `ProcessBatch`. In a
file a batch is one record batch of the reader; of a query it is the rows that `FlushBatch`
puts into one. When the keys are new and distinct, neither the order of the batches nor the
number of workers shows in the index.
-/
namespace YikvServer.Import

open YikvServer.Theory YikvServer.Index

/-- The import of a run: its threads, and what `ProcessBatch` has put and counted. -/
structure ImportRun (Y : Yikv) (Row : Type) where
  pipeline : Pipeline Row
  imported : Imported Y

/-- No rows and no columns. -/
def noRecord : RecordBatch where
  numRows := 0
  columns := []
  lengths _ hc := absurd hc List.not_mem_nil

section Run
variable (Y : Yikv) (schema : Schema) {Row : Type} (src : Source Row)
  (record : Batch Row → RecordBatch)

def ImportRun.init (workers capacity : Nat) : ImportRun Y Row := ⟨.init workers capacity, ⟨[], 0, 0⟩⟩

/-- A move of the pipeline. The writer fails on a batch exactly when `ProcessBatch` does. -/
def ImportRun.step (w : ImportRun Y Row) (m : Move) : Option (ImportRun Y Row) :=
  match m, w.pipeline.writer with
  | .writer fail, .process batch =>
    let (imported, result) := processBatch Y schema (record batch) w.imported
    if result.isOk = !fail then
      (w.pipeline.step src m).map fun pipeline => { pipeline, imported }
    else none
  | _, _ => (w.pipeline.step src m).map fun pipeline => { w with pipeline }

/-- `KVIndex::BatchPut` is its documents put in order. -/
def batchPut (idx : Y.Contents) (docs : List Y.Doc) : Y.Contents := docs.foldl (Y.put' schema) idx

/-- The index after the `BatchPut` calls. -/
def ImportRun.contents (w : ImportRun Y Row) (idx : Y.Contents) : Y.Contents :=
  w.imported.puts.foldl (batchPut Y schema) idx

end Run

section Spec
variable (Y : Yikv) (schema : Schema)

/-- Every row of the batch is imported or skipped. -/
def CleanBatch (batch : RecordBatch) : Prop :=
  ∃ pkDef, schema.findField schema.pk = some pkDef ∧
    CleanBefore Y schema batch pkDef batch.numRows

/-- The documents of the rows that are imported. -/
def importedDocs (batch : RecordBatch) : List Y.Doc :=
  match schema.findField schema.pk with
  | none => []
  | some pkDef => docsBefore Y schema batch pkDef batch.numRows

/-- The rows of these batches. -/
def totalRows : List RecordBatch → Nat
  | [] => 0
  | batch :: rest => batch.numRows + totalRows rest

/-- The counters and the `BatchPut` calls after these batches. -/
structure Counted (imported : Imported Y) (done : List RecordBatch) : Prop where
  puts : imported.puts.flatten = done.flatMap (importedDocs Y schema)
  rowsImported : imported.rowsImported = imported.puts.flatten.length
  rows : imported.rowsImported + imported.skippedPkNull = totalRows done
  clean : ∀ batch ∈ done, CleanBatch Y schema batch

/-- The documents under their keys, over an index. -/
def filed (idx : Y.Contents) (docs : List Y.Doc) : Y.Contents := fun k =>
  (docs.find? fun doc => decide (Y.key schema doc = k)).or (idx k)

end Spec

variable {Y : Yikv} {schema : Schema} {Row : Type} {src : Source Row}
  {record : Batch Row → RecordBatch} {w w' : ImportRun Y Row} {m : Move}
  {imported imported' : Imported Y} {done : List RecordBatch} {batch : RecordBatch}
  {idx : Y.Contents} {docs docs' : List Y.Doc}

/-! ## The writer -/

theorem totalRows_append (done more : List RecordBatch) :
    totalRows (done ++ more) = totalRows done + totalRows more := by
  induction done with
  | nil => simp only [List.nil_append, totalRows, Nat.zero_add]
  | cons batch done ih => simp only [List.cons_append, totalRows, ih, Nat.add_assoc]

theorem totalRows_perm {done done' : List RecordBatch} (h : done.Perm done') :
    totalRows done = totalRows done' := by
  induction h with
  | nil => rfl
  | cons batch _ ih => simp only [totalRows, ih]
  | swap a b rest =>
    simp only [totalRows]
    omega
  | trans _ _ ih₁ ih₂ => exact ih₁.trans ih₂

theorem Counted.next (h : Counted Y schema imported done)
    (hok : processBatch Y schema batch imported = (imported', .ok ())) :
    Counted Y schema imported' (done ++ [batch]) := by
  obtain ⟨outcome, hrun, hbatch⟩ :=
    chunked_looped Y schema batch kImportChunkRows (by decide) imported
  rw [processBatch_eq, hok] at hrun
  obtain rfl := Option.some.inj hrun
  rcases hbatch with ⟨err, heq, -⟩ | ⟨pkDef, hpk, hclean, hgrown, hrows⟩
  · cases heq
  have hdocs : importedDocs Y schema batch = docsBefore Y schema batch pkDef batch.numRows := by
    rw [importedDocs, hpk]
  refine ⟨?_, ?_, ?_, ?_⟩
  · rw [hgrown.puts, h.puts, ← hdocs, List.flatMap_append, List.flatMap_singleton]
  · rw [hgrown.rowsImported, hgrown.puts, List.length_append, ← h.rowsImported]
  · have hbefore := h.rows
    have hcount := hgrown.rowsImported
    rw [totalRows_append]
    simp only [totalRows]
    omega
  · intro b hb
    rcases List.mem_append.mp hb with hb | hb
    · exact h.clean b hb
    · obtain rfl := List.mem_singleton.mp hb
      exact ⟨pkDef, hpk, hclean⟩

/-- While nothing has failed, what is put and counted is what the batches before the one in
work come to. -/
def ImportRun.Tracks (schema : Schema) (record : Batch Row → RecordBatch) (w : ImportRun Y Row) :
    Prop :=
  w.pipeline.shared.fault = false →
    match w.pipeline.writer with
    | .process batch => ∃ done, w.pipeline.shared.handed = done ++ [batch] ∧
        Counted Y schema w.imported (done.map record)
    | _ => Counted Y schema w.imported (w.pipeline.shared.handed.map record)

theorem apply_handed {effect : Effect Row} {shared shared' : Shared Row} {i : Nat}
    (h : effect.apply src i shared = some shared') : shared'.handed = shared.handed := by
  unfold Effect.apply at h
  cases effect <;> grind

/-- A batch without an error is counted, and one with an error is a failure. -/
theorem ImportRun.Tracks.process {fail : Bool} {rows : Batch Row} {pipeline : Pipeline Row}
    {result : Except ImportError Unit} (h : w.Tracks schema record)
    (hclean : w.pipeline.shared.fault = false) (hwriter : w.pipeline.writer = .process rows)
    (hpipe : w.pipeline.step src (.writer fail) = some pipeline)
    (hresult : processBatch Y schema (record rows) w.imported = (imported', result))
    (hok : result.isOk = !fail) :
    ImportRun.Tracks schema record ⟨pipeline, imported'⟩ := by
  intro hclean'
  obtain ⟨⟨shared, pc⟩, hwrite, rfl⟩ := Option.map_eq_some_iff.mp hpipe
  rw [hwriter] at hwrite
  cases fail with
  | true =>
    obtain ⟨rfl, rfl⟩ := Prod.mk.inj (Option.some.inj hwrite)
    cases hclean'
  | false =>
    obtain ⟨rfl, rfl⟩ := Prod.mk.inj (Option.some.inj hwrite)
    have hnow := h hclean
    rw [hwriter] at hnow
    obtain ⟨done, hhanded, hcounted⟩ := hnow
    cases result with
    | error err => cases hok
    | ok u =>
      show Counted Y schema imported' (w.pipeline.shared.handed.map record)
      rw [hhanded, List.map_append]
      exact hcounted.next hresult

/-- Everything else leaves the counters, and hands over batch after batch. -/
theorem ImportRun.Tracks.other {pipeline : Pipeline Row} (h : w.Tracks schema record)
    (hpipe : w.pipeline.step src m = some pipeline)
    (hm : ∀ fail rows, ¬ (m = .writer fail ∧ w.pipeline.writer = .process rows)) :
    ImportRun.Tracks schema record ⟨pipeline, w.imported⟩ := by
  intro hclean'
  have hnow := h (clean_before hpipe hclean')
  cases m with
  | producer i fail =>
    obtain ⟨pc, -, hpipe⟩ := Option.bind_eq_some_iff.mp hpipe
    obtain ⟨⟨effect, pc'⟩, -, hpipe⟩ := Option.bind_eq_some_iff.mp hpipe
    obtain ⟨shared, happly, rfl⟩ := Option.map_eq_some_iff.mp hpipe
    dsimp only
    rwa [apply_handed happly]
  | writer fail =>
    obtain ⟨⟨shared, pc⟩, hwrite, rfl⟩ := Option.map_eq_some_iff.mp hpipe
    have hturn := writerTurn hwrite
    have hother := hm fail
    dsimp only at hclean' ⊢
    generalize w.pipeline.writer = old at hturn hnow hother
    cases hturn with
    | fault _ hpc => cases hclean'
    | go _ hpc =>
      rcases hpc with rfl | ⟨rows, rfl⟩
      · exact hnow
      · exact absurd ⟨rfl, rfl⟩ (hother rows)
    | popped rows rest hq => exact ⟨_, rfl, hnow⟩
    | _ => exact hnow
  | main =>
    obtain ⟨⟨shared, pc⟩, hmain, rfl⟩ := Option.map_eq_some_iff.mp hpipe
    have hturn := mainTurn hmain
    dsimp only
    generalize w.pipeline.main = old at hturn
    cases hturn <;> exact hnow

theorem ImportRun.Tracks.step (h : w.Tracks schema record)
    (hstep : w.step Y schema src record m = some w') : w'.Tracks schema record := by
  unfold ImportRun.step at hstep
  split at hstep
  · next fail rows hwriter =>
    dsimp only at hstep
    split at hstep
    · next hok =>
      obtain ⟨pipeline, hpipe, rfl⟩ := Option.map_eq_some_iff.mp hstep
      exact fun hclean => h.process (clean_before hpipe hclean) hwriter hpipe rfl hok hclean
    · cases hstep
  · next hother =>
    obtain ⟨pipeline, hpipe, rfl⟩ := Option.map_eq_some_iff.mp hstep
    refine h.other hpipe ?_
    rintro fail rows ⟨rfl, hwriter⟩
    exact hother fail rows rfl hwriter

/-! ## The index -/

theorem batchPut_flatten (puts : List (List Y.Doc)) :
    puts.foldl (batchPut Y schema) idx = batchPut Y schema idx puts.flatten := by
  rw [batchPut, List.foldl_flatten]
  rfl

/-- New keys are filed one after another. -/
theorem batchPut_new (hkeys : (docs.map (Y.key schema)).Nodup)
    (hnew : ∀ doc ∈ docs, idx (Y.key schema doc) = none) :
    batchPut Y schema idx docs = filed Y schema idx docs := by
  induction docs generalizing idx with
  | nil => rfl
  | cons doc docs ih =>
    obtain ⟨hfirst, hrest⟩ := List.nodup_cons.mp hkeys
    have hput : Y.put' schema idx doc = Y.upsert schema idx doc :=
      Yikv.put'_absent (hnew doc List.mem_cons_self)
    have hnext : ∀ d ∈ docs, Y.upsert schema idx doc (Y.key schema d) = none := by
      intro d hd
      have hne : Y.key schema d ≠ Y.key schema doc :=
        fun he => hfirst (he ▸ List.mem_map_of_mem hd)
      rw [Yikv.upsert_apply, if_neg hne]
      exact hnew d (List.mem_cons_of_mem _ hd)
    show batchPut Y schema (Y.put' schema idx doc) docs = _
    rw [hput, ih hrest hnext]
    funext k
    by_cases hk : Y.key schema doc = k
    · have hnone : docs.find? (fun d => decide (Y.key schema d = k)) = none :=
        List.find?_eq_none.mpr fun d hd hdk => by
          refine hfirst ?_
          rw [hk, ← of_decide_eq_true hdk]
          exact List.mem_map_of_mem hd
      simp [filed, hk, hnone, Yikv.upsert_apply]
    · simp [filed, hk, Yikv.upsert_apply, Ne.symm hk]

/-- The order of documents with distinct keys does not show. -/
theorem filed_perm (h : docs.Perm docs') (hkeys : (docs.map (Y.key schema)).Nodup) :
    filed Y schema idx docs = filed Y schema idx docs' := by
  funext k
  refine congrArg (Option.or · (idx k)) ?_
  induction h with
  | nil => rfl
  | cons doc _ ih =>
    simp only [List.find?_cons]
    rw [ih (List.nodup_cons.mp hkeys).2]
  | swap a b docs =>
    have hne : Y.key schema b ≠ Y.key schema a :=
      fun he => (List.nodup_cons.mp hkeys).1 (he ▸ List.mem_cons_self)
    simp only [List.find?_cons]
    by_cases hb : Y.key schema b = k
    · have ha : ¬ Y.key schema a = k := fun ha => hne (hb.trans ha.symm)
      simp [ha, hb]
    · simp [hb]
  | trans h₁ _ ih₁ ih₂ =>
    rw [ih₁ hkeys, ih₂ ((h₁.map _).nodup_iff.mp hkeys)]

theorem ImportRun.step_pipeline (hstep : w.step Y schema src record m = some w') :
    w.pipeline.step src m = some w'.pipeline := by
  unfold ImportRun.step at hstep
  split at hstep
  · dsimp only at hstep
    split at hstep
    · obtain ⟨pipeline, hpipe, rfl⟩ := Option.map_eq_some_iff.mp hstep
      exact hpipe
    · cases hstep
  · obtain ⟨pipeline, hpipe, rfl⟩ := Option.map_eq_some_iff.mp hstep
    exact hpipe

theorem ImportRun.run_pipeline {moves : List Move}
    (hrun : Runs.exec (ImportRun.step Y schema src record) w moves = some w') :
    Runs.exec (Pipeline.step src) w.pipeline moves = some w'.pipeline :=
  Runs.exec_map (f := ImportRun.pipeline) (fun _ _ _ hstep => step_pipeline hstep) hrun

/-- At the end of an import that has not failed the batches are counted in their order. -/
theorem ImportRun.counted {workers capacity : Nat} {moves : List Move}
    (hrun : Runs.exec (ImportRun.step Y schema src record) (.init Y workers capacity) moves =
      some w)
    (hdone : w.pipeline.main = .done) (hok : w.pipeline.shared.failed = false) :
    Counted Y schema w.imported (w.pipeline.shared.handed.map record) := by
  have hsound : Sound src capacity w.pipeline := .run (ImportRun.run_pipeline hrun)
  have htracks : w.Tracks schema record := by
    refine Runs.exec_invariant (fun _ _ _ h hs => h.step hs) hrun fun _ => ?_
    exact ⟨rfl, rfl, rfl, fun _ h => by cases h⟩
  have hcounted := htracks (hsound.clean hdone hok)
  rwa [hsound.phases.mainDone hdone] at hcounted

/-- An import that ends without an error has imported or skipped every row of the source,
whatever the schedule: it has put exactly the documents of the rows that qualify and counted
every row, and when their keys are new and distinct the index is what it was with each
document under its key. -/
theorem import_contents (Y : Yikv) (schema : Schema) (src : Source Row)
    (record : Batch Row → RecordBatch) (workers capacity : Nat) (moves : List Move)
    (w : ImportRun Y Row)
    (hrun : Runs.exec (ImportRun.step Y schema src record) (.init Y workers capacity) moves =
      some w)
    (hdone : w.pipeline.main = .done) (hok : w.pipeline.shared.failed = false) :
    let batches := src.batches.map record
    let docs := batches.flatMap (importedDocs Y schema)
    (∀ batch ∈ batches, CleanBatch Y schema batch) ∧
      w.imported.puts.flatten.Perm docs ∧
      w.imported.rowsImported = docs.length ∧
      w.imported.rowsImported + w.imported.skippedPkNull = totalRows batches ∧
      ∀ idx, (docs.map (Y.key schema)).Nodup → (∀ doc ∈ docs, idx (Y.key schema doc) = none) →
        w.contents Y schema idx = filed Y schema idx docs := by
  intro batches docs
  have hsound : Sound src capacity w.pipeline := .run (ImportRun.run_pipeline hrun)
  have hcounted := ImportRun.counted hrun hdone hok
  have hperm : (w.pipeline.shared.handed.map record).Perm batches :=
    (hsound.complete hdone hok).1.map record
  have hputs : w.imported.puts.flatten.Perm docs := by
    rw [hcounted.puts]
    exact hperm.flatMap_right _
  refine ⟨fun batch hb => hcounted.clean batch (hperm.mem_iff.mpr hb), hputs, ?_, ?_, ?_⟩
  · rw [hcounted.rowsImported, hputs.length_eq]
  · rw [hcounted.rows]
    exact totalRows_perm hperm
  · intro idx hkeys hnew
    rw [ImportRun.contents, batchPut_flatten, batchPut_new]
    · exact filed_perm hputs ((hputs.map _).nodup_iff.mpr hkeys)
    · exact (hputs.map _).nodup_iff.mpr hkeys
    · exact fun doc hdoc => hnew doc (hputs.mem_iff.mp hdoc)

/-- A batch of a file is one record batch. -/
def fileRecord : Batch RecordBatch → RecordBatch
  | [batch] => batch
  | _ => noRecord

def lateBatch : RecordBatch where
  numRows := 1
  columns := [("id", .int64 [⟨false, 6⟩])]
  lengths := by decide

/-- Worker 0 claims the first file, worker 1 reads the second one before it goes on. -/
def overtakingMoves : List Move :=
  List.replicate 3 (.producer 0 false) ++ List.replicate 13 (.producer 1 false) ++
    List.replicate 10 (.producer 0 false) ++ List.replicate 5 (.writer false) ++
      List.replicate 3 .main ++ [.writer false, .main]

/-- The second file is put first, and both are in the index. -/
theorem twoFiles_contents : ∃ w : ImportRun .plain RecordBatch,
    Runs.exec (ImportRun.step .plain idSchema (.files [[[idBatch]], [[lateBatch]]]) fileRecord)
      (.init .plain 2 2) overtakingMoves = some w ∧
    w.pipeline.shared.handed.map fileRecord ≠ [idBatch, lateBatch] ∧
    w.contents .plain idSchema (fun _ => none) = filed .plain idSchema (fun _ => none)
      ([idBatch, lateBatch].flatMap (importedDocs .plain idSchema)) := by
  obtain ⟨w, hrun, hdone, hok, hhanded⟩ : ∃ w : ImportRun .plain RecordBatch,
      Runs.exec (ImportRun.step .plain idSchema (.files [[[idBatch]], [[lateBatch]]]) fileRecord)
        (.init .plain 2 2) overtakingMoves = some w ∧
      w.pipeline.main = .done ∧ w.pipeline.shared.failed = false ∧
      (w.pipeline.shared.handed.map fileRecord).map RecordBatch.numRows = [1, 2] :=
    ⟨_, rfl, rfl, rfl, rfl⟩
  refine ⟨w, hrun, fun he => ?_, ?_⟩
  · rw [he] at hhanded
    exact absurd hhanded (by decide)
  · exact (import_contents .plain idSchema (.files [[[idBatch]], [[lateBatch]]]) fileRecord 2 2
      overtakingMoves w hrun hdone hok).2.2.2.2 _ (by decide) (fun _ _ => rfl)

end YikvServer.Import
