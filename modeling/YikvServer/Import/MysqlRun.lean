import YikvServer.Import.Leader
import YikvServer.Import.MysqlRows

/-!
# The import of a query, from its rows to the index

`ProduceLoop` in the pipeline. The first row is fetched once the schema is checked and each field
has its column, and a cell is appended unless `AppendForField` refuses it. Whatever else can fail,
the connection, a fetch or an array, fails when the action says so.
-/
namespace YikvServer.Import

open YikvServer.Theory YikvServer.Index

/-- A query that has a result: its names and its rows, `cfg_.batch_rows`, and the checks of the
error flag before the first row. -/
structure MysqlQuery where
  names : List String
  rows : List ResultRow
  batchRows : Nat
  checks : Nat

/-- `AppendForField` takes the cell, whatever the builder holds. -/
def takesCell (F : FloatText) (row : ResultRow) (column : FieldDef × Nat) : Bool :=
  (appendForField F column.1.type [] (cell row column)).isOk

namespace MysqlQuery

section Query
variable (Y : Yikv) (F : FloatText) (schema : Schema) (query : MysqlQuery)

def source : Source ResultRow :=
  .mysql query.rows query.batchRows schema.fields.length query.checks

/-- The fields, each with its `col_index`. -/
def columns : List (FieldDef × Nat) := (setup schema query.names).toOption.getD []

/-- What the result of the query decides of the statements of `ProduceLoop`. -/
def allows (fail : Bool) : ProducerPc ResultRow → Bool
  | .setup 0 => fail || (setup schema query.names).isOk
  | .append (left + 1) row _ _ =>
    ((query.columns schema)[schema.fields.length - (left + 1)]?).all fun column =>
      takesCell F row column != fail
  | _ => true

def allowsMove (w : Pipeline ResultRow) : Move → Bool
  | .producer i fail => (w.producers[i]?).all (query.allows F schema fail)
  | _ => true

/-- A move of the import. -/
def step (w : ImportRun Y ResultRow) (m : Move) : Option (ImportRun Y ResultRow) :=
  if query.allowsMove F schema w.pipeline m then
    w.step Y schema (query.source schema) (mysqlRecord F (query.columns schema)) m
  else none

end Query
end MysqlQuery

section Spec
variable (F : FloatText) (columns : List (FieldDef × Nat))

/-- Every row of the batch is taken. -/
def BatchTaken (batch : Batch ResultRow) : Prop := ∀ row ∈ batch, RowTaken F columns row

/-- `ProduceLoop` pushes from the query only. -/
def After.Fetched {Row : Type} : After Row → Prop
  | .reading _ => False
  | _ => True

/-- What a producer has appended was taken: the rows of the batch, and of the row in work all
but the fields that are left. -/
def ProducerPc.Fetched (fields : Nat) : ProducerPc ResultRow → Prop
  | .fetching _ inBatch => BatchTaken F columns inBatch
  | .fetch _ inBatch => BatchTaken F columns inBatch
  | .append left row _ inBatch =>
    RowTaken F (columns.take (fields - left)) row ∧ BatchTaken F columns inBatch
  | .flush batch after => BatchTaken F columns batch ∧ after.Fetched
  | .push batch after => BatchTaken F columns batch ∧ after.Fetched
  | .set pending => BatchTaken F columns pending
  | .abort pending => BatchTaken F columns pending
  | .start => True
  | .setup _ => True
  | .flushed _ => True
  | .done => True
  | _ => False

end Spec

variable {Y : Yikv} {F : FloatText} {schema : Schema} {query : MysqlQuery}
  {columns : List (FieldDef × Nat)} {column : FieldDef × Nat} {row : ResultRow}
  {inBatch : List ResultRow} {fail : Bool} {fields left : Nat}
  {shared shared' : Shared ResultRow} {pc pc' : ProducerPc ResultRow} {effect : Effect ResultRow}
  {w w' : ImportRun Y ResultRow} {v v' : Pipeline ResultRow} {m : Move}

/-! ## The columns -/

theorem columns_of_setup (h : setup schema query.names = .ok columns) :
    query.columns schema = columns := by
  rw [MysqlQuery.columns, h]
  rfl

theorem columns_length : (query.columns schema).length ≤ schema.fields.length := by
  cases h : setup schema query.names with
  | error err =>
    rw [MysqlQuery.columns, h]
    exact Nat.zero_le _
  | ok columns =>
    rw [columns_of_setup h, ← (mapped_of_setup h).fields, List.length_map]

/-! ## A producer -/

theorem takesCell_iff :
    takesCell F row column = true ↔
      ∃ b, appendForField F column.1.type [] (cell row column) = .ok b := by
  unfold takesCell
  cases appendForField F column.1.type [] (cell row column) with
  | error err => exact iff_of_false Bool.false_ne_true fun ⟨_, h⟩ => nomatch h
  | ok b => exact iff_of_true rfl ⟨b, rfl⟩

/-- One cell more is taken. -/
theorem rowTaken_next (h : RowTaken F (columns.take (fields - (left + 1))) row)
    (hcell : ∀ column, columns[fields - (left + 1)]? = some column → takesCell F row column) :
    RowTaken F (columns.take (fields - left)) row := by
  by_cases hleft : left < fields
  · have hsucc : fields - left = fields - (left + 1) + 1 := by omega
    rw [hsucc, List.take_add_one]
    intro column hc
    rcases List.mem_append.mp hc with hc | hc
    · exact h column hc
    · exact takesCell_iff.mp (hcell column (Option.mem_toList.mp hc))
  · have hnone : fields - left = 0 := by omega
    rw [hnone]
    exact fun column hc => nomatch hc

theorem batchTaken_concat (h : BatchTaken F columns inBatch) (hrow : RowTaken F columns row) :
    BatchTaken F columns (inBatch ++ [row]) := by
  intro r hr
  rcases List.mem_append.mp hr with hr | hr
  · exact h r hr
  · obtain rfl := List.mem_singleton.mp hr
    exact hrow

theorem fetched_flushLast (h : BatchTaken F columns inBatch) :
    (flushLast inBatch).Fetched F columns fields := by
  rcases flushLast_cases inBatch with hlast | hlast
  · rw [hlast]
    trivial
  · rw [hlast]
    exact ⟨h, trivial⟩

theorem fetched_fails {src : Source ResultRow} (h : pc.Fetched F columns fields)
    (hfails : pc.fails src = some pc') : pc'.Fetched F columns fields := by
  have hnil : BatchTaken F columns [] := fun _ hr => nomatch hr
  unfold ProducerPc.fails at hfails
  cases pc <;> grind [ProducerPc.Fetched]

/-- A statement that goes well takes the cell or the row it is about. -/
theorem fetched_goes (h : pc.Fetched F (query.columns schema) schema.fields.length)
    (hallows : query.allows F schema false pc = true)
    (hgoes : pc.goes (query.source schema) shared.failed shared.nextFile shared.consumed =
      some (effect, pc')) :
    pc'.Fetched F (query.columns schema) schema.fields.length := by
  cases pc with
  | start =>
    obtain ⟨-, rfl⟩ := Prod.mk.inj (Option.some.inj hgoes)
    cases shared.consumed <;> trivial
  | setup checks =>
    cases checks with
    | zero =>
      obtain ⟨-, rfl⟩ := Prod.mk.inj (Option.some.inj hgoes)
      exact fun _ hr => nomatch hr
    | succ checks =>
      obtain ⟨-, rfl⟩ := Prod.mk.inj (Option.some.inj hgoes)
      cases shared.failed with
      | true => exact fun _ hr => nomatch hr
      | false => trivial
  | fetching rest inBatch =>
    obtain ⟨-, rfl⟩ := Prod.mk.inj (Option.some.inj hgoes)
    cases shared.failed with
    | true => exact fetched_flushLast h
    | false => exact h
  | fetch rest inBatch =>
    cases rest with
    | nil =>
      obtain ⟨-, rfl⟩ := Prod.mk.inj (Option.some.inj hgoes)
      exact fetched_flushLast h
    | cons row rest =>
      obtain ⟨-, rfl⟩ := Prod.mk.inj (Option.some.inj hgoes)
      refine ⟨?_, h⟩
      rw [Nat.sub_self]
      exact fun _ hc => nomatch hc
  | append left row rest inBatch =>
    cases left with
    | zero =>
      obtain ⟨-, rfl⟩ := Prod.mk.inj (Option.some.inj hgoes)
      have hrow : RowTaken F (query.columns schema) row := by
        have htaken := h.1
        rwa [Nat.sub_zero, List.take_of_length_le columns_length] at htaken
      have hbatch := batchTaken_concat h.2 hrow
      unfold rowDone
      split
      · exact ⟨hbatch, trivial⟩
      · exact hbatch
    | succ left =>
      obtain ⟨-, rfl⟩ := Prod.mk.inj (Option.some.inj hgoes)
      cases shared.failed with
      | true => exact fun _ hr => nomatch hr
      | false =>
        refine ⟨rowTaken_next h.1 fun column hcolumn => ?_, h.2⟩
        have hcell : ((query.columns schema)[schema.fields.length - (left + 1)]?).all
            (fun column => takesCell F row column != false) = true := hallows
        rw [hcolumn] at hcell
        simpa using hcell
  | flush batch after =>
    obtain ⟨-, rfl⟩ := Prod.mk.inj (Option.some.inj hgoes)
    exact h
  | push batch after =>
    obtain ⟨-, rfl⟩ := Prod.mk.inj (Option.some.inj hgoes)
    cases after with
    | reading rest => exact h.2
    | flushed rest => trivial
    | last => trivial
  | flushed rest =>
    obtain ⟨-, rfl⟩ := Prod.mk.inj (Option.some.inj hgoes)
    cases shared.failed with
    | true => trivial
    | false => exact fun _ hr => nomatch hr
  | set pending =>
    obtain ⟨-, rfl⟩ := Prod.mk.inj (Option.some.inj hgoes)
    exact h
  | abort pending =>
    obtain ⟨-, rfl⟩ := Prod.mk.inj (Option.some.inj hgoes)
    exact fetched_flushLast h
  | done => cases hgoes
  | _ => exact h.elim

theorem fetched_produce (h : pc.Fetched F (query.columns schema) schema.fields.length)
    (hallows : query.allows F schema fail pc = true)
    (hturn : produce (query.source schema) fail shared pc = some (effect, pc')) :
    pc'.Fetched F (query.columns schema) schema.fields.length := by
  cases fail with
  | true =>
    obtain ⟨pc'', hfails, heq⟩ := Option.map_eq_some_iff.mp hturn
    obtain ⟨-, rfl⟩ := Prod.mk.inj heq
    exact fetched_fails h hfails
  | false => exact fetched_goes h hallows hturn

/-- What a producer pushes was in its hands. -/
theorem pushed_produce {batch : Batch ResultRow} (h : pc.Fetched F columns fields)
    (hturn : produce (query.source schema) fail shared pc = some (.push batch, pc')) :
    BatchTaken F columns batch := by
  cases fail with
  | true =>
    obtain ⟨pc'', -, heq⟩ := Option.map_eq_some_iff.mp hturn
    cases (Prod.mk.inj heq).1
  | false =>
    have hgoes : pc.goes (query.source schema) shared.failed shared.nextFile shared.consumed =
      some (.push batch, pc') := hturn
    unfold ProducerPc.goes at hgoes
    cases pc <;> grind [ProducerPc.Fetched, MysqlQuery.source]

/-- The leader stays before the first row until the schema is checked, or something has failed. -/
theorem checked_produce {checks : Nat} (hallows : query.allows F schema fail (.setup checks) = true)
    (hturn : produce (query.source schema) fail shared (.setup checks) = some (effect, pc')) :
    (setup schema query.names).isOk = true ∨ effect = .fault ∨ shared.failed = true ∨
      ∃ n, pc' = .setup n := by
  cases fail with
  | true => exact Or.inr (Or.inl (Prod.mk.inj (Option.some.inj hturn)).1.symm)
  | false =>
    cases checks with
    | zero => exact Or.inl hallows
    | succ checks =>
      obtain ⟨-, rfl⟩ := Prod.mk.inj (Option.some.inj hturn)
      cases hfailed : shared.failed with
      | true => exact Or.inr (Or.inr (Or.inl rfl))
      | false => exact Or.inr (Or.inr (Or.inr ⟨checks, rfl⟩))

/-- Who consumes the query is before its first row. -/
theorem consume_produce
    (hturn : produce (query.source schema) fail shared pc = some (.consume, pc')) :
    shared.consumed = true ∨ ∃ n, pc' = .setup n := by
  cases fail with
  | true =>
    obtain ⟨pc'', -, heq⟩ := Option.map_eq_some_iff.mp hturn
    cases (Prod.mk.inj heq).1
  | false =>
    have hgoes : pc.goes (query.source schema) shared.failed shared.nextFile shared.consumed =
      some (.consume, pc') := hturn
    unfold ProducerPc.goes at hgoes
    cases pc <;> grind [MysqlQuery.source]

/-! ## The run -/

/-- Every row that has been appended was taken, and once the query is consumed its leader is before
the first row, or the schema has been checked, or something has failed. -/
structure Fetched (F : FloatText) (schema : Schema) (query : MysqlQuery)
    (v : Pipeline ResultRow) : Prop where
  producers : ∀ pc ∈ v.producers, pc.Fetched F (query.columns schema) schema.fields.length
  pushed : ∀ batch ∈ v.shared.pushed, BatchTaken F (query.columns schema) batch
  checked : v.shared.consumed = true → (setup schema query.names).isOk = true ∨
    v.shared.fault = true ∨ v.shared.failed = true ∨ ∃ n, .setup n ∈ v.producers

theorem Fetched.init (workers capacity : Nat) :
    Fetched F schema query (.init workers capacity) where
  producers pc hpc := by
    obtain rfl := List.eq_of_mem_replicate hpc
    trivial
  pushed batch hbatch := nomatch hbatch
  checked h := nomatch h

theorem apply_pushed {src : Source ResultRow} {i : Nat}
    (happly : effect.apply src i shared = some shared') {batch : Batch ResultRow}
    (h : batch ∈ shared'.pushed) : batch ∈ shared.pushed ∨ effect = .push batch := by
  unfold Effect.apply at happly
  cases effect <;> grind

theorem Fetched.producer {i : Nat} (h : Fetched F schema query v)
    (hpc : v.producers[i]? = some pc) (hallows : query.allows F schema fail pc = true)
    (hturn : produce (query.source schema) fail v.shared pc = some (effect, pc'))
    (happly : effect.apply (query.source schema) i v.shared = some shared) :
    Fetched F schema query { v with shared, producers := v.producers.set i pc' } := by
  have hmem : pc ∈ v.producers := List.mem_of_getElem? hpc
  obtain ⟨hfault, hfailed, -, -⟩ := apply_flags happly
  have hself : pc' ∈ v.producers.set i pc' :=
    List.mem_set (List.getElem?_eq_some_iff.mp hpc).1 pc'
  constructor
  · intro other hother
    rcases mem_set_cases hother with rfl | hother
    · exact fetched_produce (h.producers pc hmem) hallows hturn
    · exact h.producers other hother
  · intro batch hbatch
    rcases apply_pushed happly hbatch with hold | rfl
    · exact h.pushed batch hold
    · exact pushed_produce (h.producers pc hmem) hturn
  · intro hconsumed
    have hleader : v.shared.consumed = true ∨ ∃ n, pc' = .setup n := by
      rcases (consumed_apply happly).mp hconsumed with hold | rfl
      · exact Or.inl hold
      · exact consume_produce hturn
    rcases hleader with hold | ⟨n, rfl⟩
    swap
    · exact Or.inr (Or.inr (Or.inr ⟨n, hself⟩))
    rcases h.checked hold with hok | hf | hf | ⟨n, hn⟩
    · exact Or.inl hok
    · exact Or.inr (Or.inl (hfault.mpr (Or.inl hf)))
    · exact Or.inr (Or.inr (Or.inl (hfailed.mpr (Or.inl hf))))
    · by_cases hleads : pc = .setup n
      · subst hleads
        rcases checked_produce hallows hturn with hok | hf | hf | ⟨k, rfl⟩
        · exact Or.inl hok
        · exact Or.inr (Or.inl (hfault.mpr (Or.inr hf)))
        · exact Or.inr (Or.inr (Or.inl (hfailed.mpr (Or.inl hf))))
        · exact Or.inr (Or.inr (Or.inr ⟨k, hself⟩))
      · exact Or.inr (Or.inr (Or.inr ⟨n, mem_set_of_ne hn hpc (Ne.symm hleads)⟩))

theorem Fetched.step (h : Fetched F schema query v)
    (hallows : query.allowsMove F schema v m = true)
    (hstep : v.step (query.source schema) m = some v') : Fetched F schema query v' := by
  cases m with
  | producer i fail =>
    obtain ⟨pc, hpc, hstep⟩ := Option.bind_eq_some_iff.mp hstep
    obtain ⟨⟨effect, pc'⟩, hturn, hstep⟩ := Option.bind_eq_some_iff.mp hstep
    obtain ⟨shared, happly, rfl⟩ := Option.map_eq_some_iff.mp hstep
    have hallowed : (v.producers[i]?).all (query.allows F schema fail) = true := hallows
    rw [hpc] at hallowed
    exact h.producer hpc hallowed hturn happly
  | writer fail =>
    obtain ⟨⟨shared, pc⟩, hwrite, rfl⟩ := Option.map_eq_some_iff.mp hstep
    have hturn := writerTurn hwrite
    dsimp only at hturn ⊢
    generalize v.writer = old at hturn
    cases hturn with
    | fault _ hpc => exact ⟨h.producers, h.pushed, fun _ => Or.inr (Or.inl rfl)⟩
    | set => exact ⟨h.producers, h.pushed, fun _ => Or.inr (Or.inr (Or.inl rfl))⟩
    | _ => exact ⟨h.producers, h.pushed, h.checked⟩
  | main =>
    obtain ⟨⟨shared, pc⟩, hmain, rfl⟩ := Option.map_eq_some_iff.mp hstep
    have hturn := mainTurn hmain
    dsimp only at hturn ⊢
    generalize v.main = old at hturn
    cases hturn <;> exact ⟨h.producers, h.pushed, h.checked⟩

/-! ## The whole import -/

theorem MysqlQuery.step_run (h : query.step Y F schema w m = some w') :
    query.allowsMove F schema w.pipeline m = true ∧
      w.step Y schema (query.source schema) (mysqlRecord F (query.columns schema)) m = some w' := by
  unfold MysqlQuery.step at h
  split at h
  · next hallows => exact ⟨hallows, h⟩
  · cases h

theorem MysqlQuery.run_import {moves : List Move}
    (hrun : Runs.exec (query.step Y F schema) w moves = some w') :
    Runs.exec (ImportRun.step Y schema (query.source schema)
      (mysqlRecord F (query.columns schema))) w moves = some w' :=
  Runs.exec_map (f := id) (fun _ _ _ hstep => (step_run hstep).2) hrun

theorem fetched_run {workers capacity : Nat} {moves : List Move}
    (hrun : Runs.exec (query.step Y F schema) (.init Y workers capacity) moves = some w) :
    Fetched F schema query w.pipeline := by
  refine Runs.exec_invariant
    (P := fun w : ImportRun Y ResultRow => Fetched F schema query w.pipeline)
    (fun v m v' hv hs => ?_) hrun (.init workers capacity)
  obtain ⟨hallows, hstep⟩ := MysqlQuery.step_run hs
  exact hv.step hallows (ImportRun.step_pipeline hstep)

/-- At the end of an import that has not failed the schema has been checked. -/
theorem Fetched.setup_ok {capacity : Nat} (h : Fetched F schema query v)
    (hsound : Sound (query.source schema) capacity v) (hdone : v.main = .done)
    (hok : v.shared.failed = false) :
    setup schema query.names = .ok (query.columns schema) := by
  have hjoined := hsound.phases.joined (by rw [hdone]; exact fun he => nomatch he)
  have hclean := hsound.clean hdone hok
  rcases h.checked (consumed_of_exhausted rfl (hsound.exhausted hdone hok)) with
    hyes | hfault | hfailed | ⟨n, hn⟩
  · cases hsetup : setup schema query.names with
    | error err =>
      rw [hsetup] at hyes
      cases hyes
    | ok columns => rw [columns_of_setup hsetup]
  · exact absurd (hfault.symm.trans hclean) (by decide)
  · exact absurd (hfailed.symm.trans hok) (by decide)
  · cases hjoined _ hn

/-- The documents of the batches are those of the rows. -/
theorem importedDocs_cut {batches : List (Batch ResultRow)} (h : Mapped schema columns)
    (htaken : ∀ batch ∈ batches, BatchTaken F columns batch) :
    (batches.map (mysqlRecord F columns)).flatMap (importedDocs Y schema) =
      batches.flatten.filterMap (resultRow Y F columns schema.pk) := by
  induction batches with
  | nil => rfl
  | cons batch batches ih =>
    have hrest := ih fun b hb => htaken b (List.mem_cons_of_mem _ hb)
    rw [List.map_cons, List.flatMap_cons, hrest, List.flatten_cons, List.filterMap_append,
      importedDocs_mysql h (htaken batch List.mem_cons_self)]

theorem totalRows_cut {batches : List (Batch ResultRow)} (hne : columns ≠ [])
    (htaken : ∀ batch ∈ batches, BatchTaken F columns batch) :
    totalRows (batches.map (mysqlRecord F columns)) = batches.flatten.length := by
  induction batches with
  | nil => rfl
  | cons batch batches ih =>
    have hrest := ih fun b hb => htaken b (List.mem_cons_of_mem _ hb)
    rw [List.map_cons, totalRows, hrest, List.flatten_cons, List.length_append,
      (mysqlRecord_eq (htaken batch List.mem_cons_self) hne).1]

/-- The import of a query that ends without an error, whatever the schedule: the schema has been
checked, each cell of each row was taken, and what is put are the documents of the rows that
qualify, in the order of the result, so that the index is what putting them one after another
makes of it. From a schema without fields `FlushBatch` makes no batch. -/
theorem mysqlImport_contents (Y : Yikv) (F : FloatText) (schema : Schema)
    (hfields : schema.fields ≠ []) (query : MysqlQuery) (workers capacity : Nat)
    (moves : List Move) (w : ImportRun Y ResultRow)
    (hrun : Runs.exec (query.step Y F schema) (.init Y workers capacity) moves = some w)
    (hdone : w.pipeline.main = .done) (hok : w.pipeline.shared.failed = false) :
    let docs := query.rows.filterMap (resultRow Y F (query.columns schema) schema.pk)
    setup schema query.names = .ok (query.columns schema) ∧
      BatchTaken F (query.columns schema) query.rows ∧
      w.imported.puts.flatten = docs ∧
      w.imported.rowsImported = docs.length ∧
      w.imported.rowsImported + w.imported.skippedPkNull = query.rows.length ∧
      ∀ idx, w.contents Y schema idx = batchPut Y schema idx docs := by
  intro docs
  have himport := MysqlQuery.run_import hrun
  have hpipeline := ImportRun.run_pipeline himport
  have hsound : Sound (query.source schema) capacity w.pipeline := .run hpipeline
  have hfetched := fetched_run hrun
  have hsetup := hfetched.setup_ok hsound hdone hok
  have hmapped := mapped_of_setup hsetup
  have hne : query.columns schema ≠ [] := by
    intro hnil
    exact hfields (hmapped.fields ▸ congrArg (List.map Prod.fst) hnil)
  have hhanded := handed_inOrder rfl hpipeline hdone hok
  have hrows : w.pipeline.shared.handed.flatten = query.rows := by
    rw [hhanded]
    exact cut_flatten _ _ _
  have htaken : ∀ batch ∈ w.pipeline.shared.handed,
      BatchTaken F (query.columns schema) batch := by
    rw [hsound.handed_pushed hdone hok]
    exact hfetched.pushed
  have hcounted := ImportRun.counted himport hdone hok
  have hputs : w.imported.puts.flatten = docs := by
    rw [hcounted.puts, importedDocs_cut hmapped htaken, hrows]
  refine ⟨hsetup, ?_, hputs, ?_, ?_, fun idx => ?_⟩
  · intro row hrow
    rw [← hrows] at hrow
    obtain ⟨batch, hbatch, hmem⟩ := List.mem_flatten.mp hrow
    exact htaken batch hbatch row hmem
  · rw [hcounted.rowsImported, hputs]
  · rw [hcounted.rows, totalRows_cut hne htaken, hrows]
  · rw [ImportRun.contents, batchPut_flatten, hputs]

/-- No text is a number of these. -/
def noFloats : FloatText := ⟨fun text => (0, text), fun text => (0, text)⟩

/-- Three rows, of which the second has no id, two a batch. -/
def threeRows : MysqlQuery := ⟨["ID"], [[some [0x37]], [none], [some [0x39]]], 2, 0⟩

/-- Worker 1 finds the query consumed. -/
def queryMoves : List Move :=
  .producer 0 false :: .producer 1 false :: List.replicate 20 (.producer 0 false) ++
    List.replicate 5 (.writer false) ++ List.replicate 3 .main ++ [.writer false, .main]

theorem threeRows_contents : ∃ w : ImportRun .plain ResultRow,
    Runs.exec (threeRows.step .plain noFloats idSchema) (.init .plain 2 2) queryMoves = some w ∧
    w.imported.rowsImported = 2 ∧ w.imported.rowsImported + w.imported.skippedPkNull = 3 ∧
    w.contents .plain idSchema (fun _ => none) = batchPut .plain idSchema (fun _ => none)
      (threeRows.rows.filterMap
        (resultRow .plain noFloats (threeRows.columns idSchema) idSchema.pk)) := by
  obtain ⟨w, hrun, hdone, hok, himported⟩ : ∃ w : ImportRun .plain ResultRow,
      Runs.exec (threeRows.step .plain noFloats idSchema) (.init .plain 2 2) queryMoves = some w ∧
      w.pipeline.main = .done ∧ w.pipeline.shared.failed = false ∧ w.imported.rowsImported = 2 :=
    ⟨_, rfl, rfl, rfl, rfl⟩
  obtain ⟨-, -, -, -, hrows, hcontents⟩ := mysqlImport_contents .plain noFloats idSchema
    (by decide) threeRows 2 2 queryMoves w hrun hdone hok
  exact ⟨w, hrun, himported, hrows, hcontents _⟩

end YikvServer.Import
