import YikvServer.Import.ArrowDoc

/-!
# `ProcessBatch` of `worker/kv_write_worker.cc`

A record batch is copied row by row into documents and handed to `BatchPut` chunk by
chunk. The counters are the caller's and keep what was counted before an error. The
progress log is left out.
-/
namespace YikvServer.Import

open YikvServer.Index

structure RecordBatch where
  numRows : Nat
  columns : List (String × ArrowArray)
  lengths : ∀ c ∈ columns, c.2.nulls.length = numRows

/-- Null when no column has the name, and when several have it. -/
def RecordBatch.getColumnByName (batch : RecordBatch) (name : String) : Option ArrowArray :=
  match batch.columns.filter fun c => c.1 == name with
  | [c] => some c.2
  | _ => none

def kImportChunkRows : Nat := 16 * 1024

def missingColumn (name : String) : ImportError := .invalid ("parquet missing column: " ++ name)

def validateBatchColumns (batch : RecordBatch) (schema : Schema) : Except ImportError Unit :=
  match schema.fields.find? fun fd => (batch.getColumnByName fd.name).isNone with
  | none => .ok ()
  | some fd => .error (missingColumn fd.name)

/-- What `ProcessBatch` has done so far: the arguments of its `BatchPut` calls, and the
counters. -/
structure Imported (Y : Yikv) where
  puts : List (List Y.Doc)
  rowsImported : Nat
  skippedPkNull : Nat

section Batch
variable (Y : Yikv) (schema : Schema) (batch : RecordBatch)

/-- `ApplyField` from the column of the field; `ValidateBatchColumns` found it. -/
def applyColumn (row : Nat) (doc : Y.Doc) (fd : FieldDef) : Except ImportError Y.Doc :=
  match batch.getColumnByName fd.name with
  | none => .error (missingColumn fd.name)
  | some col => applyField Y doc fd col row

/-- The switch over the pk type. -/
def importPk (pkDef : FieldDef) (doc : Y.Doc) : Except ImportError String :=
  match pkDef.type with
  | .bool | .int32 => .ok (toStringInt (Y.get doc pkDef.fieldId (.scalar .i32)).toInt)
  | .int64 => .ok (toStringInt (Y.get doc pkDef.fieldId (.scalar .i64)).toInt)
  | .string | .bytes => .ok (Y.get doc pkDef.fieldId (.scalar .str))
  | .float32 | .float64 => .error (.invalid "unsupported pk type for import")

/-- One row: its document, or none when it is skipped. -/
def importRow (pkDef : FieldDef) (row : Nat) : Except ImportError (Option Y.Doc) :=
  match batch.getColumnByName pkDef.name with
  | none => .ok none
  | some pkCol =>
    if arrowCellIsNull pkCol row then .ok none
    else
      match schema.fields.foldlM (applyColumn Y batch row) Y.newDoc with
      | .error err => .error err
      | .ok doc =>
        match importPk Y pkDef doc with
        | .error err => .error err
        | .ok pk => if pk = "" then .ok none else .ok (some doc)

/-- The rows of one chunk: its documents, and how many rows it skips before it is done
or fails. -/
def chunkRows (pkDef : FieldDef) : List Nat → Except ImportError (List Y.Doc) × Nat
  | [] => (.ok [], 0)
  | row :: rest =>
    match importRow Y schema batch pkDef row with
    | .error err => (.error err, 0)
    | .ok entry =>
      let (docs, skipped) := chunkRows pkDef rest
      match entry with
      | none => (docs, skipped + 1)
      | some doc => (docs.map (doc :: ·), skipped)

/-- The chunks from `chunkStart` on; `chunks` bounds how many there are. -/
def processChunks (pkDef : FieldDef) :
    (chunks chunkStart : Nat) → Imported Y → Imported Y × Except ImportError Unit
  | 0, _, done => (done, .ok ())
  | chunks + 1, chunkStart, done =>
    if chunkStart < batch.numRows then
      let chunkEnd := min batch.numRows (chunkStart + kImportChunkRows)
      match chunkRows Y schema batch pkDef (List.range' chunkStart (chunkEnd - chunkStart)) with
      | (.error err, skipped) =>
        ({ done with skippedPkNull := done.skippedPkNull + skipped }, .error err)
      | (.ok [], skipped) =>
        processChunks pkDef chunks (chunkStart + kImportChunkRows)
          { done with skippedPkNull := done.skippedPkNull + skipped }
      | (.ok docs, skipped) =>
        processChunks pkDef chunks (chunkStart + kImportChunkRows)
          { puts := done.puts ++ [docs]
            rowsImported := done.rowsImported + docs.length
            skippedPkNull := done.skippedPkNull + skipped }
    else (done, .ok ())

def processBatch (done : Imported Y) : Imported Y × Except ImportError Unit :=
  match validateBatchColumns batch schema with
  | .error err => (done, .error err)
  | .ok () =>
    match schema.findField schema.pk with
    | none => (done, .error (.invalid "schema has no pk"))
    | some pkDef => processChunks Y schema batch pkDef (batch.numRows / kImportChunkRows + 1) 0 done

end Batch
end YikvServer.Import
