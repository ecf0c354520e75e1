import YikvServer.Theory.Runs
import Mathlib.Data.List.Basic

/-!
# The import pipeline

`parsed_batch_queue.cc`, the producer loops of `file_source.cc` and
`mysql_wire_source.cc`, `io_publisher.cc`, `RunKvWriteLoop` and the part of `main` that
joins them. Each action runs one thread up to its next access to the queue, the error
flag or a claim. A thread that waits in `Push` or `Pop` moves when its wait predicate
holds. Whatever can fail outside fails when the action says so. A record batch is the
list of its rows.
-/
namespace YikvServer.Import

open YikvServer.Theory

abbrev Batch (Row : Type) := List Row

structure BoundedParsedBatchQueue (Row : Type) where
  q : List (Batch Row)
  cap : Nat
  eos : Bool
  aborted : Bool

namespace BoundedParsedBatchQueue

variable {Row : Type}

/-- The constructor. -/
def empty (capacity : Nat) : BoundedParsedBatchQueue Row :=
  ⟨[], if capacity ≠ 0 then capacity else 1, false, false⟩

/-- The predicate that `Push` waits for. -/
def CanPush (queue : BoundedParsedBatchQueue Row) : Prop :=
  queue.q.length < queue.cap ∨ queue.aborted = true

/-- The predicate that `Pop` waits for. -/
def CanPop (queue : BoundedParsedBatchQueue Row) : Prop :=
  queue.q ≠ [] ∨ queue.eos = true ∨ queue.aborted = true

instance (queue : BoundedParsedBatchQueue Row) : Decidable queue.CanPush :=
  inferInstanceAs (Decidable (_ ∨ _))

instance (queue : BoundedParsedBatchQueue Row) : Decidable queue.CanPop :=
  have : Decidable (queue.q ≠ []) := decidable_of_iff (queue.q.isEmpty = false) (by simp)
  inferInstanceAs (Decidable (_ ∨ _ ∨ _))

/-- `Push` drops the item once aborted. -/
def push (queue : BoundedParsedBatchQueue Row) (item : Batch Row) : BoundedParsedBatchQueue Row :=
  if queue.aborted then queue else { queue with q := queue.q ++ [item] }

def pushEos (queue : BoundedParsedBatchQueue Row) : BoundedParsedBatchQueue Row :=
  { queue with eos := true }

def abort (queue : BoundedParsedBatchQueue Row) : BoundedParsedBatchQueue Row :=
  { queue with aborted := true, eos := true }

def pop (queue : BoundedParsedBatchQueue Row) : Option (Batch Row) × BoundedParsedBatchQueue Row :=
  match queue.q with
  | [] => (none, queue)
  | out :: rest => (some out, { queue with q := rest })

end BoundedParsedBatchQueue

/-- What is imported: files of record batches, or the rows of one query, with
`cfg_.batch_rows`, the number of fields, and of the checks of the error flag before the
first row. -/
inductive Source (Row : Type) where
  | files (paths : List (List (Batch Row)))
  | mysql (rows : List Row) (batchRows fields checks : Nat)

/-- `cfg_.batch_rows < 1 ? 4096 : cfg_.batch_rows`. -/
def batchSz (batchRows : Nat) : Nat := if batchRows < 1 then 4096 else batchRows

/-- Where `ProduceLoop` goes on after a `Push`. -/
inductive After (Row : Type) where
  | reading (rest : List (Batch Row))
  | flushed (rest : List Row)
  | last

/-- The next access of a producer. The file loop: `loop` and `reading` load the error
flag, `claim` takes the next file, `openFile` opens it, `next` reads a batch, `valid` loads
the flag after the columns are validated, `closed` after the file. The query: `setup`
loads the flag, `fetching` before a row and `append` after each of its fields, `flushed`
after a batch. -/
inductive ProducerPc (Row : Type) where
  | start
  | loop
  | claim
  | openFile (file : List (Batch Row))
  | reading (rest : List (Batch Row))
  | next (rest : List (Batch Row))
  | valid (batch : Batch Row) (rest : List (Batch Row))
  | closed
  | setup (checks : Nat)
  | fetching (rest inBatch : List Row)
  | fetch (rest inBatch : List Row)
  | append (fields : Nat) (row : Row) (rest inBatch : List Row)
  | flush (batch : Batch Row) (after : After Row)
  | push (batch : Batch Row) (after : After Row)
  | flushed (rest : List Row)
  | set (pending : List Row)
  | abort (pending : List Row)
  | done

inductive WriterPc (Row : Type) where
  | start
  | pop
  | process (batch : Batch Row)
  | set
  | abort
  | done

/-- `main` from the join of the producers on. -/
inductive MainPc where
  | join
  | check
  | eos
  | abort
  | joinWriter
  | done
  deriving DecidableEq

/-- What the threads share, and the history of the run: the batches pushed, dropped by
`Push` and handed to `ProcessBatch`, who claimed which file, and whether anything has
failed. -/
structure Shared (Row : Type) where
  failed : Bool
  queue : BoundedParsedBatchQueue Row
  nextFile : Nat
  consumed : Bool
  pushed : List (Batch Row)
  dropped : List (Batch Row)
  handed : List (Batch Row)
  claims : List (Nat × Nat)
  fault : Bool

structure Pipeline (Row : Type) where
  shared : Shared Row
  producers : List (ProducerPc Row)
  writer : WriterPc Row
  main : MainPc

/-- `IoPublisher` starts at least one producer. -/
def Pipeline.init {Row : Type} (workers capacity : Nat) : Pipeline Row where
  shared :=
    { failed := false, queue := .empty capacity, nextFile := 0, consumed := false
      pushed := [], dropped := [], handed := [], claims := [], fault := false }
  producers := List.replicate (if workers < 1 then 1 else workers) .start
  writer := .start
  main := .join

/-- What an access changes; the loads change nothing. -/
inductive Effect (Row : Type) where
  | quiet
  | fault
  | set
  | abort
  | push (batch : Batch Row)
  | claimFile
  | consume

section Step
variable {Row : Type} (src : Source Row)

def After.pc : After Row → ProducerPc Row
  | .reading rest => .reading rest
  | .flushed rest => .flushed rest
  | .last => .done

/-- `if (in_batch > 0) FlushBatch(…)` at the end of the query. -/
def flushLast (inBatch : List Row) : ProducerPc Row :=
  if inBatch = [] then .done else .flush inBatch .last

/-- `++in_batch; if (in_batch >= batch_sz) FlushBatch(…)`. -/
def rowDone (batchRows : Nat) (rest inBatch : List Row) : ProducerPc Row :=
  if inBatch.length ≥ batchSz batchRows then .flush inBatch (.flushed rest)
  else .fetching rest inBatch

/-- The statements of `ProduceLoop` that can fail, when they do: `err.Set` and `q.Abort`
follow, and after a failed fetch the rows in the batch. -/
def ProducerPc.fails : ProducerPc Row → Option (ProducerPc Row)
  | .start =>
    match src with
    | .files _ => some (.set [])
    | .mysql _ _ _ _ => none
  | .openFile _ => some (.set [])
  | .next _ => some (.set [])
  | .setup _ => some (.set [])
  | .fetch _ inBatch => some (.set inBatch)
  | .append (_ + 1) _ _ _ => some (.set [])
  | .flush _ _ => some (.set [])
  | _ => none

/-- The statements of `ProduceLoop` when nothing fails. -/
def ProducerPc.goes (failed : Bool) (nextFile : Nat) (consumed : Bool) :
    ProducerPc Row → Option (Effect Row × ProducerPc Row)
  | .start =>
    match src with
    | .files _ => some (.quiet, .loop)
    | .mysql _ _ _ checks => some (.consume, if consumed then .done else .setup checks)
  | .loop => some (.quiet, if failed then .done else .claim)
  | .claim =>
    match src with
    | .files paths => some (.claimFile, ((paths[nextFile]?).map .openFile).getD .done)
    | .mysql _ _ _ _ => none
  | .openFile file => some (.quiet, .reading file)
  | .reading rest => some (.quiet, if failed then .closed else .next rest)
  | .next [] => some (.quiet, .closed)
  | .next (batch :: rest) => some (.quiet, .valid batch rest)
  | .valid batch rest => some (.quiet, if failed then .abort [] else .push batch (.reading rest))
  | .closed => some (.quiet, if failed then .done else .loop)
  | .setup checks =>
    match src, checks with
    | .mysql rows _ _ _, 0 => some (.quiet, .fetching rows [])
    | .mysql _ _ _ _, checks + 1 => some (.quiet, if failed then .abort [] else .setup checks)
    | .files _, _ => none
  | .fetching rest inBatch =>
    some (.quiet, if failed then flushLast inBatch else .fetch rest inBatch)
  | .fetch [] inBatch => some (.quiet, flushLast inBatch)
  | .fetch (row :: rest) inBatch =>
    match src with
    | .mysql _ _ fields _ => some (.quiet, .append fields row rest inBatch)
    | .files _ => none
  | .append (fields + 1) row rest inBatch =>
    some (.quiet, if failed then .abort [] else .append fields row rest inBatch)
  | .append 0 row rest inBatch =>
    match src with
    | .mysql _ batchRows _ _ => some (.quiet, rowDone batchRows rest (inBatch ++ [row]))
    | .files _ => none
  | .flush batch after => some (.quiet, .push batch after)
  | .push batch after => some (.push batch, after.pc)
  | .flushed rest => some (.quiet, if failed then .done else .fetching rest [])
  | .set pending => some (.set, .abort pending)
  | .abort pending => some (.abort, flushLast pending)
  | .done => none

/-- The effect of producer `i`; a `Push` waits. -/
def Effect.apply (i : Nat) (shared : Shared Row) : Effect Row → Option (Shared Row)
  | .quiet => some shared
  | .fault => some { shared with fault := true }
  | .set => some { shared with failed := true }
  | .abort => some { shared with queue := shared.queue.abort }
  | .push batch =>
    if shared.queue.CanPush then
      if shared.queue.aborted then some { shared with dropped := shared.dropped ++ [batch] }
      else
        some { shared with
          queue := shared.queue.push batch, pushed := shared.pushed ++ [batch] }
    else none
  | .claimFile =>
    match src with
    | .files paths =>
      some { shared with
        nextFile := shared.nextFile + 1
        claims := if shared.nextFile < paths.length then shared.claims ++ [(shared.nextFile, i)]
          else shared.claims }
    | .mysql _ _ _ _ => none
  | .consume => some { shared with consumed := true }

/-- One access of a producer; `fail` lets the statement before it fail. -/
def produce (fail : Bool) (shared : Shared Row) (pc : ProducerPc Row) :
    Option (Effect Row × ProducerPc Row) :=
  if fail then (pc.fails src).map (Effect.fault, ·)
  else pc.goes src shared.failed shared.nextFile shared.consumed

/-- `RunKvWriteLoop`: its next access, with what it changes. -/
def write (fail : Bool) (shared : Shared Row) : WriterPc Row → Option (Shared Row × WriterPc Row)
  | .start =>
    if fail then some ({ shared with fault := true }, .set) else some (shared, .pop)
  | .pop =>
    if fail then none
    else if shared.queue.CanPop then
      match shared.queue.pop with
      | (none, _) => some (shared, .done)
      | (some batch, queue) =>
        some ({ shared with queue, handed := shared.handed ++ [batch] }, .process batch)
    else none
  | .process _ =>
    if fail then some ({ shared with fault := true }, .set) else some (shared, .pop)
  | .set => if fail then none else some ({ shared with failed := true }, .abort)
  | .abort => if fail then none else some ({ shared with queue := shared.queue.abort }, .done)
  | .done => none

/-- The statements of `main`. -/
def MainPc.next (w : Pipeline Row) : MainPc → Option (Shared Row × MainPc)
  | .join =>
    if w.producers.all fun pc => pc matches .done then some (w.shared, .check) else none
  | .check => some (w.shared, if w.shared.failed then .abort else .eos)
  | .eos => some ({ w.shared with queue := w.shared.queue.pushEos }, .joinWriter)
  | .abort => some ({ w.shared with queue := w.shared.queue.abort }, .joinWriter)
  | .joinWriter => if w.writer matches .done then some (w.shared, .done) else none
  | .done => none

/-- Who moves, and whether what it does before its next access fails. -/
inductive Move where
  | producer (i : Nat) (fail : Bool)
  | writer (fail : Bool)
  | main
  deriving DecidableEq

def Pipeline.step (w : Pipeline Row) : Move → Option (Pipeline Row)
  | .producer i fail =>
    (w.producers[i]?).bind fun pc =>
      (produce src fail w.shared pc).bind fun (effect, pc') =>
        (effect.apply src i w.shared).map fun shared =>
          { w with shared, producers := w.producers.set i pc' }
  | .writer fail =>
    (write fail w.shared w.writer).map fun (shared, pc) => { w with shared, writer := pc }
  | .main =>
    (w.main.next w).map fun (shared, pc) => { w with shared, main := pc }

end Step
end YikvServer.Import
