import YikvServer.Kafka.Message
import YikvServer.Kafka.OffsetFile
import YikvServer.Theory.Runs

/-!
# `KafkaSource`

The consumer of one partition, one observable event at a time: reading the offset
file, taking the next message, each call on the index, and each way a save can
leave the file. A crash loses the thread and keeps the index and the file.
-/
namespace YikvServer.Kafka

open YikvServer.Theory YikvServer.Index YikvServer.Stream

inductive Phase where
  | down
  | polling (next : Int)
  | applying (m : Message) (rest : Prog Empty CallRes Unit)
  | saving (offset : Int)

structure Source (Y : Yikv) where
  idx : Y.Contents
  file : Option (List Char)
  phase : Phase
  /-- The offsets handled so far, in time. -/
  processed : List Int

inductive Event where
  | start
  /-- `stop_` seen at the head of the loop. -/
  | stop
  /-- No message, the end of the partition, or a consume error: `continue`. -/
  | quiet
  | fetch
  | call
  | finish
  /-- The file is truncated and holds this many characters of the new text. -/
  | torn (n : Nat)
  | save
  /-- "cannot write offset file". -/
  | saveFails
  | crash
  deriving DecidableEq, Repr

namespace Source

variable (N : Nlohmann) (Y : Yikv) (schema : Schema) (log : Log)

def step (s : Source Y) (e : Event) : Option (Source Y) :=
  match e, s.phase with
  | .start, .down => some { s with phase := .polling (loadOffset s.file) }
  | .stop, .polling _ => some { s with phase := .down }
  | .quiet, .polling _ => some s
  | .fetch, .polling next =>
    (log.since next).head?.map fun m => { s with phase := .applying m (handlePayload N m.payload) }
  | .call, .applying m (.step obj k) =>
    let r := callExec N Y schema obj s.idx
    some { s with idx := r.2, phase := .applying m (k r.1) }
  | .finish, .applying m (.pure _) =>
    some { s with phase := .saving m.offset, processed := s.processed ++ [m.offset] }
  | .torn n, .saving o => some { s with file := some ((offsetText o).take n) }
  | .save, .saving o => some { s with file := some (offsetText o), phase := .polling (o + 1) }
  | .saveFails, .saving o => some { s with phase := .polling (o + 1) }
  | .crash, _ => some { s with phase := .down }
  | _, _ => none

/-- The messages a source has still to process, from where it stands. -/
def pending (s : Source Y) : List Message :=
  match s.phase with
  | .down => log.since (loadOffset s.file)
  | .polling next => log.since next
  | .applying m _ => log.since m.offset
  | .saving o => log.since (o + 1)

end Source

/-- Neither a crash nor a failed or half-done save. -/
def Event.graceful : Event → Bool
  | .torn _ | .saveFails | .crash => false
  | _ => true

end YikvServer.Kafka
