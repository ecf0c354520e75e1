import YikvServer.Stream.RowChange

/-!
# Replaying an applied prefix

Objects that were applied once may be applied again, before the rest and in their own
order: on a table without arrays the visible rows end up as if each object had been
applied once.
-/
namespace YikvServer.Stream

open YikvServer.Theory YikvServer.Theory.Replay YikvServer.Index

/-- The objects applied one after another. -/
def appliedAll (N : Nlohmann) (Y : Yikv) (schema : Schema) (objects : List JsonObject)
    (idx : Y.Contents) : Y.Contents :=
  objects.foldl (fun idx obj => (applied N Y schema obj idx).2) idx

variable {N : Nlohmann} {Y : Yikv} {schema : Schema} {objects : List JsonObject}

/-- Without arrays no object brings an array element. -/
theorem appendsNothing_of_scalar (harr : ∀ fd ∈ schema.fields, fd.isArray = false)
    (obj : JsonObject) : AppendsNothing N schema obj := by
  intro _ fd hfd hisArray
  rw [harr fd hfd] at hisArray
  cases hisArray

/-- A stretch of objects on the visible rows is its stretch of row changes. -/
theorem view_appliedAll (hpk : schema.pk ∉ metaFields)
    (happ : ∀ obj ∈ objects, AppendsNothing N schema obj) (idx : Y.Contents) :
    view Y schema (appliedAll N Y schema objects idx) =
      applyOps (defaultRow schema) (objects.map (changeOf N schema)) (view Y schema idx) := by
  induction objects generalizing idx with
  | nil => rfl
  | cons obj rest ih =>
    have hobj := view_applied hpk (happ obj List.mem_cons_self) idx
    show view Y schema (appliedAll N Y schema rest (applied N Y schema obj idx).2) = _
    rw [ih fun o ho => happ o (List.mem_cons_of_mem _ ho), hobj]
    rfl

/-- On a table without arrays an applied prefix may be replayed with everything after it. -/
theorem replay_applied_prefix (N : Nlohmann) (Y : Yikv) (schema : Schema)
    (harr : ∀ fd ∈ schema.fields, fd.isArray = false) (hpk : schema.pk ∉ metaFields)
    (objects done : List JsonObject) (hdone : done <+: objects) (idx : Y.Contents) :
    view Y schema (appliedAll N Y schema objects (appliedAll N Y schema done idx)) =
      view Y schema (appliedAll N Y schema objects idx) := by
  have happ : ∀ obj : JsonObject, AppendsNothing N schema obj := appendsNothing_of_scalar harr
  rw [view_appliedAll hpk fun obj _ => happ obj, view_appliedAll hpk fun obj _ => happ obj,
    view_appliedAll hpk fun obj _ => happ obj]
  exact applyOps_prefix (hdone.map _) _

/-- A table of one counter. -/
def counterSchema : Schema where
  fields := [⟨"id", 1, .int64, false⟩, ⟨"n", 2, .int32, false⟩]
  pk := "id"
  names := by decide
  ids := by decide

/-- A patch that creates the row, an insertion that fails, and a second patch. -/
def counterLog : List JsonObject :=
  [.ofMembers [("id", .integer 1), ("n", .integer 5)],
    .ofMembers [("_op", .string "INSERT"), ("id", .integer 1), ("n", .integer 7)],
    .ofMembers [("id", .integer 1)]]

/-- Replaying the first two objects: the insertion fails in both passes. -/
theorem counterLog_replay :
    view .plain counterSchema (appliedAll (plainJson []) .plain counterSchema counterLog
        (appliedAll (plainJson []) .plain counterSchema (counterLog.take 2) fun _ => none)) =
      view .plain counterSchema
        (appliedAll (plainJson []) .plain counterSchema counterLog fun _ => none) :=
  replay_applied_prefix (plainJson []) .plain counterSchema (by decide) (by decide) counterLog
    (counterLog.take 2) (List.take_prefix 2 counterLog) fun _ => none

end YikvServer.Stream
