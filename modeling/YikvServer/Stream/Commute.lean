import YikvServer.Stream.Refinement
import YikvServer.Theory.Local

/-!
# Stream objects on different keys

A call acts at the key that it extracts, whatever its operation and however it ends: it
looks the row of that key up, and what it stores is filed under the same key.
-/
namespace YikvServer.Stream

open YikvServer.Theory YikvServer.Theory.Local YikvServer.Index

variable {N : Nlohmann} {Y : Yikv} {schema : Schema} {obj : JsonObject} {k : String}

/-- A merge is stored under the extracted key or not at all. -/
theorem actsAt_insert (hpk : schema.pk ∉ metaFields) (hk : extractPkString N schema obj = .ok k) :
    ActsAt k fun idx : Y.Contents => (applyInsert N Y schema obj).run (Y.exec schema) idx := by
  refine ⟨fun old =>
      old.elim ((mergeJsonIntoDoc N Y schema Y.newDoc obj).map fun _ => ()) fun _ =>
        .error (.refused "INSERT for existing pk (use UPSERT)"),
    fun old => old.or (mergeJsonIntoDoc N Y schema Y.newDoc obj).toOption, fun idx => ?_⟩
  dsimp only
  rw [run_applyInsert hk]
  have hself : Function.update idx k (idx k) = idx := Function.update_eq_self k idx
  cases hrow : idx k with
  | some old => exact congrArg (Prod.mk _) (hrow ▸ hself).symm
  | none =>
    cases hm : mergeJsonIntoDoc N Y schema Y.newDoc obj with
    | error e => exact congrArg (Prod.mk _) (hrow ▸ hself).symm
    | ok doc =>
      have hkey : Y.key schema doc = k := key_merged hpk hk (mergeJson_ok hm)
      dsimp only
      rw [Yikv.put'_absent (by rw [hkey, hrow]), Yikv.upsert, hkey]
      rfl

theorem actsAt_upsert (hpk : schema.pk ∉ metaFields) (hk : extractPkString N schema obj = .ok k) :
    ActsAt k fun idx : Y.Contents =>
      (applyUpsertMerge N Y schema obj).run (Y.exec schema) idx := by
  refine ⟨fun old => (mergeJsonIntoDoc N Y schema (baseDoc Y schema old) obj).map fun _ => (),
    fun old => (mergeJsonIntoDoc N Y schema (baseDoc Y schema old) obj).toOption.or old,
    fun idx => ?_⟩
  dsimp only
  rw [run_applyUpsertMerge hk]
  cases hm : mergeJsonIntoDoc N Y schema (baseDoc Y schema (idx k)) obj with
  | error e =>
    have hself : Function.update idx k (idx k) = idx := Function.update_eq_self k idx
    exact congrArg (Prod.mk _) hself.symm
  | ok doc =>
    have hkey : Y.key schema doc = k := key_merged hpk hk (mergeJson_ok hm)
    dsimp only
    rw [Yikv.upsert, hkey]
    rfl

/-- Every call acts at the key that it extracts. -/
theorem applied_actsAt (Y : Yikv) (hpk : schema.pk ∉ metaFields)
    (hk : extractPkString N schema obj = .ok k) :
    ActsAt k (applied N Y schema obj) := by
  by_cases hd : opOf N obj = .ok "delete"
  · refine ⟨fun _ => .ok (), fun _ => none, fun idx => ?_⟩
    rw [applied_delete hd, run_applyDelete hk]
    rfl
  by_cases hi : opOf N obj = .ok "insert"
  · have happly : applied N Y schema obj = fun idx =>
        (applyInsert N Y schema obj).run (Y.exec schema) idx := funext fun _ => applied_insert hi
    rw [happly]
    exact actsAt_insert hpk hk
  by_cases hu : opOf N obj = .ok "upsert" ∨ opOf N obj = .ok ""
  · have happly : applied N Y schema obj = fun idx =>
        (applyUpsertMerge N Y schema obj).run (Y.exec schema) idx :=
      funext fun _ => applied_upsert hu
    rw [happly]
    exact actsAt_upsert hpk hk
  · rw [not_or] at hu
    obtain ⟨stop, hstop⟩ := applied_unknown Y schema rfl hd hi hu.1 hu.2
    exact .of_const hstop

/-- Two objects with different keys may be applied in either order: the contents end up
the same, and each object succeeds, is refused or throws as it does in the other order. -/
theorem applied_comm (N : Nlohmann) (Y : Yikv) (schema : Schema) (hpk : schema.pk ∉ metaFields)
    (a b : JsonObject) (ka kb : String) (ha : extractPkString N schema a = .ok ka)
    (hb : extractPkString N schema b = .ok kb) (hne : ka ≠ kb) (idx : Y.Contents) :
    (applied N Y schema b (applied N Y schema a idx).2).2 =
        (applied N Y schema a (applied N Y schema b idx).2).2 ∧
      (applied N Y schema a idx).1 = (applied N Y schema a (applied N Y schema b idx).2).1 ∧
      (applied N Y schema b (applied N Y schema a idx).2).1 = (applied N Y schema b idx).1 := by
  have hactsA := applied_actsAt Y hpk ha
  have hactsB := applied_actsAt Y hpk hb
  refine ⟨hactsA.comm hactsB hne idx, ?_, ?_⟩
  · exact (hactsA.result_congr (hactsB.other hne idx)).symm
  · exact hactsB.result_congr (hactsA.other hne.symm idx)

/-- A deletion of user 7, and an insertion of user 8 whose age is a text. -/
theorem userObjects_comm :
    let gone := JsonObject.ofMembers [("_op", .string "DELETE"), ("user_id", .integer 7)]
    let torn := JsonObject.ofMembers [("_op", .string "insert"), ("age", .string "x"),
      ("user_id", .integer 8)]
    let idx := (applied (plainJson []) .plain userSchema userPatch fun _ => none).2
    let apply := applied (plainJson []) .plain userSchema
    (apply torn (apply gone idx).2).2 = (apply gone (apply torn idx).2).2 ∧
      (apply gone idx).1 = (apply gone (apply torn idx).2).1 ∧
      (apply torn (apply gone idx).2).1 = (apply torn idx).1 :=
  applied_comm (plainJson []) .plain userSchema (by decide) _ _ "7" "8" (by decide) (by decide)
    (by decide) _

end YikvServer.Stream
