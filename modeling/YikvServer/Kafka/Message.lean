import YikvServer.Stream.Refinement

/-!
# One Kafka message

The body that `KafkaSource::ConsumeLoop` and `RunKafkaImportCatchup` share: parse,
apply the object or the elements of the array, and swallow a JSON exception. The
operations of these programs are the calls of `ApplyStreamJsonObject`, each with
its outcome. The payload is the bytes the message was delivered with.
-/
namespace YikvServer.Kafka

open YikvServer.Theory YikvServer.Index YikvServer.Stream

/-- A call of `ApplyStreamJsonObject` returns true, returns false or throws. -/
abbrev CallRes : JsonObject → Type := fun _ => Except Stop Unit

/-- A false result is ignored, an exception goes on; anything but an object is
skipped with "batch element is not a JSON object, skipping". -/
def applyElement : Json → Prog JsonException CallRes Unit
  | .object members => .step (JsonObject.ofMembers members) fun r =>
    match r with
    | .error (.thrown e) => .fail e
    | _ => .pure ()
  | _ => .pure ()

def applyElements : List Json → Prog JsonException CallRes Unit
  | [] => .pure ()
  | item :: rest => applyElement item >>= fun _ => applyElements rest

/-- Neither an object nor an array: "message is neither object nor array". -/
def applyMessage : Json → Prog JsonException CallRes Unit
  | .array items => applyElements items
  | .object members => applyElement (.object members)
  | _ => .pure ()

/-- The `try` block: `parse` and all the calls are inside it. -/
def handlePayload (N : Nlohmann) (payload : String) : Prog Empty CallRes Unit :=
  (Prog.lift (N.parse payload) >>= applyMessage).handle fun _ => .pure ()

/-- Separate messages, one after another. -/
def handleEach (N : Nlohmann) : List String → Prog Empty CallRes Unit
  | [] => .pure ()
  | payload :: rest => handlePayload N payload >>= fun _ => handleEach N rest

/-- A call acts on the index as one run of the ingest code. -/
def callExec (N : Nlohmann) (Y : Yikv) (schema : Schema) (obj : JsonObject) (idx : Y.Contents) :
    Except Stop Unit × Y.Contents :=
  applied N Y schema obj idx

def isObject : Json → Bool
  | .object _ => true
  | _ => false

section Batch
variable (N : Nlohmann) (Y : Yikv) (schema : Schema)

/-- The index that a message leaves. -/
def left (p : Prog Empty CallRes Unit) (idx : Y.Contents) : Y.Contents :=
  (p.run (callExec N Y schema) idx).2

/-- The object is no update of the index: it changes nothing, or it is refused. -/
def NoUpdate (idx : Y.Contents) (members : List (String × Json)) : Prop :=
  (applied N Y schema (.ofMembers members) idx).2 = idx

/-- The element is no update, nor is any object in it when it is an array. -/
def Idle (idx : Y.Contents) : Json → Prop
  | .object members => NoUpdate N Y schema idx members
  | .array items => ∀ members, .object members ∈ items → NoUpdate N Y schema idx members
  | _ => True

/-- No element is an array that holds an update of the index that its turn finds, and after
an element that throws there is no update. -/
def Independent : Y.Contents → List Json → Prop
  | _, [] => True
  | idx, .object members :: rest =>
    match applied N Y schema (.ofMembers members) idx with
    | (.error (.thrown _), idx') => ∀ e ∈ rest, Idle N Y schema idx' e
    | (_, idx') => Independent idx' rest
  | idx, item :: rest => Idle N Y schema idx item ∧ Independent idx rest

end Batch

variable {N : Nlohmann} {Y : Yikv} {schema : Schema}

/-- The index that a parsed message leaves. -/
private def after (N : Nlohmann) (Y : Yikv) (schema : Schema) (j : Json) (idx : Y.Contents) :
    Y.Contents :=
  ((applyMessage j).run (callExec N Y schema) idx).2

private def separately (N : Nlohmann) (Y : Yikv) (schema : Schema) :
    Y.Contents → List Json → Y.Contents
  | idx, [] => idx
  | idx, j :: rest => separately N Y schema (after N Y schema j idx) rest

variable {idx idx' : Y.Contents} {item : Json} {rest items : List Json}
  {members : List (String × Json)} {r : Except Stop Unit}

private theorem left_parsed (Y : Yikv) (schema : Schema) (idx : Y.Contents) {payload : String}
    {j : Json} (h : N.parse payload = .ok j) :
    left N Y schema (handlePayload N payload) idx = after N Y schema j idx := by
  unfold left handlePayload after
  rw [h]
  simp only [Prog.lift_ok, Prog.pure_bind', Prog.run_handle]
  rcases (applyMessage j).run (callExec N Y schema) idx with ⟨_ | _, t⟩ <;> rfl

private theorem left_each (idx : Y.Contents) {payloads : List String}
    (h : payloads.map N.parse = items.map Except.ok) :
    left N Y schema (handleEach N payloads) idx = separately N Y schema idx items := by
  induction payloads generalizing items idx with
  | nil =>
    obtain rfl := List.map_eq_nil_iff.mp h.symm
    rfl
  | cons payload payloads ih =>
    cases items with
    | nil => cases h
    | cons j items =>
      obtain ⟨hj, hrest⟩ := List.cons.inj h
      have hone := left_parsed Y schema idx hj
      have htail := ih (after N Y schema j idx) hrest
      unfold left at hone htail ⊢
      rw [separately, ← htail, ← hone, handleEach, Prog.run_bind]
      rcases (handlePayload N payload).run (callExec N Y schema) idx with ⟨e | _, t⟩
      · exact e.elim
      · rfl

private theorem after_object :
    after N Y schema (.object members) idx = (applied N Y schema (.ofMembers members) idx).2 := by
  simp only [after, applyMessage, applyElement, Prog.run_step, callExec]
  rcases applied N Y schema (.ofMembers members) idx with ⟨(_ | _) | _, idx'⟩ <;> rfl

private theorem after_thrown {e : JsonException}
    (h : applied N Y schema (.ofMembers members) idx = (.error (.thrown e), idx')) :
    after N Y schema (.array (.object members :: rest)) idx = idx' := by
  simp [after, applyMessage, applyElements, applyElement, callExec, h]

private theorem after_cons (h : applied N Y schema (.ofMembers members) idx = (r, idx'))
    (hr : ∀ e, r ≠ .error (.thrown e)) :
    after N Y schema (.array (.object members :: rest)) idx =
      after N Y schema (.array rest) idx' := by
  simp only [after, applyMessage, applyElements, applyElement, Prog.step_bind, Prog.run_step,
    callExec, h]
  rcases r with (_ | e) | _
  · rfl
  · exact absurd rfl (hr e)
  · rfl

private theorem after_skip (h : ∀ members, item ≠ .object members) :
    after N Y schema (.array (item :: rest)) idx = after N Y schema (.array rest) idx := by
  cases item with
  | object members => exact absurd rfl (h members)
  | _ => rfl

/-- An array without an update leaves the index as it is, wherever its loop ends. -/
private theorem after_array (h : ∀ members, .object members ∈ items →
    NoUpdate N Y schema idx members) : after N Y schema (.array items) idx = idx := by
  induction items with
  | nil => rfl
  | cons e rest ih =>
    have hrest := ih fun members hmem => h members (List.mem_cons_of_mem _ hmem)
    by_cases hobj : ∃ members, e = .object members
    · obtain ⟨members, rfl⟩ := hobj
      have hsame : (applied N Y schema (.ofMembers members) idx).2 = idx :=
        h members List.mem_cons_self
      cases hr : applied N Y schema (.ofMembers members) idx with
      | mk r idx' =>
        rw [hr] at hsame
        obtain rfl := hsame
        by_cases hthrow : ∃ e, r = .error (.thrown e)
        · obtain ⟨e, rfl⟩ := hthrow
          exact after_thrown hr
        · rw [after_cons hr fun e he => hthrow ⟨e, he⟩, hrest]
    · rw [after_skip fun members he => hobj ⟨members, he⟩, hrest]

private theorem after_idle (h : Idle N Y schema idx item) : after N Y schema item idx = idx := by
  cases item with
  | object members => exact after_object.trans h
  | array items => exact after_array h
  | _ => rfl

private theorem separately_idle (h : ∀ e ∈ items, Idle N Y schema idx e) :
    separately N Y schema idx items = idx := by
  induction items with
  | nil => rfl
  | cons item rest ih =>
    rw [separately, after_idle (h item List.mem_cons_self)]
    exact ih fun e he => h e (List.mem_cons_of_mem _ he)

private theorem after_eq_separately (h : Independent N Y schema idx items) :
    after N Y schema (.array items) idx = separately N Y schema idx items := by
  induction items generalizing idx with
  | nil => rfl
  | cons item rest ih =>
    by_cases hobj : ∃ members, item = .object members
    · obtain ⟨members, rfl⟩ := hobj
      rw [separately, after_object]
      cases hr : applied N Y schema (.ofMembers members) idx with
      | mk r idx' =>
        by_cases hthrow : ∃ e, r = .error (.thrown e)
        · obtain ⟨e, rfl⟩ := hthrow
          simp only [Independent, hr] at h
          rw [after_thrown hr, separately_idle h]
        · have hnext : Independent N Y schema idx' rest := by
            rcases r with (_ | e) | _
            · simpa only [Independent, hr] using h
            · exact absurd ⟨e, rfl⟩ hthrow
            · simpa only [Independent, hr] using h
          rw [after_cons hr fun e he => hthrow ⟨e, he⟩]
          exact ih hnext
    · have hno : ∀ members, item ≠ .object members := fun members he => hobj ⟨members, he⟩
      have hboth : Idle N Y schema idx item ∧ Independent N Y schema idx rest := by
        cases item with
        | object members => exact absurd rfl (hno members)
        | _ => exact h
      rw [after_skip hno, separately, after_idle hboth.1]
      exact ih hboth.2

/-- A batch message leaves the index that its elements leave as separate messages, when the
elements are independent. -/
theorem batch_eq_each (N : Nlohmann) (Y : Yikv) (schema : Schema) (idx : Y.Contents)
    (payload : String) (payloads : List String) (items : List Json)
    (hp : N.parse payload = .ok (.array items))
    (hs : payloads.map N.parse = items.map Except.ok)
    (hind : Independent N Y schema idx items) :
    left N Y schema (handlePayload N payload) idx =
      left N Y schema (handleEach N payloads) idx := by
  rw [left_parsed Y schema idx hp, left_each idx hs]
  exact after_eq_separately hind

/-- Two users in one message, and the same two in separate messages. -/
def goodBatch : List Json := [.object [("user_id", .integer 1)], .object [("user_id", .integer 2)]]

def goodTexts : Nlohmann := plainJson
  [("[\x7b\"user_id\":1\x7d,\x7b\"user_id\":2\x7d]", .array goodBatch),
    ("\x7b\"user_id\":1\x7d", .object [("user_id", .integer 1)]),
    ("\x7b\"user_id\":2\x7d", .object [("user_id", .integer 2)])]

theorem goodBatch_eq_each :
    goodTexts.parse "[\x7b\"user_id\":1\x7d,\x7b\"user_id\":2\x7d]" = .ok (.array goodBatch) ∧
    ["\x7b\"user_id\":1\x7d", "\x7b\"user_id\":2\x7d"].map goodTexts.parse =
      goodBatch.map Except.ok ∧
    Independent goodTexts .plain userSchema (fun _ => none) goodBatch ∧
    left goodTexts .plain userSchema
        (handlePayload goodTexts "[\x7b\"user_id\":1\x7d,\x7b\"user_id\":2\x7d]") (fun _ => none) =
      left goodTexts .plain userSchema
        (handleEach goodTexts ["\x7b\"user_id\":1\x7d", "\x7b\"user_id\":2\x7d"]) (fun _ => none) :=
  have hind : Independent goodTexts .plain userSchema (fun _ => none) goodBatch := trivial
  ⟨rfl, rfl, hind, batch_eq_each goodTexts .plain userSchema _ _ _ goodBatch rfl rfl hind⟩

/-- A pk of the wrong type, then a good user. -/
def badBatch : List Json := [.object [("user_id", .string "x")], .object [("user_id", .integer 2)]]

def badTexts : Nlohmann := plainJson
  [("[\x7b\"user_id\":\"x\"\x7d,\x7b\"user_id\":2\x7d]", .array badBatch),
    ("\x7b\"user_id\":\"x\"\x7d", .object [("user_id", .string "x")]),
    ("\x7b\"user_id\":2\x7d", .object [("user_id", .integer 2)])]

/-- The exception of the first element takes the second one with it. -/
theorem badBatch_loses_update :
    badTexts.parse "[\x7b\"user_id\":\"x\"\x7d,\x7b\"user_id\":2\x7d]" = .ok (.array badBatch) ∧
    ["\x7b\"user_id\":\"x\"\x7d", "\x7b\"user_id\":2\x7d"].map badTexts.parse =
      badBatch.map Except.ok ∧
    (left badTexts .plain userSchema
      (handlePayload badTexts "[\x7b\"user_id\":\"x\"\x7d,\x7b\"user_id\":2\x7d]")
      (fun _ => none)) "2" = none ∧
    ((left badTexts .plain userSchema
      (handleEach badTexts ["\x7b\"user_id\":\"x\"\x7d", "\x7b\"user_id\":2\x7d"])
      (fun _ => none)) "2").isSome = true :=
  ⟨rfl, rfl, by rfl, by rfl⟩

end YikvServer.Kafka
