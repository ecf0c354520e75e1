import YikvServer.Theory.DecimalText

/-!
# Offsets

Partition logs and the `kafka.offset` file. A missing file, an empty one and a
negative value all mean the beginning of the log; a value of a processed message
means the one after it. Logs may have holes.
-/
namespace YikvServer.Kafka

open YikvServer.Theory

def int64Min : Int := -9223372036854775808
def int64Max : Int := 9223372036854775807

/-- `RD_KAFKA_OFFSET_BEGINNING`. -/
def offsetBeginning : Int := -2
/-- `RD_KAFKA_OFFSET_END`. -/
def offsetEnd : Int := -1

structure Message where
  offset : Int
  timestamp : Int
  payload : String
  deriving DecidableEq, Repr

/-- A partition: strictly increasing offsets below 2^63 - 1. -/
structure Log where
  messages : List Message
  increasing : messages.Pairwise (·.offset < ·.offset)
  bounded : ∀ m ∈ messages, 0 ≤ m.offset ∧ m.offset < int64Max

/-- What a consumer started at this offset is delivered, in order. -/
def Log.since (log : Log) (start : Int) : List Message :=
  log.messages.filter fun m => decide (start ≤ m.offset)

/-- `f << offset << "\n"`. -/
def offsetText (offset : Int) : List Char := DecimalText.write offset ++ ['\n']

/-- `KafkaSource::LoadOffset`; none is a file that cannot be opened. -/
def loadOffset : Option (List Char) → Int
  | none => offsetBeginning
  | some text =>
    let off := DecimalText.read int64Min int64Max offsetBeginning text
    if off ≥ 0 then off + 1 else offsetBeginning

variable {log : Log} {start o : Int} {m : Message}

theorem newline_not_digit : ∀ c ∈ ['\n'].head?, c.isDigit = false := by
  intro c hc
  cases hc
  rfl

/-- A processed offset is resumed after. -/
theorem loadOffset_saved (h0 : 0 ≤ o) (hmax : o ≤ int64Max) :
    loadOffset (some (offsetText o)) = o + 1 := by
  have hread : DecimalText.read int64Min int64Max offsetBeginning (offsetText o) = o :=
    DecimalText.read_write h0 (by decide) hmax newline_not_digit
  simp only [loadOffset, hread, ge_iff_le, h0, if_true]

theorem loadOffset_negative (h0 : o < 0) (hmin : int64Min ≤ o) :
    loadOffset (some (offsetText o)) = offsetBeginning := by
  have hread : DecimalText.read int64Min int64Max offsetBeginning (offsetText o) = o :=
    DecimalText.read_write_neg h0 hmin (by decide) newline_not_digit
  simp only [loadOffset, hread]
  rw [if_neg (by omega)]

/-- However much of a save reached the file, nothing after it is skipped. -/
theorem loadOffset_torn (h0 : 0 ≤ o) (hmax : o ≤ int64Max) (n : Nat) :
    loadOffset (some ((offsetText o).take n)) ≤ o + 1 := by
  obtain ⟨v, rfl⟩ := Int.eq_ofNat_of_zero_le h0
  have hread := DecimalText.read_take_write int64Min int64Max offsetBeginning v n (by decide) hmax
    newline_not_digit
  show (if 0 ≤ DecimalText.read int64Min int64Max offsetBeginning ((offsetText v).take n) then _
    else _) ≤ _
  change DecimalText.read int64Min int64Max offsetBeginning ((offsetText v).take n) = _ ∨
    0 ≤ DecimalText.read int64Min int64Max offsetBeginning ((offsetText v).take n) ∧
    DecimalText.read int64Min int64Max offsetBeginning ((offsetText v).take n) ≤ _ at hread
  have hbegin : offsetBeginning = -2 := rfl
  split <;> omega

theorem Log.mem_since : m ∈ log.since start ↔ m ∈ log.messages ∧ start ≤ m.offset := by
  simp [Log.since]

theorem Log.since_sorted (log : Log) (start : Int) :
    (log.since start).Pairwise (·.offset < ·.offset) :=
  log.increasing.filter _

/-- Starting at or before offset 0 delivers everything. -/
theorem Log.since_nonpos (h : start ≤ 0) : log.since start = log.messages :=
  List.filter_eq_self.mpr fun m hm => by
    have hb := (log.bounded m hm).1
    exact decide_eq_true (by omega)

theorem Log.filter_since {r : Int} (h : start ≤ r) :
    (log.since start).filter (fun m => decide (r ≤ m.offset)) = log.since r := by
  unfold Log.since
  rw [List.filter_filter]
  refine List.filter_congr fun m _ => ?_
  rw [Bool.eq_iff_iff]
  simp only [Bool.and_eq_true, decide_eq_true_eq]
  omega

/-- A delivered message splits what is delivered into the lower and the higher offsets. -/
theorem Log.since_tail {pre post : List Message} (h : log.since start = pre ++ m :: post) :
    log.since (m.offset + 1) = post := by
  obtain ⟨-, hright, hcross⟩ := List.pairwise_append.mp (h ▸ log.since_sorted start)
  have hm : start ≤ m.offset :=
    (Log.mem_since.mp (h ▸ List.mem_append_right _ List.mem_cons_self)).2
  rw [← Log.filter_since (show start ≤ m.offset + 1 by omega), h, List.filter_append,
    List.filter_cons_of_neg (by simp)]
  have hpre : pre.filter (fun m' => decide (m.offset + 1 ≤ m'.offset)) = [] := by
    refine List.filter_eq_nil_iff.mpr fun m' hm' hle => ?_
    have hlt := hcross m' hm' m List.mem_cons_self
    simp only [decide_eq_true_eq] at hle
    omega
  have hpost : post.filter (fun m' => decide (m.offset + 1 ≤ m'.offset)) = post := by
    refine List.filter_eq_self.mpr fun m' hm' => ?_
    have hlt := (List.pairwise_cons.mp hright).1 m' hm'
    exact decide_eq_true (by omega)
  rw [hpre, hpost, List.nil_append]

theorem Log.since_cons {rest : List Message} (h : log.since start = m :: rest) :
    log.since (m.offset + 1) = rest :=
  Log.since_tail (h.trans (List.nil_append _).symm)

/-- Nothing lies between a position and the message it delivers. -/
theorem Log.since_upto {rest : List Message} {r : Int} (h : log.since start = m :: rest)
    (h1 : start ≤ r) (h2 : r ≤ m.offset) : log.since r = m :: rest := by
  have hsorted := List.pairwise_cons.mp (h ▸ log.since_sorted start)
  rw [← Log.filter_since h1, h]
  refine List.filter_eq_self.mpr fun m' hm' => ?_
  rcases List.mem_cons.mp hm' with rfl | hm'
  · exact decide_eq_true h2
  · have hlt := hsorted.1 m' hm'
    exact decide_eq_true (by omega)

/-- Reading from before a message passes it. -/
theorem Log.since_split {r : Int} (hm : m ∈ log.messages) (hr : r ≤ m.offset) :
    ∃ pre, log.since r = pre ++ m :: log.since (m.offset + 1) := by
  obtain ⟨pre, post, hsplit⟩ := List.append_of_mem (Log.mem_since.mpr ⟨hm, hr⟩)
  exact ⟨pre, by rw [Log.since_tail hsplit, hsplit]⟩

theorem Log.since_self (h : m ∈ log.messages) :
    log.since m.offset = m :: log.since (m.offset + 1) := by
  obtain ⟨pre, hsplit⟩ := Log.since_split h (Int.le_refl _)
  cases pre with
  | nil => exact hsplit
  | cons m' pre =>
    have hge := (Log.mem_since.mp (hsplit ▸ List.mem_cons_self : m' ∈ log.since m.offset)).2
    have hlt := (List.pairwise_cons.mp (hsplit ▸ log.since_sorted m.offset)).1 m (by simp)
    omega

/-! ## Torn files -/

/-- What is loaded when only `n` characters of a save have reached the file skips no
message that the save does not cover. -/
def TornSafe (o : Int) (n : Nat) : Prop :=
  let loaded := loadOffset (some ((offsetText o).take n))
  if 0 ≤ o then loaded = offsetBeginning ∨ 1 ≤ loaded ∧ loaded ≤ o + 1
  else loaded = offsetBeginning

instance (o : Int) (n : Nat) : Decidable (TornSafe o n) := by
  unfold TornSafe
  infer_instance

theorem loadOffset_range (text : Option (List Char)) :
    loadOffset text = offsetBeginning ∨ 1 ≤ loadOffset text := by
  cases text with
  | none => exact Or.inl rfl
  | some text =>
    dsimp only [loadOffset]
    split
    · right
      omega
    · exact Or.inl rfl

/-- The sign of a negative offset alone is a failed parse, which stores 0. -/
theorem loadOffset_sign (h0 : o < 0) : loadOffset (some ((offsetText o).take 1)) = 1 := by
  have htake : (offsetText o).take 1 = ['-'] := by
    rw [offsetText, DecimalText.write, if_neg (by omega)]
    rfl
  rw [htake]
  rfl

theorem loadOffset_torn_negative {n : Nat} (h0 : o < 0) (hn : n ≠ 1) :
    loadOffset (some ((offsetText o).take n)) = offsetBeginning := by
  rcases Nat.eq_zero_or_pos n with rfl | hpos
  · rfl
  · have hread : DecimalText.read int64Min int64Max offsetBeginning ((offsetText o).take n) < 0 :=
      DecimalText.read_take_write_neg h0 (by decide) (by omega) newline_not_digit
    dsimp only [loadOffset]
    rw [if_neg (by omega)]

/-- A torn save is read as an offset that skips nothing, unless the offset was negative and
its sign is all that has reached the file. -/
theorem tornSafe_iff (o : Int) (hmax : o < int64Max) (n : Nat) :
    TornSafe o n ↔ 0 ≤ o ∨ n ≠ 1 := by
  unfold TornSafe
  by_cases h0 : 0 ≤ o
  · have htorn := loadOffset_torn h0 hmax.le n
    rw [if_pos h0]
    refine iff_of_true ?_ (Or.inl h0)
    exact (loadOffset_range _).imp_right fun hpos => ⟨hpos, htorn⟩
  · rw [if_neg h0]
    by_cases hn : n = 1
    · subst hn
      rw [loadOffset_sign (not_le.mp h0)]
      exact iff_of_false (by decide) fun hcond => hcond.elim h0 fun hne => hne rfl
    · exact iff_of_true (loadOffset_torn_negative (not_le.mp h0) hn) (Or.inr hn)

/-- A save of offset 1234 that has been cut after two digits. -/
theorem tornSafe_1234 : TornSafe 1234 2 ↔ 0 ≤ (1234 : Int) ∨ 2 ≠ 1 :=
  tornSafe_iff 1234 (by decide) 2

/-- A catch-up that starts at offset 0 and consumes nothing saves -1; cut after its sign,
the file reads as offset 0, and message 0 is skipped. -/
theorem minus_skips : loadOffset (some ((offsetText (0 - 1)).take 1)) = 1 ∧
    ¬ TornSafe (0 - 1) 1 := by
  decide

end YikvServer.Kafka
