import YikvServer.Import.WholeImport

/-!
# The import never stands still

A producer that waits finds the queue full, so the writer has something to pop; a writer
that waits finds it empty, so no producer waits; and `main` waits for threads that can
move. A writer that has left has aborted the queue, or has seen EOS after the last join.
-/
namespace YikvServer.Import

open YikvServer.Theory

variable {Row : Type} {src : Source Row} {w : Pipeline Row} {pc : ProducerPc Row} {i : Nat}
  {capacity : Nat}

/-- Every thread has finished. -/
def Pipeline.Finished (w : Pipeline Row) : Prop :=
  w.main = .done ∧ w.writer = .done ∧ ∀ pc ∈ w.producers, pc = .done

/-- The producer waits in `Push`. -/
def ProducerPc.Waiting (queue : BoundedParsedBatchQueue Row) (pc : ProducerPc Row) : Prop :=
  ∃ batch after, pc = .push batch after ∧ ¬ queue.CanPush

theorem producer_isSome {effect : Effect Row} {pc' : ProducerPc Row}
    (hpc : w.producers[i]? = some pc)
    (hgoes : pc.goes src w.shared.failed w.shared.nextFile w.shared.consumed = some (effect, pc'))
    (happly : (effect.apply src i w.shared).isSome = true) :
    (w.step src (.producer i false)).isSome = true := by
  obtain ⟨shared, hshared⟩ := Option.isSome_iff_exists.mp happly
  have hturn : produce src false w.shared pc = some (effect, pc') := hgoes
  simp only [Pipeline.step, hpc, hturn, hshared, Option.bind_some, Option.map_some,
    Option.isSome_some]

/-- A producer in `Push` moves when the predicate it waits for holds. -/
theorem push_isSome {batch : Batch Row} {after : After Row}
    (hpc : w.producers[i]? = some (.push batch after)) :
    (w.step src (.producer i false)).isSome = true ↔ w.shared.queue.CanPush := by
  have hgoes : produce src false w.shared (.push batch after) = some (.push batch, after.pc) := rfl
  simp only [Pipeline.step, hpc, hgoes, Option.bind_some, Effect.apply, Option.isSome_map]
  split
  · rename_i hcan
    simp only [hcan, iff_true]
    split <;> rfl
  · rename_i hwait
    simp [hwait]

/-- The writer in `Pop` moves when the predicate it waits for holds. -/
theorem pop_isSome (hpc : w.writer = .pop) :
    (w.step src (.writer false)).isSome = true ↔ w.shared.queue.CanPop := by
  simp only [Pipeline.step, hpc, write, Bool.false_eq_true, if_false, Option.isSome_map]
  split
  · rename_i hcan
    simp only [hcan, iff_true, BoundedParsedBatchQueue.pop]
    cases w.shared.queue.q <;> rfl
  · rename_i hwait
    simp [hwait]

/-- A producer that is neither done nor waiting moves. -/
theorem producer_moves (hfits : pc.Fits src w.shared.consumed) (hpc : w.producers[i]? = some pc)
    (hdone : pc ≠ .done) (hwait : ¬ pc.Waiting w.shared.queue) :
    (w.step src (.producer i false)).isSome = true := by
  cases pc with
  | done => exact absurd rfl hdone
  | push batch after =>
    refine (push_isSome hpc).mpr ?_
    by_contra hcan
    exact hwait ⟨batch, after, rfl, hcan⟩
  | start => cases src <;> exact producer_isSome hpc rfl rfl
  | claim =>
    cases src with
    | files paths => exact producer_isSome hpc rfl rfl
    | mysql rows batchRows fields checks => cases hfits
  | next rest => cases rest <;> exact producer_isSome hpc rfl rfl
  | setup checks =>
    cases src with
    | files paths => cases hfits.1
    | mysql rows batchRows fields n => cases checks <;> exact producer_isSome hpc rfl rfl
  | fetch rest inBatch =>
    cases src with
    | files paths => cases hfits.1
    | mysql rows batchRows fields checks => cases rest <;> exact producer_isSome hpc rfl rfl
  | append fields row rest inBatch =>
    cases src with
    | files paths => cases hfits.1
    | mysql rows batchRows n checks => cases fields <;> exact producer_isSome hpc rfl rfl
  | _ => exact producer_isSome hpc rfl rfl

/-- A writer that is neither done nor waiting moves. -/
theorem writer_moves (hdone : w.writer ≠ .done) (hpop : w.writer = .pop → w.shared.queue.CanPop) :
    (w.step src (.writer false)).isSome = true := by
  cases hw : w.writer with
  | done => exact absurd hw hdone
  | pop => exact (pop_isSome hw).mpr (hpop hw)
  | _ => simp [Pipeline.step, write, hw]

/-- When every producer is done, the writer or `main` moves. -/
theorem main_moves (h : Sound src capacity w) (hall : ∀ pc ∈ w.producers, pc = .done)
    (hleft : ¬ w.Finished) : ∃ m : Move, m.fails = false ∧ (w.step src m).isSome = true := by
  cases hm : w.main with
  | join =>
    have hnext : MainPc.join.next w = some (w.shared, .check) :=
      if_pos (List.all_eq_true.mpr fun pc hpc => by rw [hall pc hpc])
    exact ⟨.main, rfl, by simp [Pipeline.step, hm, hnext]⟩
  | joinWriter =>
    by_cases hdone : w.writer = .done
    · exact ⟨.main, rfl, by simp [Pipeline.step, MainPc.next, hm, hdone]⟩
    · have heos := h.phases.told (Or.inl hm)
      exact ⟨.writer false, rfl, writer_moves hdone fun _ => Or.inr (Or.inl heos)⟩
  | done => exact absurd ⟨hm, h.phases.mainDone hm, hall⟩ hleft
  | _ => exact ⟨.main, rfl, by simp [Pipeline.step, MainPc.next, hm]⟩

/-- While a producer waits, the writer moves. -/
theorem writer_serves (h : Sound src capacity w) (hpc : pc ∈ w.producers)
    (hwait : pc.Waiting w.shared.queue) : (w.step src (.writer false)).isSome = true := by
  obtain ⟨batch, after, rfl, hcan⟩ := hwait
  obtain ⟨hfull, hopen⟩ := not_or.mp hcan
  have hq : w.shared.queue.q ≠ [] := by
    intro hnil
    rw [hnil, h.inOrder.cap] at hfull
    exact hfull (Nat.lt_of_lt_of_le Nat.zero_lt_one (Nat.le_max_right capacity 1))
  refine writer_moves (fun hdone => ?_) fun _ => Or.inl hq
  rcases h.phases.writerDone hdone with hab | ⟨-, hnil⟩
  · exact hopen hab
  · exact hq hnil

/-- In every reachable state in which some thread has not finished, some thread moves; a
thread in `Push` or `Pop` moves exactly when its wait predicate holds. -/
theorem import_progress (src : Source Row) (workers capacity : Nat) (moves : List Move)
    (w : Pipeline Row)
    (hrun : Runs.exec (Pipeline.step src) (.init workers capacity) moves = some w) :
    (¬ w.Finished → ∃ m : Move, m.fails = false ∧ (w.step src m).isSome = true) ∧
    (∀ i batch after, w.producers[i]? = some (.push batch after) →
      ((w.step src (.producer i false)).isSome = true ↔ w.shared.queue.CanPush)) ∧
    (w.writer = .pop →
      ((w.step src (.writer false)).isSome = true ↔ w.shared.queue.CanPop)) := by
  have hsound : Sound src capacity w := .run hrun
  refine ⟨fun hleft => ?_, fun _ _ _ hpc => push_isSome hpc, pop_isSome⟩
  by_cases hall : ∀ pc ∈ w.producers, pc = .done
  · exact main_moves hsound hall hleft
  · obtain ⟨pc, hpc, hdone⟩ : ∃ pc ∈ w.producers, pc ≠ .done := by
      by_contra hno
      exact hall fun pc hpc => by_contra fun hne => hno ⟨pc, hpc, hne⟩
    by_cases hwait : pc.Waiting w.shared.queue
    · exact ⟨.writer false, rfl, writer_serves hsound hpc hwait⟩
    · obtain ⟨i, hi⟩ := List.mem_iff_getElem?.mp hpc
      exact ⟨.producer i false, rfl, producer_moves (hsound.accounted.fits pc hpc) hi hdone hwait⟩

/-- The writer has failed on the first batch while a worker waits to push the third. -/
def fullQueueMoves : List Move :=
  List.replicate 11 (.producer 0 false) ++ [.writer false, .writer false] ++
    List.replicate 4 (.producer 0 false) ++ [.writer true, .writer false]

theorem fullQueue_progress : ∃ w : Pipeline Nat,
    Runs.exec (Pipeline.step (.files [[[1], [2], [3]]])) (.init 1 1) fullQueueMoves = some w ∧
      ∃ m : Move, m.fails = false ∧ (w.step (.files [[[1], [2], [3]]]) m).isSome = true := by
  obtain ⟨w, hrun, hmain⟩ : ∃ w : Pipeline Nat,
      Runs.exec (Pipeline.step (.files [[[1], [2], [3]]])) (.init 1 1) fullQueueMoves = some w ∧
        w.main = .join := ⟨_, rfl, rfl⟩
  refine ⟨w, hrun, (import_progress _ 1 1 fullQueueMoves w hrun).1 fun hfinished => ?_⟩
  have hjoin := hmain.symm.trans hfinished.1
  cases hjoin

end YikvServer.Import
