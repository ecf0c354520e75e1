import YikvServer.Import.Pipeline

/-!
# The flags of the import pipeline

Who may set the error flag, the abort flag and EOS. Every failure is on its way to the
error flag, and the queue is aborted only after it.
-/
namespace YikvServer.Import

open YikvServer.Theory

variable {Row : Type} {src : Source Row} {w w' : Pipeline Row} {m : Move} {fail : Bool}
  {shared shared' : Shared Row} {pc pc' : ProducerPc Row} {effect : Effect Row} {i : Nat}
  {pcs : List (ProducerPc Row)}

/-! ## Steps -/

/-- Whoever moves: a producer, the writer or `main`. -/
theorem step_cases (h : w.step src m = some w') :
    (∃ i fail pc effect pc' shared, w.producers[i]? = some pc ∧
      produce src fail w.shared pc = some (effect, pc') ∧
      effect.apply src i w.shared = some shared ∧
      w' = { w with shared, producers := w.producers.set i pc' }) ∨
    (∃ fail shared pc, write fail w.shared w.writer = some (shared, pc) ∧
      w' = { w with shared, writer := pc }) ∨
    ∃ shared pc, w.main.next w = some (shared, pc) ∧ w' = { w with shared, main := pc } := by
  cases m with
  | producer i fail =>
    obtain ⟨pc, hpc, h⟩ := Option.bind_eq_some_iff.mp h
    obtain ⟨⟨effect, pc'⟩, hturn, h⟩ := Option.bind_eq_some_iff.mp h
    obtain ⟨shared, happly, rfl⟩ := Option.map_eq_some_iff.mp h
    exact Or.inl ⟨i, fail, pc, effect, pc', shared, hpc, hturn, happly, rfl⟩
  | writer fail =>
    obtain ⟨⟨shared, pc⟩, hwrite, rfl⟩ := Option.map_eq_some_iff.mp h
    exact Or.inr (Or.inl ⟨fail, shared, pc, hwrite, rfl⟩)
  | main =>
    obtain ⟨⟨shared, pc⟩, hmain, rfl⟩ := Option.map_eq_some_iff.mp h
    exact Or.inr (Or.inr ⟨shared, pc, hmain, rfl⟩)

/-- What one turn of the writer can do. -/
inductive WriterTurn (shared : Shared Row) :
    WriterPc Row → Shared Row → WriterPc Row → Prop
  | fault (pc : WriterPc Row) (hpc : pc = .start ∨ ∃ batch, pc = .process batch) :
      WriterTurn shared pc { shared with fault := true } .set
  | go (pc : WriterPc Row) (hpc : pc = .start ∨ ∃ batch, pc = .process batch) :
      WriterTurn shared pc shared .pop
  | ended (hpop : shared.queue.CanPop) (hq : shared.queue.q = []) :
      WriterTurn shared .pop shared .done
  | popped (batch : Batch Row) (rest : List (Batch Row)) (hq : shared.queue.q = batch :: rest) :
      WriterTurn shared .pop
        { shared with
          queue := { shared.queue with q := rest }, handed := shared.handed ++ [batch] }
        (.process batch)
  | set : WriterTurn shared .set { shared with failed := true } .abort
  | abort : WriterTurn shared .abort { shared with queue := shared.queue.abort } .done

theorem writerTurn {wpc wpc' : WriterPc Row} (h : write fail shared wpc = some (shared', wpc')) :
    WriterTurn shared wpc shared' wpc' := by
  cases wpc with
  | start =>
    cases fail with
    | true =>
      obtain ⟨rfl, rfl⟩ := Prod.mk.inj (Option.some.inj h)
      exact .fault _ (Or.inl rfl)
    | false =>
      obtain ⟨rfl, rfl⟩ := Prod.mk.inj (Option.some.inj h)
      exact .go _ (Or.inl rfl)
  | pop =>
    simp only [write, BoundedParsedBatchQueue.pop] at h
    split at h
    · cases h
    split at h
    · rename_i hpop
      cases hq : shared.queue.q with
      | nil =>
        rw [hq] at h
        obtain ⟨rfl, rfl⟩ := Prod.mk.inj (Option.some.inj h)
        exact .ended hpop hq
      | cons batch rest =>
        rw [hq] at h
        obtain ⟨rfl, rfl⟩ := Prod.mk.inj (Option.some.inj h)
        exact .popped batch rest hq
    · cases h
  | process batch =>
    cases fail with
    | true =>
      obtain ⟨rfl, rfl⟩ := Prod.mk.inj (Option.some.inj h)
      exact .fault _ (Or.inr ⟨batch, rfl⟩)
    | false =>
      obtain ⟨rfl, rfl⟩ := Prod.mk.inj (Option.some.inj h)
      exact .go _ (Or.inr ⟨batch, rfl⟩)
  | set =>
    cases fail with
    | true => cases h
    | false =>
      obtain ⟨rfl, rfl⟩ := Prod.mk.inj (Option.some.inj h)
      exact .set
  | abort =>
    cases fail with
    | true => cases h
    | false =>
      obtain ⟨rfl, rfl⟩ := Prod.mk.inj (Option.some.inj h)
      exact .abort
  | done => cases h

/-- What one turn of `main` can do. -/
inductive MainTurn (w : Pipeline Row) : MainPc → Shared Row → MainPc → Prop
  | join (hall : ∀ pc ∈ w.producers, pc = .done) : MainTurn w .join w.shared .check
  | check : MainTurn w .check w.shared (if w.shared.failed then .abort else .eos)
  | eos : MainTurn w .eos { w.shared with queue := w.shared.queue.pushEos } .joinWriter
  | abort : MainTurn w .abort { w.shared with queue := w.shared.queue.abort } .joinWriter
  | joinWriter (hwriter : w.writer = .done) : MainTurn w .joinWriter w.shared .done

theorem mainTurn {mpc mpc' : MainPc} (h : mpc.next w = some (shared', mpc')) :
    MainTurn w mpc shared' mpc' := by
  cases mpc with
  | join =>
    simp only [MainPc.next] at h
    split at h
    · rename_i hall
      obtain ⟨rfl, rfl⟩ := Prod.mk.inj (Option.some.inj h)
      refine .join fun pc hpc => ?_
      have hdone := List.all_eq_true.mp hall pc hpc
      cases pc <;> first | rfl | cases hdone
    · cases h
  | check =>
    obtain ⟨rfl, rfl⟩ := Prod.mk.inj (Option.some.inj h)
    exact .check
  | eos =>
    obtain ⟨rfl, rfl⟩ := Prod.mk.inj (Option.some.inj h)
    exact .eos
  | abort =>
    obtain ⟨rfl, rfl⟩ := Prod.mk.inj (Option.some.inj h)
    exact .abort
  | joinWriter =>
    simp only [MainPc.next] at h
    split at h
    · rename_i hdone
      obtain ⟨rfl, rfl⟩ := Prod.mk.inj (Option.some.inj h)
      refine .joinWriter ?_
      cases hw : w.writer <;> first | rfl | (rw [hw] at hdone; cases hdone)
    · cases h
  | done => cases h

/-- The producer is about to set the error flag. -/
def ProducerPc.Setting (pc : ProducerPc Row) : Prop := ∃ pending, pc = .set pending

/-- The producer is about to abort the queue. -/
def ProducerPc.Aborting (pc : ProducerPc Row) : Prop := ∃ pending, pc = .abort pending

/-- What one turn of a producer has to do with the flags. -/
inductive FlagTurn (failed : Bool) : ProducerPc Row → Effect Row → ProducerPc Row → Prop
  | fault (pc : ProducerPc Row) (pending : List Row) (hpc : ¬ pc.Setting) :
      FlagTurn failed pc .fault (.set pending)
  | set (pending : List Row) : FlagTurn failed (.set pending) .set (.abort pending)
  | abort (pending : List Row) (pc' : ProducerPc Row) (hpc : ¬ pc'.Setting)
      (hpc' : ¬ pc'.Aborting) : FlagTurn failed (.abort pending) .abort pc'
  | other (pc pc' : ProducerPc Row) (effect : Effect Row)
      (heffect : effect ≠ .fault ∧ effect ≠ .set ∧ effect ≠ .abort) (hpc : ¬ pc.Setting)
      (hpc' : ¬ pc'.Setting) (habort : pc'.Aborting → failed = true) :
      FlagTurn failed pc effect pc'

theorem flushLast_cases (inBatch : List Row) :
    flushLast inBatch = .done ∨ flushLast inBatch = .flush inBatch .last := by
  unfold flushLast
  split
  · exact Or.inl rfl
  · exact Or.inr rfl

theorem fails_set (h : pc.fails src = some pc') :
    (∃ pending, pc' = .set pending) ∧ ¬ pc.Setting := by
  unfold ProducerPc.fails at h
  split at h
  · split at h
    · exact ⟨⟨_, (Option.some.inj h).symm⟩, fun ⟨_, he⟩ => nomatch he⟩
    · cases h
  case h_8 => cases h
  all_goals exact ⟨⟨_, (Option.some.inj h).symm⟩, fun ⟨_, he⟩ => nomatch he⟩

/-- A statement that goes well aborts only when it finds the error flag set. -/
theorem goes_flags {failed : Bool} {nextFile : Nat} {consumed : Bool}
    (h : pc.goes src failed nextFile consumed = some (effect, pc')) (hset : ¬ pc.Setting)
    (habort : ¬ pc.Aborting) :
    (effect ≠ .fault ∧ effect ≠ .set ∧ effect ≠ .abort) ∧ ¬ pc'.Setting ∧
      (pc'.Aborting → failed = true) := by
  unfold ProducerPc.goes at h
  cases pc with
  | push batch after =>
    cases after <;> grind [ProducerPc.Setting, ProducerPc.Aborting, After.pc]
  | _ => grind [ProducerPc.Setting, ProducerPc.Aborting, flushLast, rowDone]

theorem flagTurn (h : produce src fail shared pc = some (effect, pc')) :
    FlagTurn shared.failed pc effect pc' := by
  cases fail with
  | true =>
    obtain ⟨pc'', hfails, heq⟩ := Option.map_eq_some_iff.mp h
    obtain ⟨rfl, rfl⟩ := Prod.mk.inj heq
    obtain ⟨⟨pending, rfl⟩, hpc⟩ := fails_set hfails
    exact .fault pc pending hpc
  | false =>
    have hgoes : pc.goes src shared.failed shared.nextFile shared.consumed = some (effect, pc') := h
    by_cases hset : pc.Setting
    · obtain ⟨pending, rfl⟩ := hset
      obtain ⟨rfl, rfl⟩ := Prod.mk.inj (Option.some.inj hgoes)
      exact .set pending
    by_cases habort : pc.Aborting
    · obtain ⟨pending, rfl⟩ := habort
      obtain ⟨rfl, rfl⟩ := Prod.mk.inj (Option.some.inj hgoes)
      rcases flushLast_cases pending with hlast | hlast
      all_goals
        rw [hlast]
        exact .abort pending _ (fun ⟨_, he⟩ => nomatch he) fun ⟨_, he⟩ => nomatch he
    obtain ⟨heffect, hset', habort'⟩ := goes_flags hgoes hset habort
    exact .other pc pc' effect heffect hset hset' habort'

/-! ## The flags along a run -/

theorem mem_set_cases {α : Type} {l : List α} {i : Nat} {a b : α} (h : b ∈ l.set i a) :
    b = a ∨ b ∈ l := (List.mem_or_eq_of_mem_set h).symm

/-- An entry other than the one that is replaced stays. -/
theorem mem_set_of_ne {α : Type} {l : List α} {i : Nat} {a b c : α} (h : b ∈ l)
    (hi : l[i]? = some c) (hne : b ≠ c) : b ∈ l.set i a := by
  obtain ⟨j, hj⟩ := List.mem_iff_getElem?.mp h
  have hij : i ≠ j := by
    rintro rfl
    exact hne (Option.some.inj (hj.symm.trans hi))
  exact List.mem_iff_getElem?.mpr ⟨j, by rw [List.getElem?_set_ne hij]; exact hj⟩

/-- Every failure reaches the error flag, and the error flag comes before the abort. -/
structure Flags (w : Pipeline Row) : Prop where
  aborted : w.shared.queue.aborted = true → w.shared.failed = true
  failed : w.shared.failed = true → w.shared.fault = true
  dropped : w.shared.dropped ≠ [] → w.shared.failed = true
  setting : ∀ pc ∈ w.producers, pc.Setting → w.shared.fault = true
  aborting : ∀ pc ∈ w.producers, pc.Aborting → w.shared.failed = true
  writerSet : w.writer = .set → w.shared.fault = true
  writerAbort : w.writer = .abort → w.shared.failed = true
  mainAbort : w.main = .abort → w.shared.failed = true
  caught : w.shared.fault = true →
    w.shared.failed = true ∨ (∃ pc ∈ w.producers, pc.Setting) ∨ w.writer = .set

theorem Flags.init (workers capacity : Nat) : Flags (.init workers capacity : Pipeline Row) where
  aborted h := nomatch h
  failed h := nomatch h
  dropped h := absurd rfl h
  setting pc hpc hset := by
    obtain rfl := List.eq_of_mem_replicate hpc
    obtain ⟨_, he⟩ := hset
    cases he
  aborting pc hpc habort := by
    obtain rfl := List.eq_of_mem_replicate hpc
    obtain ⟨_, he⟩ := habort
    cases he
  writerSet h := nomatch h
  writerAbort h := nomatch h
  mainAbort h := nomatch h
  caught h := nomatch h

/-- The flags after an effect. -/
theorem apply_flags (h : effect.apply src i shared = some shared') :
    (shared'.fault = true ↔ shared.fault = true ∨ effect = .fault) ∧
      (shared'.failed = true ↔ shared.failed = true ∨ effect = .set) ∧
      (shared'.queue.aborted = true ↔ shared.queue.aborted = true ∨ effect = .abort) ∧
      (shared'.dropped ≠ [] → shared.dropped ≠ [] ∨ shared.queue.aborted = true) := by
  unfold Effect.apply at h
  cases effect <;> grind [BoundedParsedBatchQueue.push, BoundedParsedBatchQueue.abort]

theorem Flags.producer (h : Flags w) (hpc : w.producers[i]? = some pc)
    (hturn : FlagTurn w.shared.failed pc effect pc')
    (happly : effect.apply src i w.shared = some shared) :
    Flags { w with shared, producers := w.producers.set i pc' } := by
  obtain ⟨hfault, hfailed, haborted, hdropped⟩ := apply_flags happly
  have hmem : pc ∈ w.producers := List.mem_of_getElem? hpc
  have hset : pc'.Setting → shared.fault = true := by
    intro hset
    cases hturn with
    | fault => exact hfault.mpr (Or.inr rfl)
    | set pending => obtain ⟨_, he⟩ := hset; cases he
    | abort pending pc' hno => exact absurd hset hno
    | other pc pc' effect heffect hpc hno => exact absurd hset hno
  have habort : pc'.Aborting → shared.failed = true := by
    intro habort
    cases hturn with
    | fault => obtain ⟨_, he⟩ := habort; cases he
    | set pending => exact hfailed.mpr (Or.inr rfl)
    | abort pending pc' _ hno => exact absurd habort hno
    | other pc pc' effect heffect hpc _ hyes => exact hfailed.mpr (Or.inl (hyes habort))
  have hfault_of_set : effect = .set → w.shared.fault = true := by
    rintro rfl
    cases hturn with
    | set pending => exact h.setting _ hmem ⟨pending, rfl⟩
    | other pc pc' effect heffect => exact absurd rfl heffect.2.1
  have hfailed_of_abort : effect = .abort → w.shared.failed = true := by
    rintro rfl
    cases hturn with
    | abort pending => exact h.aborting _ hmem ⟨pending, rfl⟩
    | other pc pc' effect heffect => exact absurd rfl heffect.2.2
  constructor
  · intro hyes
    rcases haborted.mp hyes with hold | hnew
    · exact hfailed.mpr (Or.inl (h.aborted hold))
    · exact hfailed.mpr (Or.inl (hfailed_of_abort hnew))
  · intro hyes
    rcases hfailed.mp hyes with hold | hnew
    · exact hfault.mpr (Or.inl (h.failed hold))
    · exact hfault.mpr (Or.inl (hfault_of_set hnew))
  · intro hne
    rcases hdropped hne with hold | hnew
    · exact hfailed.mpr (Or.inl (h.dropped hold))
    · exact hfailed.mpr (Or.inl (h.aborted hnew))
  · intro q hq hqset
    rcases mem_set_cases hq with rfl | hq
    · exact hset hqset
    · exact hfault.mpr (Or.inl (h.setting q hq hqset))
  · intro q hq hqabort
    rcases mem_set_cases hq with rfl | hq
    · exact habort hqabort
    · exact hfailed.mpr (Or.inl (h.aborting q hq hqabort))
  · exact fun hw => hfault.mpr (Or.inl (h.writerSet hw))
  · exact fun hw => hfailed.mpr (Or.inl (h.writerAbort hw))
  · exact fun hm => hfailed.mpr (Or.inl (h.mainAbort hm))
  · intro hyes
    have hnow : pc' ∈ w.producers.set i pc' := List.mem_set (List.getElem?_eq_some_iff.mp hpc).1 _
    rcases hfault.mp hyes with hold | rfl
    · rcases h.caught hold with hfail | ⟨q, hq, hqset⟩ | hw
      · exact Or.inl (hfailed.mpr (Or.inl hfail))
      · by_cases hsame : q = pc
        · subst hsame
          obtain ⟨pending, rfl⟩ := hqset
          cases hturn with
          | fault _ _ hno => exact absurd ⟨pending, rfl⟩ hno
          | set => exact Or.inl (hfailed.mpr (Or.inr rfl))
          | other _ _ _ _ hno => exact absurd ⟨pending, rfl⟩ hno
        · exact Or.inr (Or.inl ⟨q, mem_set_of_ne hq hpc hsame, hqset⟩)
      · exact Or.inr (Or.inr hw)
    · cases hturn with
      | fault _ pending => exact Or.inr (Or.inl ⟨_, hnow, pending, rfl⟩)
      | other _ _ _ heffect => exact absurd rfl heffect.1

/-- A failure that the writer is not about to report is caught elsewhere. -/
theorem Flags.caughtElsewhere (h : Flags w) (hne : w.writer ≠ .set) (wpc : WriterPc Row)
    (hfault : w.shared.fault = true) :
    w.shared.failed = true ∨ (∃ pc ∈ w.producers, pc.Setting) ∨ wpc = .set := by
  rcases h.caught hfault with hfail | hset | hw
  · exact Or.inl hfail
  · exact Or.inr (Or.inl hset)
  · exact absurd hw hne

theorem Flags.writer {wpc : WriterPc Row} (h : Flags w)
    (hturn : WriterTurn w.shared w.writer shared wpc) :
    Flags { w with shared, writer := wpc } := by
  generalize hw : w.writer = old at hturn
  cases hturn with
  | fault _ hpc =>
    exact
      { h with
        failed := fun _ => rfl
        setting := fun _ _ _ => rfl
        writerSet := fun _ => rfl
        writerAbort := fun he => nomatch he
        caught := fun _ => Or.inr (Or.inr rfl) }
  | go _ hpc =>
    have hne : w.writer ≠ .set := by
      rw [hw]
      rcases hpc with rfl | ⟨batch, rfl⟩ <;> exact fun he => nomatch he
    exact
      { h with
        writerSet := fun he => nomatch he
        writerAbort := fun he => nomatch he
        caught := h.caughtElsewhere hne _ }
  | ended hpop hq =>
    exact
      { h with
        writerSet := fun he => nomatch he
        writerAbort := fun he => nomatch he
        caught := h.caughtElsewhere (by rw [hw]; exact fun he => nomatch he) _ }
  | popped batch rest hq =>
    exact
      { h with
        writerSet := fun he => nomatch he
        writerAbort := fun he => nomatch he
        caught := h.caughtElsewhere (by rw [hw]; exact fun he => nomatch he) _ }
  | set =>
    exact
      { h with
        aborted := fun _ => rfl
        failed := fun _ => h.writerSet hw
        dropped := fun _ => rfl
        aborting := fun _ _ _ => rfl
        writerSet := fun he => nomatch he
        writerAbort := fun _ => rfl
        mainAbort := fun _ => rfl
        caught := fun _ => Or.inl rfl }
  | abort =>
    exact
      { h with
        aborted := fun _ => h.writerAbort hw
        writerSet := fun he => nomatch he
        writerAbort := fun he => nomatch he
        caught := fun _ => Or.inl (h.writerAbort hw) }

theorem Flags.main {mpc : MainPc} (h : Flags w) (hturn : MainTurn w w.main shared mpc) :
    Flags { w with shared, main := mpc } := by
  generalize hm : w.main = old at hturn
  cases hturn with
  | join hall => exact { h with mainAbort := fun he => nomatch he }
  | check =>
    refine { h with mainAbort := fun he => ?_ }
    dsimp only at he ⊢
    split at he
    · assumption
    · cases he
  | eos => exact { h with mainAbort := fun he => nomatch he }
  | abort =>
    exact { h with aborted := fun _ => h.mainAbort hm, mainAbort := fun he => nomatch he }
  | joinWriter hwriter => exact { h with mainAbort := fun he => nomatch he }

theorem Flags.step (h : Flags w) (hstep : w.step src m = some w') : Flags w' := by
  rcases step_cases hstep with ⟨i, fail, pc, effect, pc', shared, hpc, hturn, happly, rfl⟩ |
    ⟨fail, shared, pc, hwrite, rfl⟩ | ⟨shared, pc, hmain, rfl⟩
  · exact h.producer hpc (flagTurn hturn) happly
  · exact h.writer (writerTurn hwrite)
  · exact h.main (mainTurn hmain)

end YikvServer.Import
