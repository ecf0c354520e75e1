import YikvServer.Import.Accounting

/-!
# An import from its start to its end

The queue is first in, first out, and within its capacity whatever happens. Each thread ends
after those that it waits for, so that at the end nothing is left behind unless something has
failed, and then the error flag is set.
-/
namespace YikvServer.Import

open YikvServer.Theory

variable {Row : Type} {src : Source Row} {w w' : Pipeline Row} {m : Move} {fail : Bool}
  {shared shared' : Shared Row} {pc pc' : ProducerPc Row} {effect : Effect Row} {i : Nat}

/-! ## The queue -/

/-- The queue is within its capacity and hands out what was pushed in order. -/
structure InOrder (capacity : Nat) (w : Pipeline Row) : Prop where
  cap : w.shared.queue.cap = max capacity 1
  bounded : w.shared.queue.q.length ≤ w.shared.queue.cap
  order : w.shared.handed ++ w.shared.queue.q = w.shared.pushed

theorem InOrder.init (workers capacity : Nat) :
    InOrder capacity (.init workers capacity : Pipeline Row) where
  cap := by
    show (if capacity ≠ 0 then capacity else 1) = max capacity 1
    split <;> omega
  bounded := Nat.zero_le _
  order := rfl

theorem InOrder.step {capacity : Nat} (h : InOrder capacity w) (hstep : w.step src m = some w') :
    InOrder capacity w' := by
  rcases step_cases hstep with ⟨i, fail, pc, effect, pc', shared, hpc, hturn, happly, rfl⟩ |
    ⟨fail, shared, pc, hwrite, rfl⟩ | ⟨shared, pc, hmain, rfl⟩
  · cases effect with
    | push batch =>
      simp only [Effect.apply] at happly
      split at happly
      · rename_i hcan
        split at happly
        · obtain rfl := Option.some.inj happly
          exact ⟨h.cap, h.bounded, h.order⟩
        · rename_i hopen
          obtain rfl := Option.some.inj happly
          have hroom : w.shared.queue.q.length < w.shared.queue.cap :=
            hcan.resolve_right hopen
          have hpush : w.shared.queue.push batch =
              { w.shared.queue with q := w.shared.queue.q ++ [batch] } := if_neg hopen
          refine ⟨?_, ?_, ?_⟩
          · show (w.shared.queue.push batch).cap = _
            rw [hpush, h.cap]
          · show (w.shared.queue.push batch).q.length ≤ (w.shared.queue.push batch).cap
            rw [hpush, List.length_append]
            exact hroom
          · show w.shared.handed ++ (w.shared.queue.push batch).q = w.shared.pushed ++ [batch]
            rw [hpush, ← h.order, List.append_assoc]
      · cases happly
    | claimFile =>
      cases src with
      | mysql rows batchRows fields checks => cases happly
      | files paths =>
        obtain rfl := Option.some.inj happly
        exact ⟨h.cap, h.bounded, h.order⟩
    | _ =>
      obtain rfl := Option.some.inj happly
      exact ⟨h.cap, h.bounded, h.order⟩
  · have hturn := writerTurn hwrite
    generalize w.writer = old at hturn
    cases hturn with
    | popped batch rest hq =>
      have hbounded := h.bounded
      have horder := h.order
      rw [hq] at hbounded horder
      refine ⟨h.cap, Nat.le_of_succ_le hbounded, ?_⟩
      show w.shared.handed ++ [batch] ++ rest = w.shared.pushed
      rw [List.append_assoc]
      exact horder
    | _ => exact ⟨h.cap, h.bounded, h.order⟩
  · have hturn := mainTurn hmain
    generalize w.main = old at hturn
    cases hturn <;> exact ⟨h.cap, h.bounded, h.order⟩

/-! ## The ends of the threads -/

/-- Who has finished before whom: `main` joins the producers before EOS, and the writer
leaves a queue that is empty or aborted. -/
structure Phases (w : Pipeline Row) : Prop where
  joined : w.main ≠ .join → ∀ pc ∈ w.producers, pc = .done
  eos : w.shared.queue.eos = true →
    w.shared.queue.aborted = true ∨ w.main = .joinWriter ∨ w.main = .done
  told : w.main = .joinWriter ∨ w.main = .done → w.shared.queue.eos = true
  writerDone : w.writer = .done →
    w.shared.queue.aborted = true ∨ (w.shared.queue.eos = true ∧ w.shared.queue.q = [])
  mainDone : w.main = .done → w.writer = .done

theorem Phases.init {workers capacity : Nat} :
    Phases (.init workers capacity : Pipeline Row) where
  joined h := absurd rfl h
  eos h := nomatch h
  told h := by rcases h with h | h <;> cases h
  writerDone h := nomatch h
  mainDone h := nomatch h

theorem apply_eos (happly : effect.apply src i shared = some shared')
    (h : shared'.queue.eos = true) :
    shared.queue.eos = true ∨ shared'.queue.aborted = true := by
  unfold Effect.apply at happly
  cases effect <;> grind [BoundedParsedBatchQueue.push, BoundedParsedBatchQueue.abort]

theorem Phases.producer (h : Phases w) (hpc : w.producers[i]? = some pc)
    (hturn : produce src fail w.shared pc = some (effect, pc'))
    (happly : effect.apply src i w.shared = some shared) :
    Phases { w with shared, producers := w.producers.set i pc' } := by
  have hjoin : w.main = .join := by
    by_contra hmain
    obtain rfl := h.joined hmain pc (List.mem_of_getElem? hpc)
    cases fail <;> cases hturn
  have haborted : w.shared.queue.aborted = true → shared.queue.aborted = true := fun hyes =>
    (apply_flags happly).2.2.1.mpr (Or.inl hyes)
  have heos : w.shared.queue.eos = true → w.shared.queue.aborted = true := by
    intro hyes
    rcases h.eos hyes with hab | hm | hm
    · exact hab
    · rw [hjoin] at hm; cases hm
    · rw [hjoin] at hm; cases hm
  constructor
  · exact fun hmain => absurd hjoin hmain
  · intro hyes
    rcases apply_eos happly hyes with hold | hnow
    · exact Or.inl (haborted (heos hold))
    · exact Or.inl hnow
  · rintro (hm | hm)
    · have hm : w.main = .joinWriter := hm
      rw [hjoin] at hm; cases hm
    · have hm : w.main = .done := hm
      rw [hjoin] at hm; cases hm
  · intro hdone
    rcases h.writerDone hdone with hab | ⟨hyes, -⟩
    · exact Or.inl (haborted hab)
    · exact Or.inl (haborted (heos hyes))
  · intro hm
    have hm : w.main = .done := hm
    rw [hjoin] at hm; cases hm

theorem Phases.writer {wpc : WriterPc Row} (h : Phases w)
    (hturn : WriterTurn w.shared w.writer shared wpc) :
    Phases { w with shared, writer := wpc } := by
  generalize hw : w.writer = old at hturn
  have hnotDone : w.main = .done → old = .done := fun hm => hw.symm.trans (h.mainDone hm)
  cases hturn with
  | fault _ hpc =>
    refine ⟨h.joined, h.eos, h.told, fun he => (nomatch he), fun hm => ?_⟩
    rcases hpc with rfl | ⟨batch, rfl⟩ <;> cases hnotDone hm
  | go _ hpc =>
    refine ⟨h.joined, h.eos, h.told, fun he => (nomatch he), fun hm => ?_⟩
    rcases hpc with rfl | ⟨batch, rfl⟩ <;> cases hnotDone hm
  | ended hpop hq =>
    refine ⟨h.joined, h.eos, h.told, fun _ => ?_, fun _ => rfl⟩
    rcases hpop with hne | heos | hab
    · exact absurd hq hne
    · exact Or.inr ⟨heos, hq⟩
    · exact Or.inl hab
  | popped batch rest hq =>
    exact ⟨h.joined, h.eos, h.told, fun he => (nomatch he), fun hm => nomatch hnotDone hm⟩
  | set =>
    exact ⟨h.joined, h.eos, h.told, fun he => (nomatch he), fun hm => nomatch hnotDone hm⟩
  | abort => exact ⟨h.joined, fun _ => Or.inl rfl, fun _ => rfl, fun _ => Or.inl rfl, fun _ => rfl⟩

theorem Phases.main {mpc : MainPc} (h : Phases w) (hturn : MainTurn w w.main shared mpc) :
    Phases { w with shared, main := mpc } := by
  generalize hm : w.main = old at hturn
  cases hturn with
  | join hall =>
    refine ⟨fun _ => hall, fun hyes => ?_, fun he => ?_, h.writerDone, fun he => (nomatch he)⟩
    · rcases h.eos hyes with hab | he | he
      · exact Or.inl hab
      · rw [hm] at he; cases he
      · rw [hm] at he; cases he
    · rcases he with he | he <;> cases he
  | check =>
    have hjoined := h.joined (by rw [hm]; exact fun he => nomatch he)
    refine ⟨fun _ => hjoined, fun hyes => ?_, fun he => ?_, h.writerDone, fun he => ?_⟩
    · rcases h.eos hyes with hab | he | he
      · exact Or.inl hab
      · rw [hm] at he; cases he
      · rw [hm] at he; cases he
    · dsimp only at he
      split at he <;> rcases he with he | he <;> cases he
    · dsimp only at he
      split at he <;> cases he
  | eos =>
    have hjoined := h.joined (by rw [hm]; exact fun he => nomatch he)
    refine ⟨fun _ => hjoined, fun _ => Or.inr (Or.inl rfl), fun _ => rfl, fun hdone => ?_,
      fun he => (nomatch he)⟩
    rcases h.writerDone hdone with hab | ⟨-, hq⟩
    · exact Or.inl hab
    · exact Or.inr ⟨rfl, hq⟩
  | abort =>
    have hjoined := h.joined (by rw [hm]; exact fun he => nomatch he)
    exact ⟨fun _ => hjoined, fun _ => Or.inl rfl, fun _ => rfl, fun _ => Or.inl rfl,
      fun he => (nomatch he)⟩
  | joinWriter hwriter =>
    have hjoined := h.joined (by rw [hm]; exact fun he => nomatch he)
    exact ⟨fun _ => hjoined, fun _ => Or.inr (Or.inr rfl), fun _ => h.told (Or.inl hm),
      h.writerDone, fun _ => hwriter⟩

theorem Phases.step (h : Phases w) (hstep : w.step src m = some w') : Phases w' := by
  rcases step_cases hstep with ⟨i, fail, pc, effect, pc', shared, hpc, hturn, happly, rfl⟩ |
    ⟨fail, shared, pc, hwrite, rfl⟩ | ⟨shared, pc, hmain, rfl⟩
  · exact h.producer hpc hturn happly
  · exact h.writer (writerTurn hwrite)
  · exact h.main (mainTurn hmain)

/-! ## The whole import -/

/-- What holds in every state of every run. -/
structure Sound (src : Source Row) (capacity : Nat) (w : Pipeline Row) : Prop where
  flags : Flags w
  accounted : Accounted src w
  inOrder : InOrder capacity w
  phases : Phases w

theorem Sound.init (workers capacity : Nat) : Sound src capacity (.init workers capacity) :=
  ⟨.init workers capacity, .init src workers capacity, .init workers capacity, .init⟩

theorem Sound.step {capacity : Nat} (h : Sound src capacity w) (hstep : w.step src m = some w') :
    Sound src capacity w' :=
  ⟨h.flags.step hstep, h.accounted.step h.flags hstep, h.inOrder.step hstep, h.phases.step hstep⟩

theorem Sound.run {workers capacity : Nat} {moves : List Move}
    (h : Runs.exec (Pipeline.step src) (.init workers capacity) moves = some w) :
    Sound src capacity w :=
  Runs.exec_invariant (fun _ _ _ hv hstep => hv.step hstep) h (.init workers capacity)

/-- The action that lets something fail. -/
def Move.fails : Move → Bool
  | .producer _ fail => fail
  | .writer fail => fail
  | .main => false

/-- A failure is remembered. -/
theorem step_fault (hstep : w.step src m = some w')
    (h : w.shared.fault = true ∨ m.fails = true) : w'.shared.fault = true := by
  cases m with
  | producer i fail =>
    obtain ⟨pc, hpc, hstep⟩ := Option.bind_eq_some_iff.mp hstep
    obtain ⟨⟨effect, pc'⟩, hturn, hstep⟩ := Option.bind_eq_some_iff.mp hstep
    obtain ⟨shared, happly, rfl⟩ := Option.map_eq_some_iff.mp hstep
    refine (apply_flags happly).1.mpr (h.imp_right fun hfail => ?_)
    obtain rfl : fail = true := hfail
    obtain ⟨pc'', -, heq⟩ := Option.map_eq_some_iff.mp hturn
    exact (congrArg Prod.fst heq).symm
  | writer fail =>
    obtain ⟨⟨shared, pc⟩, hwrite, rfl⟩ := Option.map_eq_some_iff.mp hstep
    dsimp only at hwrite ⊢
    cases fail with
    | true =>
      generalize w.writer = old at hwrite
      cases old <;> cases hwrite <;> rfl
    | false =>
      have hold : w.shared.fault = true := h.resolve_right fun hno => nomatch hno
      have hturn := writerTurn hwrite
      generalize w.writer = old at hturn
      cases hturn <;> first | exact hold | rfl
  | main =>
    obtain ⟨⟨shared, pc⟩, hmain, rfl⟩ := Option.map_eq_some_iff.mp hstep
    have hold : w.shared.fault = true := h.resolve_right fun hno => nomatch hno
    have hturn := mainTurn hmain
    generalize w.main = old at hturn
    cases hturn <;> exact hold

theorem clean_before (hstep : w.step src m = some w')
    (h : w'.shared.fault = false) : w.shared.fault = false := by
  rw [← Bool.not_eq_true] at h ⊢
  exact fun hfault => h (step_fault hstep (Or.inl hfault))

theorem run_fault {moves : List Move} (hrun : Runs.exec (Pipeline.step src) w moves = some w')
    (h : w.shared.fault = true ∨ ∃ m ∈ moves, m.fails = true) : w'.shared.fault = true := by
  induction moves generalizing w with
  | nil =>
    obtain rfl := Option.some.inj hrun
    exact h.resolve_right fun ⟨_, hm, _⟩ => nomatch hm
  | cons m rest ih =>
    obtain ⟨v, hstep, hrest⟩ := Runs.exec_cons.mp hrun
    refine ih hrest ?_
    rcases h with hfault | ⟨m', hm', hfails⟩
    · exact Or.inl (step_fault hstep (Or.inl hfault))
    · rcases List.mem_cons.mp hm' with rfl | hm'
      · exact Or.inl (step_fault hstep (Or.inr hfails))
      · exact Or.inr ⟨m', hm', hfails⟩

/-- At the end every failure is in the error flag. -/
theorem Sound.failed_of_fault {capacity : Nat} (h : Sound src capacity w) (hdone : w.main = .done)
    (hfault : w.shared.fault = true) : w.shared.failed = true := by
  have hall := h.phases.joined (by rw [hdone]; exact fun he => nomatch he)
  rcases h.flags.caught hfault with hfailed | ⟨pc, hpc, pending, rfl⟩ | hw
  · exact hfailed
  · cases hall _ hpc
  · rw [h.phases.mainDone hdone] at hw
    cases hw

/-- At the end of an import without the error flag nothing has failed. -/
theorem Sound.clean {capacity : Nat} (h : Sound src capacity w) (hdone : w.main = .done)
    (hok : w.shared.failed = false) : w.shared.fault = false := by
  rw [← Bool.not_eq_true] at hok ⊢
  exact fun hfault => hok (h.failed_of_fault hdone hfault)

/-- Nothing is left to claim then. -/
theorem Sound.exhausted {capacity : Nat} (h : Sound src capacity w) (hdone : w.main = .done)
    (hok : w.shared.failed = false) : Exhausted src w.shared := by
  have hall := h.phases.joined (by rw [hdone]; exact fun he => nomatch he)
  obtain ⟨pc, hpc⟩ := List.exists_mem_of_ne_nil _ h.accounted.someone
  exact h.accounted.exhausted (h.clean hdone hok) pc hpc (hall pc hpc)

/-- At the end of an import that has not failed nothing is left in the queue. -/
theorem Sound.handed_pushed {capacity : Nat} (h : Sound src capacity w) (hdone : w.main = .done)
    (hok : w.shared.failed = false) : w.shared.handed = w.shared.pushed := by
  have horder := h.inOrder.order
  rcases h.phases.writerDone (h.phases.mainDone hdone) with hab | ⟨-, hq⟩
  · rw [h.flags.aborted hab] at hok
    cases hok
  · rwa [hq, List.append_nil] at horder

/-- At the end of an import that has not failed everything was handed over. -/
theorem Sound.complete {capacity : Nat} (h : Sound src capacity w) (hdone : w.main = .done)
    (hok : w.shared.failed = false) :
    w.shared.handed.Perm src.batches ∧
      w.shared.claims.map Prod.fst = List.range src.fileCount ∧ w.shared.dropped = [] := by
  have hall := h.phases.joined (by rw [hdone]; exact fun he => nomatch he)
  have hex := h.exhausted hdone hok
  have hleft : w.producers.flatMap (ProducerPc.left src) = [] :=
    List.flatMap_eq_nil_iff.mpr fun q hq => by
      obtain rfl := hall q hq
      rfl
  refine ⟨?_, ?_, ?_⟩
  · have haccount := h.accounted.account (h.clean hdone hok)
    rw [hleft, unclaimed_exhausted hex, List.append_nil, List.append_nil] at haccount
    rwa [h.handed_pushed hdone hok]
  · rw [h.accounted.claims]
    cases src with
    | files paths => exact congrArg List.range (Nat.min_eq_right hex)
    | mysql rows batchRows fields checks => exact congrArg List.range (Nat.min_zero _)
  · by_contra hne
    rw [h.flags.dropped hne] at hok
    cases hok

/-- In every run the queue stays within its capacity and batches are processed in the
order of their pushes; a run that ends without the error flag has handed every batch to
`ProcessBatch` once, and a run in which something fails ends with it. -/
theorem import_accounts (src : Source Row) (workers capacity : Nat) (moves : List Move)
    (w : Pipeline Row)
    (hrun : Runs.exec (Pipeline.step src) (.init workers capacity) moves = some w) :
    w.shared.queue.q.length ≤ max capacity 1 ∧
    w.shared.handed <+: w.shared.pushed ∧
    (w.main = .done → w.shared.failed = false →
      w.shared.handed.Perm src.batches ∧
        w.shared.claims.map Prod.fst = List.range src.fileCount ∧ w.shared.dropped = []) ∧
    (w.main = .done → (∃ m ∈ moves, m.fails = true) → w.shared.failed = true) := by
  have hsound : Sound src capacity w := .run hrun
  refine ⟨?_, ?_, hsound.complete, fun hdone hfails => ?_⟩
  · rw [← hsound.inOrder.cap]
    exact hsound.inOrder.bounded
  · exact ⟨w.shared.queue.q, hsound.inOrder.order⟩
  · exact hsound.failed_of_fault hdone (run_fault hrun (Or.inr hfails))

/-- Worker 0 imports the one file through a queue of one place, worker 1 finds none left. -/
def oneFileMoves : List Move :=
  List.replicate 13 (.producer 0 false) ++ List.replicate 3 (.producer 1 false) ++
    List.replicate 3 (.writer false) ++ List.replicate 3 .main ++ [.writer false, .main]

theorem oneFile_accounts : ∃ w : Pipeline Nat,
    Runs.exec (Pipeline.step (.files [[[7]]])) (.init 2 1) oneFileMoves = some w ∧
      w.main = .done ∧ w.shared.handed.Perm [[7]] ∧ w.shared.claims.map Prod.fst = [0] := by
  obtain ⟨w, hrun, hdone, hok⟩ : ∃ w : Pipeline Nat,
      Runs.exec (Pipeline.step (.files [[[7]]])) (.init 2 1) oneFileMoves = some w ∧
        w.main = .done ∧ w.shared.failed = false := ⟨_, rfl, rfl, rfl⟩
  obtain ⟨hhanded, hclaims, -⟩ := (import_accounts _ 2 1 oneFileMoves w hrun).2.2.1 hdone hok
  exact ⟨w, hrun, hdone, hhanded, hclaims⟩

end YikvServer.Import
