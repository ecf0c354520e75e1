import YikvServer.Import.WholeImport

/-!
# Who leads a query

Of the producers of a query one wins `consumed_`, and the others are done at once. So the batches
are pushed, and handed to `ProcessBatch`, in the order in which they are cut from the result.
-/
namespace YikvServer.Import

open YikvServer.Theory

section Spec
variable {Row : Type} (src : Source Row) (v : Pipeline Row)

/-- One producer leads: the batches that it has pushed and those that it has left are the batches
of the query in order, while nothing has failed. The others have not started, or are done. -/
structure Leads (i : Nat) (pc : ProducerPc Row) : Prop where
  here : v.producers[i]? = some pc
  started : pc ≠ .start
  alone : ∀ j other, v.producers[j]? = some other → j ≠ i → other = .start ∨ other = .done
  inOrder : v.shared.fault = false → v.shared.pushed ++ pc.left src = src.batches

/-- Before the query is consumed no producer has started. -/
structure Led : Prop where
  waiting : v.shared.consumed = false →
    v.shared.pushed = [] ∧ ∀ pc ∈ v.producers, pc = .start
  leader : v.shared.consumed = true → ∃ i pc, Leads src v i pc

end Spec

variable {Row : Type} {src : Source Row} {v v' : Pipeline Row} {m : Move} {i : Nat} {fail : Bool}
  {shared shared' : Shared Row} {pc pc' : ProducerPc Row} {effect : Effect Row}

/-! ## One turn -/

theorem produce_started (h : produce src fail shared pc = some (effect, pc')) : pc' ≠ .start := by
  cases fail with
  | true =>
    obtain ⟨pc'', hfails, heq⟩ := Option.map_eq_some_iff.mp h
    obtain ⟨-, rfl⟩ := Prod.mk.inj heq
    obtain ⟨⟨pending, rfl⟩, -⟩ := fails_set hfails
    exact fun he => nomatch he
  | false =>
    have hgoes : pc.goes src shared.failed shared.nextFile shared.consumed =
      some (effect, pc') := h
    unfold ProducerPc.goes at hgoes
    cases pc with
    | push batch after => cases after <;> grind [After.pc]
    | _ => grind [flushLast, rowDone]

theorem write_pushed {wpc wpc' : WriterPc Row}
    (h : write fail shared wpc = some (shared', wpc')) :
    shared'.pushed = shared.pushed ∧ shared'.consumed = shared.consumed := by
  cases writerTurn h <;> exact ⟨rfl, rfl⟩

theorem next_pushed {mpc mpc' : MainPc} (h : mpc.next v = some (shared, mpc')) :
    shared.pushed = v.shared.pushed ∧ shared.consumed = v.shared.consumed := by
  cases mainTurn h <;> exact ⟨rfl, rfl⟩

/-- A turn of a producer that has started moves its batches to what is pushed in their order. -/
theorem LeftTurn.inOrder (hturn : LeftTurn src shared pc effect pc')
    (hstarted : pc ≠ .start) (hsrc : src.isFiles = false) (haborted : shared.queue.aborted = false)
    (happly : effect.apply src i shared = some shared') :
    shared'.pushed ++ pc'.left src = shared.pushed ++ pc.left src := by
  cases hturn with
  | quiet pc pc' hleft hdone =>
    obtain rfl := Option.some.inj happly
    rw [hleft]
  | push batch after hdone =>
    simp only [Effect.apply, haborted, Bool.false_eq_true, if_false] at happly
    split at happly
    · obtain rfl := Option.some.inj happly
      show shared.pushed ++ [batch] ++ after.pc.left src =
        shared.pushed ++ (batch :: after.left src)
      rw [after_left, List.append_assoc]
      rfl
    · cases happly
  | claim paths hfiles =>
    subst hfiles
    cases hsrc
  | leader checks _ hfree => exact absurd rfl hstarted
  | follower _ htaken => exact absurd rfl hstarted

/-- The leader's own turn. -/
theorem Leads.turn (h : Leads src v i pc) (hflags : Flags v) (hfits : Accounted src v)
    (hsrc : src.isFiles = false)
    (hturn : produce src fail v.shared pc = some (effect, pc'))
    (happly : effect.apply src i v.shared = some shared) :
    Leads src { v with shared, producers := v.producers.set i pc' } i pc' := by
  have hmem : pc ∈ v.producers := List.mem_of_getElem? h.here
  have hlt : i < v.producers.length := (List.getElem?_eq_some_iff.mp h.here).1
  refine ⟨List.getElem?_set_self hlt, produce_started hturn, ?_, ?_⟩
  · intro j other hother hne
    rw [List.getElem?_set_ne (Ne.symm hne)] at hother
    exact h.alone j other hother hne
  · intro hno
    obtain ⟨hclean, hleft, haborted⟩ := cleanTurn hflags hmem (hfits.fits pc hmem) hturn happly hno
    show shared.pushed ++ pc'.left src = src.batches
    rw [hleft.inOrder h.started hsrc haborted happly, h.inOrder hclean]

/-! ## The run -/

theorem Led.init (workers capacity : Nat) : Led src (.init workers capacity) where
  waiting _ := ⟨rfl, fun _ hpc => List.eq_of_mem_replicate hpc⟩
  leader h := nomatch h

theorem Led.producer (h : Led src v) (hflags : Flags v) (hfits : Accounted src v)
    (hsrc : src.isFiles = false) (hpc : v.producers[i]? = some pc)
    (hturn : produce src fail v.shared pc = some (effect, pc'))
    (happly : effect.apply src i v.shared = some shared) :
    Led src { v with shared, producers := v.producers.set i pc' } := by
  have hlt : i < v.producers.length := (List.getElem?_eq_some_iff.mp hpc).1
  by_cases hstart : pc = .start
  · subst hstart
    cases src with
    | files paths => cases hsrc
    | mysql rows batchRows fields checks =>
      cases fail with
      | true => cases hturn
      | false =>
        obtain ⟨rfl, rfl⟩ := Prod.mk.inj (Option.some.inj hturn)
        obtain rfl := Option.some.inj happly
        refine ⟨fun hno => (nomatch hno), fun _ => ?_⟩
        cases hconsumed : v.shared.consumed with
        | false =>
          obtain ⟨hpushed, hall⟩ := h.waiting hconsumed
          refine ⟨i, .setup checks, List.getElem?_set_self hlt, fun he => (nomatch he), ?_, ?_⟩
          · intro j other hother hne
            rw [List.getElem?_set_ne (Ne.symm hne)] at hother
            exact Or.inl (hall other (List.mem_of_getElem? hother))
          · intro _
            show v.shared.pushed ++ _ = _
            rw [hpushed]
            rfl
        | true =>
          obtain ⟨k, leader, hleads⟩ := h.leader hconsumed
          have hne : i ≠ k := by
            rintro rfl
            exact hleads.started (Option.some.inj (hleads.here.symm.trans hpc))
          refine ⟨k, leader, ?_, hleads.started, ?_, hleads.inOrder⟩
          · rw [← hleads.here]
            exact List.getElem?_set_ne hne
          · intro j other hother hj
            rcases Runs.getElem?_set_cases hother with ⟨-, rfl⟩ | ⟨-, hold⟩
            · exact Or.inr rfl
            · exact hleads.alone j other hold hj
  · have hconsumed : v.shared.consumed = true := by
      by_contra hno
      have hall := (h.waiting (eq_false_of_ne_true hno)).2
      exact hstart (hall pc (List.mem_of_getElem? hpc))
    obtain ⟨k, leader, hleads⟩ := h.leader hconsumed
    have hk : i = k := by
      by_contra hne
      rcases hleads.alone i pc hpc hne with rfl | rfl
      · exact hstart rfl
      · cases fail <;> cases hturn
    subst hk
    obtain rfl := Option.some.inj (hleads.here.symm.trans hpc)
    refine ⟨fun hno => ?_, fun _ => ⟨i, pc', hleads.turn hflags hfits hsrc hturn happly⟩⟩
    have hyes := (consumed_apply happly).mpr (Or.inl hconsumed)
    exact absurd (hyes.symm.trans hno) (by decide)

/-- The writer and `main` leave the producers alone. -/
theorem Led.other (h : Led src v) (hproducers : v'.producers = v.producers)
    (hpushed : v'.shared.pushed = v.shared.pushed)
    (hconsumed : v'.shared.consumed = v.shared.consumed)
    (hfault : v'.shared.fault = false → v.shared.fault = false) : Led src v' := by
  constructor
  · rw [hproducers, hpushed, hconsumed]
    exact h.waiting
  · intro hyes
    obtain ⟨i, pc, hleads⟩ := h.leader (hconsumed ▸ hyes)
    refine ⟨i, pc, ?_, hleads.started, ?_, fun hno => ?_⟩
    · rw [hproducers]
      exact hleads.here
    · rw [hproducers]
      exact hleads.alone
    · rw [hpushed]
      exact hleads.inOrder (hfault hno)

theorem Led.step (h : Led src v) (hflags : Flags v) (hfits : Accounted src v)
    (hsrc : src.isFiles = false) (hstep : v.step src m = some v') : Led src v' := by
  have hclean := clean_before hstep
  rcases step_cases hstep with ⟨i, fail, pc, effect, pc', shared, hpc, hturn, happly, rfl⟩ |
    ⟨fail, shared, pc, hwrite, rfl⟩ | ⟨shared, pc, hmain, rfl⟩
  · exact h.producer hflags hfits hsrc hpc hturn happly
  · obtain ⟨hpushed, hconsumed⟩ := write_pushed hwrite
    exact h.other rfl hpushed hconsumed hclean
  · obtain ⟨hpushed, hconsumed⟩ := next_pushed hmain
    exact h.other rfl hpushed hconsumed hclean

theorem consumed_of_exhausted (hsrc : src.isFiles = false)
    (h : Exhausted src shared) : shared.consumed = true := by
  cases src with
  | files paths => cases hsrc
  | mysql rows batchRows fields checks => exact h

/-- At the end of an import that has not failed the batches were handed over in order. -/
theorem handed_inOrder {workers capacity : Nat} {moves : List Move} (hsrc : src.isFiles = false)
    (hrun : Runs.exec (Pipeline.step src) (.init workers capacity) moves = some v)
    (hdone : v.main = .done) (hok : v.shared.failed = false) :
    v.shared.handed = src.batches := by
  have hled : Sound src capacity v ∧ Led src v := by
    refine Runs.exec_invariant (P := fun v => Sound src capacity v ∧ Led src v)
      (fun v m v' hv hs => ?_) hrun ⟨.init workers capacity, .init workers capacity⟩
    exact ⟨hv.1.step hs, hv.2.step hv.1.flags hv.1.accounted hsrc hs⟩
  obtain ⟨hsound, hled⟩ := hled
  have hclean := hsound.clean hdone hok
  have hconsumed := consumed_of_exhausted hsrc (hsound.exhausted hdone hok)
  obtain ⟨i, pc, hleads⟩ := hled.leader hconsumed
  obtain rfl := hsound.phases.joined (by rw [hdone]; exact fun he => nomatch he) pc
    (List.mem_of_getElem? hleads.here)
  rw [hsound.handed_pushed hdone hok, ← hleads.inOrder hclean]
  exact (List.append_nil _).symm

end YikvServer.Import
