import YikvServer.Import.Flags
import Mathlib.Data.List.Perm.Basic

/-!
# Every batch once

What is pushed, what each producer still has to push and what nobody has claimed make up
the input, as long as nothing has failed.
-/
namespace YikvServer.Import

open YikvServer.Theory

section Spec
variable {Row : Type} (src : Source Row)

/-- The batches that `FlushBatch` cuts from the rows to come, after those in the batch. -/
def cut (size : Nat) : (rest inBatch : List Row) → List (Batch Row)
  | [], inBatch => if inBatch = [] then [] else [inBatch]
  | row :: rest, inBatch =>
    if (inBatch ++ [row]).length ≥ size then (inBatch ++ [row]) :: cut size rest []
    else cut size rest (inBatch ++ [row])

/-- The batches of the source. -/
def Source.batches : Source Row → List (Batch Row)
  | .files paths => paths.flatten
  | .mysql rows batchRows _ _ => cut (batchSz batchRows) rows []

def Source.fileCount : Source Row → Nat
  | .files paths => paths.length
  | .mysql _ _ _ _ => 0

def Source.isFiles : Source Row → Bool
  | .files _ => true
  | .mysql _ _ _ _ => false

/-- The batches still to be cut. -/
def Source.cutRows : Source Row → (rest inBatch : List Row) → List (Batch Row)
  | .files _ => fun _ _ => []
  | .mysql _ batchRows _ _ => cut (batchSz batchRows)

/-- What a producer that has not failed still has to push. -/
def After.left : After Row → List (Batch Row)
  | .reading rest => rest
  | .flushed rest => src.cutRows rest []
  | .last => []

def ProducerPc.left : ProducerPc Row → List (Batch Row)
  | .openFile file => file
  | .reading rest => rest
  | .next rest => rest
  | .valid batch rest => batch :: rest
  | .setup _ => src.batches
  | .fetching rest inBatch => src.cutRows rest inBatch
  | .fetch rest inBatch => src.cutRows rest inBatch
  | .append _ row rest inBatch => src.cutRows (row :: rest) inBatch
  | .flush batch after => batch :: after.left src
  | .push batch after => batch :: after.left src
  | .flushed rest => src.cutRows rest []
  | _ => []

/-- What no producer has claimed. -/
def unclaimed (shared : Shared Row) : List (Batch Row) :=
  match src with
  | .files paths => (paths.drop shared.nextFile).flatten
  | .mysql _ _ _ _ => if shared.consumed then [] else src.batches

/-- There is nothing left to claim. -/
def Exhausted (shared : Shared Row) : Prop :=
  match src with
  | .files paths => paths.length ≤ shared.nextFile
  | .mysql _ _ _ _ => shared.consumed = true

/-- Where a producer of this source can be. -/
def After.Fits (consumed : Bool) : After Row → Prop
  | .reading _ => src.isFiles = true
  | .flushed _ => src.isFiles = false ∧ consumed = true
  | .last => src.isFiles = false ∧ consumed = true

def ProducerPc.Fits (consumed : Bool) : ProducerPc Row → Prop
  | .start => True
  | .done => True
  | .loop => src.isFiles = true
  | .claim => src.isFiles = true
  | .openFile _ => src.isFiles = true
  | .reading _ => src.isFiles = true
  | .next _ => src.isFiles = true
  | .valid _ _ => src.isFiles = true
  | .closed => src.isFiles = true
  | .flush _ after => after.Fits src consumed
  | .push _ after => after.Fits src consumed
  | .set pending => pending = [] ∨ (src.isFiles = false ∧ consumed = true)
  | .abort pending => pending = [] ∨ (src.isFiles = false ∧ consumed = true)
  | _ => src.isFiles = false ∧ consumed = true

end Spec

variable {Row : Type} {src : Source Row} {w w' : Pipeline Row} {m : Move} {fail : Bool}
  {shared shared' : Shared Row} {pc pc' : ProducerPc Row} {effect : Effect Row} {i : Nat}
  {rest inBatch : List Row}

/-! ## Cutting a result set -/

theorem cut_flatten (size : Nat) (rest inBatch : List Row) :
    (cut size rest inBatch).flatten = inBatch ++ rest := by
  induction rest generalizing inBatch with
  | nil =>
    unfold cut
    split
    · rename_i h
      simp [h]
    · simp
  | cons row rest ih =>
    unfold cut
    split
    · simp [ih]
    · simp [ih]

theorem left_flushLast (hfits : src.isFiles = false) (inBatch : List Row) :
    (flushLast inBatch).left src = src.cutRows [] inBatch := by
  cases src with
  | files paths => cases hfits
  | mysql rows batchRows fields checks =>
    show _ = cut (batchSz batchRows) [] inBatch
    unfold flushLast cut
    split <;> rfl

/-! ## One turn -/

theorem fits_mono {consumed consumed' : Bool} (h : pc.Fits src consumed)
    (hmono : consumed = true → consumed' = true) : pc.Fits src consumed' := by
  cases pc with
  | flush batch after => cases after <;> grind [ProducerPc.Fits, After.Fits]
  | push batch after => cases after <;> grind [ProducerPc.Fits, After.Fits]
  | _ => grind [ProducerPc.Fits]

theorem consumed_apply (happly : effect.apply src i shared = some shared') :
    shared'.consumed = true ↔ shared.consumed = true ∨ effect = .consume := by
  unfold Effect.apply at happly
  cases effect <;> grind

theorem fits_fails (hfits : pc.Fits src shared.consumed) (h : pc.fails src = some pc') :
    pc'.Fits src shared.consumed := by
  unfold ProducerPc.fails at h
  cases pc <;> grind [ProducerPc.Fits]

theorem fits_goes (hfits : pc.Fits src shared.consumed)
    (h : pc.goes src shared.failed shared.nextFile shared.consumed = some (effect, pc'))
    (happly : effect.apply src i shared = some shared') : pc'.Fits src shared'.consumed := by
  have hcons := consumed_apply happly
  unfold ProducerPc.goes at h
  cases pc with
  | push batch after => cases after <;> grind [ProducerPc.Fits, After.Fits, After.pc]
  | flush batch after => cases after <;> grind [ProducerPc.Fits, After.Fits]
  | _ =>
    cases src <;> grind [ProducerPc.Fits, After.Fits, flushLast, rowDone, Source.isFiles]

/-- What a turn does to the batches that the producer has left. -/
inductive LeftTurn (src : Source Row) (shared : Shared Row) :
    ProducerPc Row → Effect Row → ProducerPc Row → Prop
  | quiet (pc pc' : ProducerPc Row) (hleft : pc'.left src = pc.left src)
      (hdone : pc' = .done → Exhausted src shared) : LeftTurn src shared pc .quiet pc'
  | push (batch : Batch Row) (after : After Row) (hdone : after = .last → Exhausted src shared) :
      LeftTurn src shared (.push batch after) (.push batch) after.pc
  | claim (paths : List (List (Batch Row))) (hsrc : src = .files paths) :
      LeftTurn src shared .claim .claimFile
        (((paths[shared.nextFile]?).map .openFile).getD .done)
  | leader (checks : Nat) (hsrc : src.isFiles = false) (hfree : shared.consumed = false) :
      LeftTurn src shared .start .consume (.setup checks)
  | follower (hsrc : src.isFiles = false) (htaken : shared.consumed = true) :
      LeftTurn src shared .start .consume .done

theorem exhausted_of_consumed (hsrc : src.isFiles = false) (h : shared.consumed = true) :
    Exhausted src shared := by
  cases src with
  | files paths => cases hsrc
  | mysql rows batchRows fields checks => exact h

theorem leftTurn (hfits : pc.Fits src shared.consumed)
    (h : pc.goes src false shared.nextFile shared.consumed = some (effect, pc'))
    (hset : ¬ pc.Setting) (habort : ¬ pc.Aborting) : LeftTurn src shared pc effect pc' := by
  cases pc with
  | start =>
    cases src with
    | files paths =>
      obtain ⟨rfl, rfl⟩ := Prod.mk.inj (Option.some.inj h)
      exact .quiet _ _ rfl fun he => nomatch he
    | mysql rows batchRows fields checks =>
      obtain ⟨rfl, rfl⟩ := Prod.mk.inj (Option.some.inj h)
      cases hc : shared.consumed with
      | true => exact .follower rfl hc
      | false => exact .leader checks rfl hc
  | claim =>
    cases src with
    | files paths =>
      obtain ⟨rfl, rfl⟩ := Prod.mk.inj (Option.some.inj h)
      exact .claim paths rfl
    | mysql rows batchRows fields checks => cases h
  | next rest =>
    cases rest with
    | nil =>
      obtain ⟨rfl, rfl⟩ := Prod.mk.inj (Option.some.inj h)
      exact .quiet _ _ rfl fun he => nomatch he
    | cons batch rest =>
      obtain ⟨rfl, rfl⟩ := Prod.mk.inj (Option.some.inj h)
      exact .quiet _ _ rfl fun he => nomatch he
  | setup checks =>
    cases src with
    | files paths => cases hfits.1
    | mysql rows batchRows fields n =>
      cases checks with
      | zero =>
        obtain ⟨rfl, rfl⟩ := Prod.mk.inj (Option.some.inj h)
        exact .quiet _ _ rfl fun he => nomatch he
      | succ checks =>
        obtain ⟨rfl, rfl⟩ := Prod.mk.inj (Option.some.inj h)
        exact .quiet _ _ rfl fun he => nomatch he
  | fetch rest inBatch =>
    cases rest with
    | nil =>
      obtain ⟨rfl, rfl⟩ := Prod.mk.inj (Option.some.inj h)
      exact .quiet _ _ (left_flushLast hfits.1 inBatch) fun _ =>
        exhausted_of_consumed hfits.1 hfits.2
    | cons row rest =>
      cases src with
      | files paths => cases hfits.1
      | mysql rows batchRows fields checks =>
        obtain ⟨rfl, rfl⟩ := Prod.mk.inj (Option.some.inj h)
        exact .quiet _ _ rfl fun he => nomatch he
  | append fields row rest inBatch =>
    cases fields with
    | succ fields =>
      obtain ⟨rfl, rfl⟩ := Prod.mk.inj (Option.some.inj h)
      exact .quiet _ _ rfl fun he => nomatch he
    | zero =>
      cases src with
      | files paths => cases hfits.1
      | mysql rows batchRows n checks =>
        obtain ⟨rfl, rfl⟩ := Prod.mk.inj (Option.some.inj h)
        refine .quiet _ _ ?_ fun _ => exhausted_of_consumed hfits.1 hfits.2
        show _ = cut (batchSz batchRows) (row :: rest) inBatch
        unfold rowDone cut
        split <;> rfl
  | push batch after =>
    obtain ⟨rfl, rfl⟩ := Prod.mk.inj (Option.some.inj h)
    refine .push batch after ?_
    rintro rfl
    exact exhausted_of_consumed hfits.1 hfits.2
  | set pending => exact absurd ⟨pending, rfl⟩ hset
  | abort pending => exact absurd ⟨pending, rfl⟩ habort
  | done => cases h
  | _ =>
    -- One load of the error flag, which is not set.
    obtain ⟨rfl, rfl⟩ := Prod.mk.inj (Option.some.inj h)
    exact .quiet _ _ rfl fun he => nomatch he

theorem after_left (after : After Row) : after.pc.left src = after.left src := by
  cases after <;> rfl

/-- A turn moves batches from what is unclaimed to the producer, and from the producer to
what is pushed. -/
theorem LeftTurn.perm (hturn : LeftTurn src shared pc effect pc')
    (haborted : shared.queue.aborted = false)
    (happly : effect.apply src i shared = some shared') :
    (shared.pushed ++ (pc.left src ++ unclaimed src shared)).Perm
      (shared'.pushed ++ (pc'.left src ++ unclaimed src shared')) := by
  cases hturn with
  | quiet pc pc' hleft hdone =>
    obtain rfl := Option.some.inj happly
    rw [hleft]
  | push batch after hdone =>
    simp only [Effect.apply, haborted, Bool.false_eq_true, if_false] at happly
    split at happly
    · obtain rfl := Option.some.inj happly
      show (shared.pushed ++ (batch :: after.left src ++ unclaimed src shared)).Perm
        (shared.pushed ++ [batch] ++ (after.pc.left src ++ unclaimed src shared))
      rw [after_left, List.append_assoc]
      rfl
    · cases happly
  | claim paths hsrc =>
    subst hsrc
    obtain rfl := Option.some.inj happly
    refine List.Perm.append_left _ ?_
    show (paths.drop shared.nextFile).flatten.Perm
      (ProducerPc.left _ _ ++ (paths.drop (shared.nextFile + 1)).flatten)
    cases hfile : paths[shared.nextFile]? with
    | none =>
      have hlen := List.getElem?_eq_none_iff.mp hfile
      rw [List.drop_eq_nil_of_le hlen, List.drop_eq_nil_of_le (by omega)]
      rfl
    | some file =>
      obtain ⟨hlt, rfl⟩ := List.getElem?_eq_some_iff.mp hfile
      rw [List.drop_eq_getElem_cons hlt, List.flatten_cons]
      rfl
  | leader checks hsrc hfree =>
    obtain rfl := Option.some.inj happly
    cases src with
    | files paths => cases hsrc
    | mysql rows batchRows fields n =>
      simp only [unclaimed, hfree, ProducerPc.left]
      simp
  | follower hsrc htaken =>
    obtain rfl := Option.some.inj happly
    cases src with
    | files paths => cases hsrc
    | mysql rows batchRows fields n =>
      simp only [unclaimed, htaken, ProducerPc.left]
      rfl

/-- A producer that is done has found nothing left to claim. -/
theorem LeftTurn.exhausted (hturn : LeftTurn src shared pc effect pc')
    (happly : effect.apply src i shared = some shared') (hdone : pc' = .done) :
    Exhausted src shared' := by
  cases hturn with
  | quiet pc pc' hleft hex =>
    obtain rfl := Option.some.inj happly
    exact hex hdone
  | push batch after hex =>
    have hlast : after = .last := by cases after <;> first | rfl | cases hdone
    have hold := hex hlast
    cases src with
    | files paths =>
      simp only [Effect.apply] at happly
      split at happly
      · split at happly
        all_goals
          obtain rfl := Option.some.inj happly
          exact hold
      · cases happly
    | mysql rows batchRows fields checks =>
      exact (consumed_apply happly).mpr (Or.inl hold)
  | claim paths hsrc =>
    subst hsrc
    obtain rfl := Option.some.inj happly
    show paths.length ≤ shared.nextFile + 1
    cases hfile : paths[shared.nextFile]? with
    | none =>
      have hlen := List.getElem?_eq_none_iff.mp hfile
      omega
    | some file => rw [hfile] at hdone; cases hdone
  | leader checks hsrc hfree => cases hdone
  | follower hsrc htaken =>
    exact exhausted_of_consumed hsrc ((consumed_apply happly).mpr (Or.inr rfl))

/-- What nobody has claimed is nothing once the source is exhausted. -/
theorem unclaimed_exhausted (h : Exhausted src shared) : unclaimed src shared = [] := by
  cases src with
  | files paths =>
    show (paths.drop shared.nextFile).flatten = []
    rw [List.drop_eq_nil_of_le h]
    rfl
  | mysql rows batchRows fields checks => exact if_pos h

theorem exhausted_mono (h : Exhausted src shared)
    (happly : effect.apply src i shared = some shared') : Exhausted src shared' := by
  cases src with
  | files paths =>
    have hmono : shared.nextFile ≤ shared'.nextFile := by
      unfold Effect.apply at happly
      cases effect <;> grind
    exact Nat.le_trans h hmono
  | mysql rows batchRows fields checks => exact (consumed_apply happly).mpr (Or.inl h)

/-! ## The run -/

/-- The entry that moves, taken out of the list. -/
theorem flatMap_at {α β : Type} (f : α → List β) {l : List α} {a : α} (h : l[i]? = some a) :
    (l.flatMap f).Perm (f a ++ (l.eraseIdx i).flatMap f) := by
  obtain ⟨hlt, rfl⟩ := List.getElem?_eq_some_iff.mp h
  exact (List.getElem_cons_eraseIdx_perm hlt).symm.flatMap_right f

theorem flatMap_set {α β : Type} (f : α → List β) {l : List α} {a b : α} (h : l[i]? = some a) :
    ((l.set i b).flatMap f).Perm (f b ++ (l.eraseIdx i).flatMap f) := by
  obtain ⟨hlt, rfl⟩ := List.getElem?_eq_some_iff.mp h
  have hb : (l.set i b)[i]? = some b := List.getElem?_set_self hlt
  have hperm := flatMap_at f hb
  rwa [List.eraseIdx_set_eq] at hperm

theorem perm_aside {α : Type} (p l r u : List α) :
    (p ++ ((l ++ r) ++ u)).Perm ((p ++ (l ++ u)) ++ r) := by
  simp only [List.append_assoc]
  exact (List.perm_append_comm.append_left l).append_left p

/-- The input is what is pushed, what the producers have left and what nobody has claimed. -/
structure Accounted (src : Source Row) (w : Pipeline Row) : Prop where
  someone : w.producers ≠ []
  fits : ∀ pc ∈ w.producers, pc.Fits src w.shared.consumed
  account : w.shared.fault = false →
    (w.shared.pushed ++ (w.producers.flatMap (ProducerPc.left src) ++ unclaimed src w.shared)).Perm
      src.batches
  exhausted : w.shared.fault = false → ∀ pc ∈ w.producers, pc = .done → Exhausted src w.shared
  claims : w.shared.claims.map Prod.fst = List.range (min w.shared.nextFile src.fileCount)

theorem Accounted.init (src : Source Row) (workers capacity : Nat) :
    Accounted src (.init workers capacity) where
  someone h := by
    have hlen := congrArg List.length h
    simp only [Pipeline.init, List.length_replicate, List.length_nil] at hlen
    split at hlen <;> omega
  fits pc hpc := by
    obtain rfl := List.eq_of_mem_replicate hpc
    trivial
  account _ := by
    have hleft : ((Pipeline.init workers capacity).producers.flatMap (ProducerPc.left src)) = [] :=
      List.flatMap_eq_nil_iff.mpr fun pc hpc => by
        obtain rfl := List.eq_of_mem_replicate hpc
        rfl
    rw [hleft]
    cases src <;> exact List.Perm.refl _
  exhausted _ pc hpc hdone := by
    obtain rfl := List.eq_of_mem_replicate hpc
    cases hdone
  claims := by
    show [] = List.range (min 0 src.fileCount)
    rw [Nat.zero_min]
    rfl

/-- Files are claimed one after another, each once. -/
theorem apply_claims (happly : effect.apply src i shared = some shared')
    (h : shared.claims.map Prod.fst = List.range (min shared.nextFile src.fileCount)) :
    shared'.claims.map Prod.fst = List.range (min shared'.nextFile src.fileCount) := by
  cases effect with
  | claimFile =>
    cases src with
    | mysql rows batchRows fields checks => cases happly
    | files paths =>
      obtain rfl := Option.some.inj happly
      dsimp only [Source.fileCount] at h ⊢
      split
      · rename_i hlt
        rw [List.map_append, h, Nat.min_eq_left (Nat.le_of_lt hlt), Nat.min_eq_left hlt,
          List.range_succ]
        rfl
      · rename_i hge
        rw [h, Nat.min_eq_right (by omega), Nat.min_eq_right (by omega)]
  | push batch =>
    simp only [Effect.apply] at happly
    split at happly
    · split at happly
      all_goals
        obtain rfl := Option.some.inj happly
        exact h
    · cases happly
  | _ =>
    obtain rfl := Option.some.inj happly
    exact h

/-- As long as nothing has failed, a producer takes a turn of the accounting. -/
theorem cleanTurn (hflags : Flags w) (hmem : pc ∈ w.producers)
    (hfits : pc.Fits src w.shared.consumed)
    (hturn : produce src fail w.shared pc = some (effect, pc'))
    (happly : effect.apply src i w.shared = some shared) (hno : shared.fault = false) :
    w.shared.fault = false ∧ LeftTurn src w.shared pc effect pc' ∧
      w.shared.queue.aborted = false := by
  obtain ⟨hfault, -, -, -⟩ := apply_flags happly
  have hfault' : w.shared.fault = false := by
    rw [← Bool.not_eq_true] at hno ⊢
    exact fun hyes => hno (hfault.mpr (Or.inl hyes))
  have hfailed : w.shared.failed = false := by
    rw [← Bool.not_eq_true] at hfault' ⊢
    exact fun hyes => hfault' (hflags.failed hyes)
  refine ⟨hfault', ?_, ?_⟩
  · cases fail with
    | true =>
      obtain ⟨pc'', -, heq⟩ := Option.map_eq_some_iff.mp hturn
      obtain ⟨rfl, -⟩ := Prod.mk.inj heq
      rw [hfault.mpr (Or.inr rfl)] at hno
      cases hno
    | false =>
      have hgoes : pc.goes src w.shared.failed w.shared.nextFile w.shared.consumed =
        some (effect, pc') := hturn
      rw [hfailed] at hgoes
      refine leftTurn hfits hgoes (fun hset => ?_) fun habort => ?_
      · rw [hflags.setting pc hmem hset] at hfault'
        cases hfault'
      · rw [hflags.aborting pc hmem habort] at hfailed
        cases hfailed
  · rw [← Bool.not_eq_true] at hfailed ⊢
    exact fun hyes => hfailed (hflags.aborted hyes)

theorem Accounted.producer (h : Accounted src w) (hflags : Flags w)
    (hpc : w.producers[i]? = some pc)
    (hturn : produce src fail w.shared pc = some (effect, pc'))
    (happly : effect.apply src i w.shared = some shared) :
    Accounted src { w with shared, producers := w.producers.set i pc' } := by
  have hmem : pc ∈ w.producers := List.mem_of_getElem? hpc
  have hmono : w.shared.consumed = true → shared.consumed = true := fun hc =>
    (consumed_apply happly).mpr (Or.inl hc)
  have hclean := cleanTurn hflags hmem (h.fits pc hmem) hturn happly
  constructor
  · exact fun hnil => h.someone ((List.set_eq_nil_iff ..).mp hnil)
  · intro q hq
    rcases mem_set_cases hq with rfl | hq
    · cases fail with
      | true =>
        obtain ⟨pc'', hfails, heq⟩ := Option.map_eq_some_iff.mp hturn
        obtain ⟨rfl, rfl⟩ := Prod.mk.inj heq
        exact fits_mono (fits_fails (h.fits pc hmem) hfails) hmono
      | false => exact fits_goes (h.fits pc hmem) hturn happly
    · exact fits_mono (h.fits q hq) hmono
  · intro hno
    obtain ⟨hfault', hleft, haborted⟩ := hclean hno
    have hperm := hleft.perm haborted happly
    have hold := flatMap_at (ProducerPc.left src) hpc
    have hnew := flatMap_set (ProducerPc.left src) (b := pc') hpc
    refine List.Perm.trans ?_ (h.account hfault')
    refine ((hnew.append_right _).append_left _).trans ?_
    refine (perm_aside _ _ _ _).trans ((hperm.symm.append_right _).trans ?_)
    exact (perm_aside _ _ _ _).symm.trans ((hold.symm.append_right _).append_left _)
  · intro hno q hq hdone
    obtain ⟨hfault', hleft, -⟩ := hclean hno
    rcases mem_set_cases hq with rfl | hq
    · exact hleft.exhausted happly hdone
    · exact exhausted_mono (h.exhausted hfault' q hq hdone) happly
  · exact apply_claims happly h.claims

theorem Accounted.step (h : Accounted src w) (hflags : Flags w)
    (hstep : w.step src m = some w') : Accounted src w' := by
  rcases step_cases hstep with ⟨i, fail, pc, effect, pc', shared, hpc, hturn, happly, rfl⟩ |
    ⟨fail, shared, pc, hwrite, rfl⟩ | ⟨shared, pc, hmain, rfl⟩
  · exact h.producer hflags hpc hturn happly
  · have hturn := writerTurn hwrite
    generalize w.writer = old at hturn
    cases hturn with
    | fault _ _ =>
      exact ⟨h.someone, h.fits, fun hno => (nomatch hno), fun hno => (nomatch hno), h.claims⟩
    | _ => exact ⟨h.someone, h.fits, h.account, h.exhausted, h.claims⟩
  · have hturn := mainTurn hmain
    generalize w.main = old at hturn
    cases hturn <;> exact ⟨h.someone, h.fits, h.account, h.exhausted, h.claims⟩

end YikvServer.Import
