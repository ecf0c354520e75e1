import YikvServer.Artifact.RoundTrip

/-!
# What a push has in hand

A build that a push has begun to remove, or a copy of its source that nobody has disturbed,
and how that lasts over its own turns and those of others.
-/
namespace YikvServer.Artifact

open YikvServer.Theory.FileTree

variable {β : Type} {P : Provider β} {src src' : Option (DirTree β)} {store store' : Store β}
  {effect : Effect β} {pc pc' : PushPc P.up.St} {b : String}

theorem Provider.fresh_local (h : P.isLocal = true) : P.fresh = some ∅ := by
  cases P with
  | localDir => rfl
  | s3Compatible rclone => cases h

theorem Provider.fresh_remote (h : P.isLocal = false) : P.fresh = none := by
  cases P with
  | localDir => cases h
  | s3Compatible rclone => rfl

theorem PushPc.changes_iff {St : Type} {pc : PushPc St} :
    pc.changes b = true ↔ pc = .remove b ∨ ∃ st, pc = .copy b st := by
  cases pc <;> simp [PushPc.changes]

theorem PushPc.Idle.changes_eq {St : Type} {pc : PushPc St} (h : pc.Idle) :
    pc.changes b = false := by
  cases pc with
  | remove b => exact h.elim
  | copy b st => exact h.elim
  | _ => rfl

/-- A push copies its source. -/
def PushPc.copies {St : Type} : PushPc St → Bool
  | .make _ _ => true
  | .copy _ _ => true
  | _ => false

def PushHold (P : Provider β) (src : Option (DirTree β)) (store : Store β) :
    PushPc P.up.St → Prop
  | .remove b => b ∈ store
  | .make _ st => P.isLocal = true ∧ ∃ order, P.up.start src order = some st
  | .copy b st => P.up.Copying src P.fresh (store.lookup b) st ∧ (P.isLocal = true → b ∈ store)
  | _ => True

/-- A build in hand is in the store. -/
theorem PushHold.mem_store (h : PushHold P src store pc) (hlocal : P.isLocal = true)
    (hb : pc.changes b = true) : b ∈ store := by
  rcases PushPc.changes_iff.mp hb with rfl | ⟨st, rfl⟩
  · exact h
  · exact h.2 hlocal

/-- Neither what a push has in hand nor what it reads is changed. -/
theorem PushHold.frame (h : PushHold P src store pc) (hsrc : pc.copies = true → src' = src)
    (hstore : ∀ b, pc.changes b = true → store'.lookup b = store.lookup b) :
    PushHold P src' store' pc := by
  have hmem : ∀ b, pc.changes b = true → b ∈ store → b ∈ store' := fun b hb hin => by
    rw [← AList.lookup_isSome, hstore b hb]
    exact AList.lookup_isSome.mpr hin
  cases pc with
  | remove b => exact hmem b (decide_eq_true rfl) h
  | make b st =>
    rw [hsrc rfl]
    exact h
  | copy b st =>
    have hb : PushPc.changes (.copy b st) b = true := decide_eq_true rfl
    obtain ⟨hcopy, hlocal⟩ := h
    refine ⟨?_, fun hl => hmem b hb (hlocal hl)⟩
    rw [hsrc rfl, hstore b hb]
    exact hcopy
  | _ => trivial

/-- A turn of the push itself. -/
theorem PushHold.turn (h : PushHold P src store pc) (hturn : PushTurn P src store pc effect pc')
    (hnew : ∀ b, pc = .scan b → P.isLocal = true ∨ b ∉ store) :
    PushHold P src (effect.onStore store) pc' := by
  have hwritten : ∀ (b : String) (t : DirTree β), b ∈ (Effect.write b (some t)).onStore store :=
    fun b t => by
      rw [← AList.lookup_isSome, lookup_write]
      rfl
  cases hturn with
  | idle pc pc' hidle =>
    cases pc' with
    | remove b => exact hidle.elim
    | make b st => exact hidle.elim
    | copy b st => exact hidle.elim
    | _ => trivial
  | replace b hmem => exact hmem
  | remove b t =>
    cases t with
    | none => trivial
    | some t => exact hwritten b t
  | scanLocal b order st hlocal hst => exact ⟨hlocal, order, hst⟩
  | scanRemote b order st hremote hst =>
    have hlocal : P.isLocal ≠ true := by
      rw [hremote]
      exact Bool.false_ne_true
    refine ⟨?_, fun hl => absurd hl hlocal⟩
    show P.up.Copying src P.fresh (store.lookup b) st
    rw [AList.lookup_eq_none.mpr ((hnew b rfl).resolve_left hlocal), Provider.fresh_remote hremote]
    exact .refl hst
  | make b st hmem =>
    obtain ⟨hlocal, order, hst⟩ := h
    refine ⟨?_, fun _ => hwritten b ∅⟩
    rw [lookup_write, Provider.fresh_local hlocal]
    exact .refl hst
  | copy b st choice t st' hstep =>
    obtain ⟨hcopy, hlocal⟩ := h
    refine ⟨?_, fun hl => ?_⟩
    · rw [lookup_write]
      exact hcopy.step hstep
    · obtain ⟨u, hu⟩ := Option.isSome_iff_exists.mp (AList.lookup_isSome.mpr (hlocal hl))
      rw [hu] at hstep
      obtain ⟨v, rfl⟩ := P.up.keeps hstep
      exact hwritten b v
  | copied b st hend => trivial

/-- A push writes, or goes on to have in hand, a build that it had in hand, one that it
replaces, one that it uploads to an object store, or one that was not there. -/
theorem PushTurn.takes (h : PushTurn P src store pc effect pc')
    (hb : effect.writes b ∨ pc'.changes b = true) :
    pc.changes b = true ∨ (pc = .check b ∧ b ∈ store) ∨ (pc = .scan b ∧ P.isLocal = false) ∨
      ∃ st, pc = .make b st ∧ b ∉ store := by
  have hself : decide (b = b) = true := decide_eq_true rfl
  cases h with
  | idle pc pc' hidle =>
    rw [hidle.changes_eq] at hb
    exact hb.elim False.elim fun hb => absurd hb Bool.false_ne_true
  | replace r hmem =>
    obtain rfl := of_decide_eq_true (hb.resolve_left id)
    exact Or.inr (Or.inl ⟨rfl, hmem⟩)
  | remove r t =>
    rcases hb with rfl | hb
    · exact Or.inl hself
    · cases t with
      | none => cases hb
      | some t => exact Or.inl hb
  | scanLocal r order st hlocal hst => exact absurd (hb.resolve_left id) Bool.false_ne_true
  | scanRemote r order st hremote hst =>
    obtain rfl := of_decide_eq_true (hb.resolve_left id)
    exact Or.inr (Or.inr (Or.inl ⟨rfl, hremote⟩))
  | make r st hmem =>
    have hbr : r = b := hb.elim Eq.symm of_decide_eq_true
    subst hbr
    exact Or.inr (Or.inr (Or.inr ⟨st, rfl, hmem⟩))
  | copy r st choice t st' hstep =>
    have hbr : r = b := hb.elim Eq.symm of_decide_eq_true
    subst hbr
    exact Or.inl hself
  | copied r st hend =>
    rcases hb with rfl | hb
    · exact Or.inl hself
    · cases hb

/-- A copy goes on, or begins. -/
theorem PushTurn.copies (h : PushTurn P src store pc effect pc') (hc : pc'.copies = true) :
    pc.copies = true ∨ ∃ b, pc = .scan b := by
  cases h with
  | idle pc pc' hidle =>
    cases pc' with
    | make b st => exact hidle.elim
    | copy b st => exact hidle.elim
    | _ => cases hc
  | replace b hb => cases hc
  | remove b t => cases t <;> cases hc
  | scanLocal b order st hlocal hst => exact Or.inr ⟨b, rfl⟩
  | scanRemote b order st hremote hst => exact Or.inr ⟨b, rfl⟩
  | make b st hb => exact Or.inl rfl
  | copy b st choice t st' hstep => exact Or.inl rfl
  | copied b st hend => cases hc

end YikvServer.Artifact
