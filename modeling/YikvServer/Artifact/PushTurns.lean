import YikvServer.Artifact.Intact

/-!
# A turn of a careful push

A push changes a build in the store only while no other push has it in hand and no pull
copies it. What it leaves is half-done, or it is its source.
-/
namespace YikvServer.Artifact

open YikvServer.Theory YikvServer.Theory.FileTree

variable {β : Type} {P : Provider β} {w : World P} {store : Store β} {dest : Dest β}
  {torn : List String} {source : DirTree β} {seen : List (String × DirTree β)} {b : String}
  {i : Nat} {run : PushRun P} {effect : Effect β} {pc' : PushPc P.up.St}

theorem PullPc.reads_iff {St : Type} {pc : PullPc St} :
    pc.reads b = true ↔ ∃ st, pc = .make b st ∨ pc = .copy b st := by
  cases pc <;> simp [PullPc.reads]

/-- A build that is copied is in the store. -/
theorem PullOk.mem_store {pc : PullPc P.down.St} (h : PullOk P store dest torn seen pc)
    (hb : pc.reads b = true) : b ∈ store := by
  rcases PullPc.reads_iff.mp hb with ⟨st, rfl | rfl⟩
  · obtain ⟨-, u, hread, -⟩ := h
    exact AList.lookup_isSome.mp (hread.1 ▸ rfl)
  · obtain ⟨-, -, u, hread, -⟩ := h
    exact AList.lookup_isSome.mp (hread.1 ▸ rfl)

/-- No other push has the build in hand, and no pull copies it. -/
structure AloneInStore (w : World P) (i : Nat) (b : String) : Prop where
  pushes : ∀ (j : Nat) (other : PushRun P), w.pushes[j]? = some other → j ≠ i →
    other.pc.changes b = false
  pulls : ∀ (j : Nat) (pull : PullRun P), w.pulls[j]? = some pull → pull.pc.reads b = false

namespace Intact

theorem aloneInStore (h : Intact w) (hi : w.pushes[i]? = some run)
    (hb : run.pc.changes b = true) : AloneInStore w i b where
  pushes j other hj hne := h.pushesApart i j run other b hi hj (Ne.symm hne) hb
  pulls j pull hj := h.readsApart i j run pull b hi hj hb

theorem alone_of_absent (h : Intact w) (hlocal : P.isLocal = true) (hb : b ∉ w.store) (i : Nat) :
    AloneInStore w i b where
  pushes j other hj _ :=
    Bool.eq_false_iff.mpr fun hc => hb ((h.pushes j other hj).hold.mem_store hlocal hc)
  pulls j pull hj := Bool.eq_false_iff.mpr fun hc => hb ((h.pulls j pull hj).mem_store hc)

/-- A push writes a build, and takes one in hand, only when nobody else has it. -/
theorem push_alone (h : Intact w) (hi : w.pushes[i]? = some run) (hcareful : run.Careful w)
    {src : Option (DirTree β)} (hturn : PushTurn P src w.store run.pc effect pc')
    (hb : effect.writes b ∨ pc'.changes b = true) : AloneInStore w i b := by
  unfold PushRun.Careful at hcareful
  rcases hturn.takes hb with hin | ⟨hpc, hmem⟩ | ⟨hpc, hremote⟩ | ⟨st, hpc, hmem⟩
  · exact h.aloneInStore hi hin
  · rw [hpc] at hcareful
    obtain ⟨hpushes, hpulls⟩ := hcareful hmem
    exact ⟨fun j other hj _ => hpushes other (List.mem_of_getElem? hj),
      fun j pull hj => hpulls pull (List.mem_of_getElem? hj)⟩
  · rw [hpc] at hcareful
    have hfree := hcareful.resolve_left fun hlocal => by
      rw [hremote] at hlocal
      cases hlocal
    exact ⟨fun j other hj _ => hfree.2.2 other (List.mem_of_getElem? hj), fun j pull hj =>
      Bool.eq_false_iff.mpr fun hc => hfree.2.1 ((h.pulls j pull hj).mem_store hc)⟩
  · have hok := h.pushes i run hi
    rw [hpc] at hok
    exact h.alone_of_absent hok.1 hmem i

/-- What a push has in hand after its turn. -/
theorem pushOk_turn (h : Intact w) (hi : w.pushes[i]? = some run) (hcareful : run.Careful w)
    (hturn : PushTurn P (some run.source.tree) w.store run.pc effect pc') :
    PushOk P (effect.onStore w.store) (effect.onTorn w.tornBuilds) run.source.tree pc' := by
  have hok := h.pushes i run hi
  have hhold := hok.hold.turn hturn fun b hscan => by
    unfold PushRun.Careful at hcareful
    rw [hscan] at hcareful
    exact hcareful.imp_right fun hfree => hfree.2.1
  obtain ⟨buildId, source, pc⟩ := run
  refine hhold.ok fun b st hcopy => ?_
  cases hturn with
  | idle pc pc' hidle =>
    subst hcopy
    exact hidle.elim
  | replace b hmem => cases hcopy
  | remove b t => cases t <;> cases hcopy
  | scanLocal b order st hlocal hst => cases hcopy
  | scanRemote b order st hremote hst =>
    cases hcopy
    have hfree := hcareful.resolve_left fun hlocal => by
      rw [hremote] at hlocal
      cases hlocal
    exact ⟨Or.inr hfree.1, fun hmem => absurd hmem hfree.2.1⟩
  | make b st hmem =>
    cases hcopy
    exact ⟨Or.inl hok.1, fun _ => by simp [Effect.onTorn]⟩
  | copy b st choice t st' hstep =>
    cases hcopy
    refine ⟨hok.1, fun hmem => ?_⟩
    cases t with
    | none =>
      have hnone := AList.lookup_isSome.mpr hmem
      rw [lookup_write] at hnone
      cases hnone
    | some t => simp [Effect.onTorn]
  | copied b st hend => cases hcopy

/-- A build that no push has left half-done, after the turn of one. -/
theorem stored_turn (h : Intact w) (hi : w.pushes[i]? = some run)
    (hturn : PushTurn P (some run.source.tree) w.store run.pc effect pc') (b : String)
    (u : DirTree β)
    (hu : (effect.onStore w.store).lookup b = some u) (hb : b ∉ effect.onTorn w.tornBuilds) :
    ∃ t, (b, t) ∈ effect.onCompleted run.source.tree w.completed ∧ Uploaded P t u := by
  by_cases hwrites : effect.writes b
  · have hok := h.pushes i run hi
    obtain ⟨buildId, source, pc⟩ := run
    have hlost : ∀ t, effect = .write b t → False := by
      rintro t rfl
      rw [lookup_write] at hu
      subst hu
      exact hb (by simp [Effect.onTorn])
    cases hturn with
    | remove r t =>
      obtain rfl := hwrites
      exact (hlost t rfl).elim
    | make r st hmem =>
      obtain rfl := hwrites
      exact (hlost _ rfl).elim
    | copy r st choice t st' hstep =>
      obtain rfl := hwrites
      exact (hlost t rfl).elim
    | copied r st hend =>
      obtain rfl := hwrites
      obtain ⟨hsend, hcopy, -, -⟩ := hok
      have hu' : w.store.lookup b = some u := hu
      rw [hu'] at hcopy
      exact ⟨source.tree, List.mem_cons_self, source.closed, hsend, st, hcopy, hend⟩
    | _ => exact hwrites.elim
  · rw [Effect.lookup_onStore hwrites] at hu
    obtain ⟨t, ht, hup⟩ := h.stored b u hu fun ht => hb ((Effect.mem_onTorn hwrites).mpr ht)
    exact ⟨t, Effect.mem_onCompleted ht, hup⟩

end Intact

end YikvServer.Artifact
