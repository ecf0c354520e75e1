import YikvServer.Artifact.Intact

/-!
# A turn of a careful pull

A pull changes a version directory only while no other pull of that `--dest` has it in
hand or has still to answer for it. What it leaves is half-done, or was pushed.
-/
namespace YikvServer.Artifact

open YikvServer.Theory YikvServer.Theory.FileTree

variable {β : Type} {P : Provider β} {w : World P} {store : Store β} {dest : Dest β}
  {torn : List String} {seen : List (String × DirTree β)} {b d : String} {i : Nat}
  {run : PullRun P} {effect : Effect β} {pc' : PullPc P.down.St}

theorem PullPc.changes_iff {St : Type} {pc : PullPc St} : pc.changes b = true ↔
    pc = .remove b ∨ (∃ st, pc = .copy b st) ∨ ∃ r rest, pc = .pruning r rest ∧ b ∈ rest := by
  cases pc <;> simp [PullPc.changes]

theorem PullPc.relies_iff {St : Type} {pc : PullPc St} : pc.relies b = true ↔
    pc = .prune b ∨ (∃ rest, pc = .pruning b rest) ∨ (∃ next, pc = .link b next) ∨
      pc = .print b := by
  cases pc <;> simp [PullPc.relies]

theorem treeAt_isSome_of_isDirectory
    (hlinks : ∀ name target, dest.lookup name = some (.link target) → ¬ Proper name)
    (hb : Proper b) (h : isDirectory dest b = true) : (treeAt dest b).isSome = true := by
  unfold isDirectory resolve follow at h
  unfold treeAt
  split at h
  · next t hdir =>
    rw [hdir]
    rfl
  · next target hlink => exact absurd hb (hlinks b target hlink)
  · cases h

/-- A version is a directory, or a link that a cut-off switch has left. -/
theorem version_cases
    (hlinks : ∀ name target, dest.lookup name = some (.link target) → ¬ Proper name)
    (h : b ∈ versionDirs dest) : b = "active.tmp" ∨ (treeAt dest b).isSome = true := by
  obtain ⟨-, hb⟩ := List.mem_filter.mp h
  obtain ⟨hdir, hne, -⟩ := of_decide_eq_true hb
  by_cases htmp : b = "active.tmp"
  · exact Or.inl htmp
  · exact Or.inr (treeAt_isSome_of_isDirectory hlinks ⟨hne, htmp⟩ hdir)

theorem victims_nodup {versions : List String} {keepN : Int} (h : versions.Nodup) :
    (victims versions keepN b).Nodup := by
  unfold victims
  split
  · exact List.nodup_nil
  · exact h.filter _

theorem Delivered.isSome (h : Delivered dest seen b) : (treeAt dest b).isSome = true := by
  obtain ⟨t, -, u, hu, -⟩ := h
  rw [hu]
  rfl

namespace PullOk

/-- What a pull changes is there. -/
theorem changed {pc : PullPc P.down.St} (h : PullOk P store dest torn seen pc)
    (hb : pc.changes b = true) : b = "active.tmp" ∨ (treeAt dest b).isSome = true := by
  rcases PullPc.changes_iff.mp hb with rfl | ⟨st, rfl⟩ | ⟨r, rest, rfl, hmem⟩
  · exact Or.inr h.2
  · obtain ⟨-, -, u, -, v, hv, -⟩ := h
    rw [hv]
    exact Or.inr rfl
  · exact h.2.2.2 b hmem

/-- What a pull relies on is a build that it saw. -/
theorem relied {pc : PullPc P.down.St} (h : PullOk P store dest torn seen pc)
    (hb : pc.relies b = true) : Delivered dest seen b := by
  rcases PullPc.relies_iff.mp hb with rfl | ⟨rest, rfl⟩ | ⟨next, rfl⟩ | rfl
  · exact h.2
  · exact h.2.1
  · exact h.2
  · exact h.2

end PullOk

/-- No other pull of the `--dest` has the directory in hand or has to answer for it. -/
def AloneAt (w : World P) (i : Nat) (d b : String) : Prop :=
  ∀ (j : Nat) (other : PullRun P), w.pulls[j]? = some other → other.args.dest = d → j ≠ i →
    other.pc.changes b = false ∧ other.pc.relies b = false

namespace Intact

theorem aloneAt (h : Intact w) (hi : w.pulls[i]? = some run) (hb : run.pc.changes b = true) :
    AloneAt w i run.args.dest b := fun j other hj hd hne =>
  ⟨h.pullsApart i j run other b hi hj hd (Ne.symm hne) hb, h.relied i j run other b hi hj hd hb⟩

theorem aloneAt_absent (h : Intact w) (hproper : Proper b) (hb : b ∉ w.dests d) (i : Nat) :
    AloneAt w i d b := by
  have hnone : treeAt (w.dests d) b = none := by
    rw [treeAt, AList.lookup_eq_none.mpr hb]
  rintro j other hj rfl -
  refine ⟨Bool.eq_false_iff.mpr fun hc => ?_, Bool.eq_false_iff.mpr fun hr => ?_⟩
  · rcases (h.pulls j other hj).changed hc with htmp | hsome
    · exact hproper.2 htmp
    · rw [hnone] at hsome
      cases hsome
  · have hsome := ((h.pulls j other hj).relied hr).isSome
    rw [hnone] at hsome
    cases hsome

/-- Only a pull that has a directory in hand, or creates it, writes it. -/
theorem pull_writes (h : Intact w) (hi : w.pulls[i]? = some run)
    (hturn : PullTurn P run.args w.store (w.dests run.args.dest) run.pc effect pc')
    (hb : effect.writes b) : AloneAt w i run.args.dest b := by
  obtain ⟨args, pc, seen⟩ := run
  cases hturn with
  | remove r t hthere =>
    obtain rfl := hb
    exact h.aloneAt hi (decide_eq_true rfl)
  | make r st hmem =>
    obtain rfl := hb
    exact h.aloneAt_absent (h.pulls i _ hi).1 hmem i
  | copy r st choice t st' hstep =>
    obtain rfl := hb
    exact h.aloneAt hi (decide_eq_true rfl)
  | copied r st hend =>
    obtain rfl := hb
    exact h.aloneAt hi (decide_eq_true rfl)
  | victim r victim rest t hthere =>
    obtain rfl := hb
    exact h.aloneAt hi (decide_eq_true List.mem_cons_self)
  | link r pc effect next hstep => exact absurd hb (not_writes_symlinkStep hstep)
  | _ => exact hb.elim

/-- A pull takes a directory in hand only when nobody else needs it, nor itself. -/
theorem pull_takes (h : Intact w) (hi : w.pulls[i]? = some run) (hcareful : run.Careful w)
    (hturn : PullTurn P run.args w.store (w.dests run.args.dest) run.pc effect pc')
    (hb : pc'.changes b = true) :
    AloneAt w i run.args.dest b ∧ pc'.relies b = false := by
  obtain ⟨args, pc, seen⟩ := run
  have hmem : (⟨args, pc, seen⟩ : PullRun P) ∈ w.pulls := List.mem_of_getElem? hi
  cases hturn with
  | refresh r hdir =>
    obtain rfl := of_decide_eq_true hb
    exact ⟨fun j other hj hd _ => hcareful hdir other (List.mem_of_getElem? hj) hd, rfl⟩
  | remove r t hthere =>
    cases t with
    | none => cases hb
    | some t => exact ⟨h.aloneAt hi hb, rfl⟩
  | make r st hnew =>
    obtain rfl := of_decide_eq_true hb
    exact ⟨h.aloneAt_absent (h.pulls i _ hi).1 hnew i, rfl⟩
  | copy r st choice t st' hstep => exact ⟨h.aloneAt hi hb, rfl⟩
  | prune r =>
    have hvictim := of_decide_eq_true hb
    exact ⟨fun j other hj hd _ => hcareful b hvictim other (List.mem_of_getElem? hj) hd,
      (hcareful b hvictim _ hmem rfl).2⟩
  | victim r victim rest t hthere =>
    have hin : b ∈ victim :: rest := by
      cases t with
      | none => exact List.mem_cons_of_mem _ (of_decide_eq_true hb)
      | some t => exact of_decide_eq_true hb
    have hb' : PullPc.changes (.pruning r (victim :: rest) : PullPc P.down.St) b = true :=
      decide_eq_true hin
    exact ⟨h.aloneAt hi hb', h.relied i i _ _ b hi hi rfl hb'⟩
  | resolve pc' hpc =>
    rcases hpc with rfl | ⟨r, rfl | rfl⟩ <;> cases hb
  | pruned r pc' hpc =>
    rcases hpc with ⟨-, rfl⟩ | ⟨-, rfl⟩ <;> cases hb
  | link r pc effect next hstep => cases next <;> cases hb
  | _ => cases hb

/-- A pull relies on a directory only when no other pull has it in hand. -/
theorem pull_relies (h : Intact w) (hi : w.pulls[i]? = some run) (hcareful : run.Careful w)
    (hturn : PullTurn P run.args w.store (w.dests run.args.dest) run.pc effect pc')
    (hb : pc'.relies b = true) (j : Nat) (other : PullRun P) (hj : w.pulls[j]? = some other)
    (hd : other.args.dest = run.args.dest) (hne : j ≠ i) : other.pc.changes b = false := by
  have hstill : run.pc.relies b = true → other.pc.changes b = false := fun hr => by
    refine Bool.eq_false_iff.mpr fun hc => ?_
    have hrelies := h.relied j i other run b hj hi hd.symm hc
    rw [hr] at hrelies
    cases hrelies
  obtain ⟨args, pc, seen⟩ := run
  cases hturn with
  | skip r hdir hforce =>
    obtain rfl := of_decide_eq_true hb
    exact (hcareful.2 hdir hforce).2 other (List.mem_of_getElem? hj) hd
  | copied r st hend =>
    obtain rfl := of_decide_eq_true hb
    exact (h.aloneAt hi (decide_eq_true rfl) j other hj hd hne).1
  | prune r => exact hstill hb
  | victim r victim rest t hthere => exact hstill hb
  | pruned r pc' hpc =>
    rcases hpc with ⟨-, rfl⟩ | ⟨-, rfl⟩ <;> exact hstill hb
  | link r pc effect next hstep => cases next <;> exact hstill hb
  | remove r t hthere => cases t <;> cases hb
  | resolve pc' hpc =>
    rcases hpc with rfl | ⟨r, rfl | rfl⟩ <;> cases hb
  | _ => cases hb

/-- A pull reads a build only while no push has it in hand. -/
theorem pull_reads (h : Intact w) (hi : w.pulls[i]? = some run) (hcareful : run.Careful w)
    (hturn : PullTurn P run.args w.store (w.dests run.args.dest) run.pc effect pc')
    (hb : pc'.reads b = true) (j : Nat) (push : PushRun P) (hj : w.pushes[j]? = some push) :
    push.pc.changes b = false := by
  have hstill : run.pc.reads b = true → push.pc.changes b = false := fun hr => by
    refine Bool.eq_false_iff.mpr fun hc => ?_
    have hreads := h.readsApart j i push run b hj hi hc
    rw [hr] at hreads
    cases hreads
  obtain ⟨args, pc, seen⟩ := run
  cases hturn with
  | scan r order st hst =>
    obtain rfl := of_decide_eq_true hb
    exact hcareful.2.2 push (List.mem_of_getElem? hj)
  | make r st hnew => exact hstill hb
  | copy r st choice t st' hstep => exact hstill hb
  | remove r t hthere => cases t <;> cases hb
  | pruned r pc' hpc =>
    rcases hpc with ⟨-, rfl⟩ | ⟨-, rfl⟩ <;> cases hb
  | link r pc effect next hstep => cases next <;> cases hb
  | resolve pc' hpc =>
    rcases hpc with rfl | ⟨r, rfl | rfl⟩ <;> cases hb
  | _ => cases hb

/-- What a pull has in hand after its turn. -/
theorem pullOk_turn (hP : P.Documented) (h : Intact w) (hi : w.pulls[i]? = some run)
    (hcareful : run.Careful w)
    (hturn : PullTurn P run.args w.store (w.dests run.args.dest) run.pc effect pc') :
    PullOk P w.store (effect.onDest (w.dests run.args.dest))
      (effect.onTorn (w.torn run.args.dest))
      (if run.pc.takesUp then w.completed else run.seen) pc' := by
  have hok := h.pulls i run hi
  have hown : ∀ b, run.pc.changes b = true → run.pc.relies b = false := fun b hb =>
    h.relied i i run run b hi hi rfl hb
  obtain ⟨args, pc, seen⟩ := run
  have htorn : ∀ (b : String) (t : DirTree β),
      b ∈ (Effect.write b (some t)).onTorn (w.torn args.dest) := fun b t => by
    simp [Effect.onTorn]
  cases hturn with
  | resolve pc' hpc =>
    rcases hpc with rfl | ⟨r, rfl | rfl⟩ <;> trivial
  | isDir r => trivial
  | fail pc hpc => trivial
  | skip r hdir hforce =>
    obtain ⟨⟨-, hproper⟩, hfree⟩ := hcareful
    obtain ⟨u, hu⟩ := Option.isSome_iff_exists.mp
      (treeAt_isSome_of_isDirectory (h.links args.dest) hproper hdir)
    obtain ⟨t, ht, hsame⟩ := h.kept args.dest r u hu (hfree hdir hforce).1
    exact ⟨hproper, t, ht, u, hu, hsame⟩
  | goOn r => exact hcareful.1.2
  | refresh r hdir => exact ⟨hok, treeAt_isSome_of_isDirectory (h.links args.dest) hok hdir⟩
  | fresh r hnone => exact hok
  | remove r t hthere =>
    cases t with
    | none => exact hok.1
    | some t =>
      refine ⟨hok.1, ?_⟩
      rw [treeAt_write]
      rfl
  | scan r order st hst =>
    obtain ⟨hmem, hsettled, -⟩ := hcareful
    obtain ⟨u, hu⟩ := Option.isSome_iff_exists.mp (AList.lookup_isSome.mpr hmem)
    rw [hu] at hst
    exact ⟨hok, u, ⟨hu, h.stored r u hu hsettled⟩, order, hst⟩
  | make r st hnew =>
    obtain ⟨hproper, u, hread, order, hst⟩ := hok
    exact ⟨hproper, htorn r ∅, u, hread, ∅, treeAt_write _, .refl hst⟩
  | copy r st choice t st' hstep =>
    obtain ⟨hproper, -, u, hread, v, hv, hcopy⟩ := hok
    rw [hv, hread.1] at hstep
    obtain ⟨v', rfl⟩ := P.down.keeps hstep
    exact ⟨hproper, htorn r v', u, hread, v', treeAt_write _, hcopy.step hstep⟩
  | copied r st hend =>
    obtain ⟨hproper, -, u, ⟨-, t, ht, hup⟩, v, hv, hcopy⟩ := hok
    exact ⟨hproper, t, ht, v, hv, hup.roundTrip hP ⟨st, hcopy, hend⟩⟩
  | prune r =>
    refine ⟨hok.1, hok.2, victims_nodup ((AList.keys_nodup _).filter _), fun victim hmem => ?_⟩
    exact version_cases (h.links args.dest) (victims_subset hmem)
  | victim r victim rest t hthere =>
    obtain ⟨hproper, hdel, hnodup, hrest⟩ := hok
    have hchanges : ∀ x ∈ victim :: rest,
        PullPc.changes (.pruning r (victim :: rest) : PullPc P.down.St) x = true :=
      fun x hx => decide_eq_true hx
    have hr : r ≠ victim := by
      rintro rfl
      have hrelies := hown r (hchanges r List.mem_cons_self)
      cases hrelies.symm.trans (decide_eq_true (rfl : r = r))
    have hframe : ∀ x, x ≠ victim →
        treeAt ((Effect.write victim t).onDest (w.dests args.dest)) x =
          treeAt (w.dests args.dest) x := fun x hx =>
      (PullTurn.victim r victim rest t hthere : PullTurn P args w.store _ _ _ _).treeAt_eq hx
    refine ⟨hproper, hdel.frame (hframe r hr), ?_, fun x hx => ?_⟩
    · cases t with
      | none => exact (List.nodup_cons.mp hnodup).2
      | some t => exact hnodup
    · by_cases hxv : x = victim
      · subst hxv
        cases t with
        | none => exact absurd hx (List.nodup_cons.mp hnodup).1
        | some t =>
          rw [treeAt_write]
          exact Or.inr rfl
      · rw [hframe x hxv]
        refine hrest x ?_
        cases t with
        | none => exact List.mem_cons_of_mem _ hx
        | some t => exact hx
  | pruned r pc' hpc =>
    rcases hpc with ⟨-, rfl⟩ | ⟨-, rfl⟩ <;> exact ⟨hok.1, hok.2.1⟩
  | link r pc effect next hstep =>
    have hdel := hok.2.frame (treeAt_symlinkStep hstep r)
    cases next <;> exact ⟨hok.1, hdel⟩
  | exit r => trivial

/-- A version directory that no pull has left half-done, after the turn of one. -/
theorem kept_turn (hP : P.Documented) (h : Intact w) (hi : w.pulls[i]? = some run)
    (hcareful : run.Careful w)
    (hturn : PullTurn P run.args w.store (w.dests run.args.dest) run.pc effect pc') (b : String)
    (u : DirTree β) (hu : treeAt (effect.onDest (w.dests run.args.dest)) b = some u)
    (hb : b ∉ effect.onTorn (w.torn run.args.dest)) :
    ∃ t, (b, t) ∈ w.completed ∧ Same (some u) (some t) := by
  by_cases hwrites : effect.writes b
  · have hlost : ∀ t, effect = .write b t → False := by
      rintro t rfl
      rw [treeAt_write] at hu
      subst hu
      exact hb (by simp [Effect.onTorn])
    have hok := h.pullOk_turn hP hi hcareful hturn
    have hseen := h.seen i run hi
    obtain ⟨args, pc, seen⟩ := run
    cases hturn with
    | remove r t hthere =>
      obtain rfl := hwrites
      exact (hlost t rfl).elim
    | make r st hmem =>
      obtain rfl := hwrites
      exact (hlost _ rfl).elim
    | copy r st choice t st' hstep =>
      obtain rfl := hwrites
      exact (hlost t rfl).elim
    | victim r victim rest t hthere =>
      obtain rfl := hwrites
      exact (hlost t rfl).elim
    | copied r st hend =>
      obtain rfl := hwrites
      obtain ⟨-, t, ht, v, hv, hsame⟩ := hok
      obtain rfl := Option.some.inj (hv.symm.trans hu)
      exact ⟨t, hseen _ ht, hsame⟩
    | link r pc effect next hstep => exact absurd hwrites (not_writes_symlinkStep hstep)
    | _ => exact hwrites.elim
  · rw [hturn.treeAt_eq hwrites] at hu
    exact h.kept _ b u hu fun ht => hb ((Effect.mem_onTorn hwrites).mpr ht)

/-- Links are made under the two names of a switch only. -/
theorem links_turn (h : Intact w)
    (hturn : PullTurn P run.args w.store (w.dests run.args.dest) run.pc effect pc')
    (name target : String)
    (hlink : (effect.onDest (w.dests run.args.dest)).lookup name = some (.link target)) :
    ¬ Proper name := by
  have hwrite : ∀ (b : String) (t : Option (DirTree β)),
      ((Effect.write b t).onDest (w.dests run.args.dest)).lookup name = some (.link target) →
        ¬ Proper name := by
    intro b t hl
    by_cases hb : name = b
    · subst hb
      have hnone := treeAt_link hl
      rw [treeAt_write] at hnone
      subst hnone
      rw [Effect.onDest, AList.lookup_erase] at hl
      cases hl
    · exact h.links run.args.dest name target ((lookup_onDest_write t hb).symm.trans hl)
  obtain ⟨args, pc, seen⟩ := run
  cases hturn with
  | remove r t hthere => exact hwrite r t hlink
  | make r st hmem => exact hwrite r _ hlink
  | copy r st choice t st' hstep => exact hwrite r t hlink
  | victim r victim rest t hthere => exact hwrite victim t hlink
  | link r pc effect next hstep =>
    rintro ⟨hactive, htmp⟩
    refine h.links args.dest name target (Eq.trans ?_ hlink) ⟨hactive, htmp⟩
    exact (lookup_symlinkStep hstep hactive htmp).symm
  | _ => exact h.links args.dest name target hlink

end Intact

end YikvServer.Artifact
