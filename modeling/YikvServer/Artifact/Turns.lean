import YikvServer.Artifact.World

/-!
# The steps of a push and of a pull

What each statement can do, and which names an effect leaves alone.
-/
namespace YikvServer.Artifact

open YikvServer.Theory.FileTree

variable {β : Type} {P : Provider β} {effect : Effect β} {store : Store β}
  {dest dest' : Dest β}
  {name b : String} {torn : List String} {choice : List Path}

/-! ## Effects -/

namespace Effect

/-- The names under which an effect changes a tree, or settles one. -/
def writes : Effect β → String → Prop
  | write b _, name => name = b
  | complete b, name => name = b
  | _, _ => False

theorem lookup_onStore (h : ¬ effect.writes name) :
    (effect.onStore store).lookup name = store.lookup name := by
  cases effect with
  | write b t =>
    cases t with
    | none => exact AList.lookup_erase_ne h
    | some t => exact AList.lookup_insert_ne h
  | _ => rfl

theorem mem_onTorn (h : ¬ effect.writes name) : name ∈ effect.onTorn torn ↔ name ∈ torn := by
  cases effect with
  | write b t =>
    have hne : name ≠ b := h
    cases t with
    | none => simp [onTorn, hne]
    | some t => simp [onTorn, hne]
  | complete b =>
    have hne : name ≠ b := h
    simp [onTorn, hne]
  | _ => rfl

theorem mem_onCompleted {source : DirTree β} {completed : List (String × DirTree β)}
    {entry : String × DirTree β} (h : entry ∈ completed) :
    entry ∈ effect.onCompleted source completed := by
  cases effect with
  | complete b => exact List.mem_cons_of_mem _ h
  | _ => exact h

end Effect

theorem treeAt_congr (h : dest'.lookup name = dest.lookup name) :
    treeAt dest' name = treeAt dest name := by
  rw [treeAt, h]
  rfl

theorem treeAt_link {target : String} (h : dest.lookup name = some (.link target)) :
    treeAt dest name = none := by
  rw [treeAt, h]

theorem victims_subset {versions : List String} {keepN : Int} {name : String}
    (h : name ∈ victims versions keepN b) : name ∈ versions := by
  unfold victims at h
  split at h
  · cases h
  · exact List.mem_of_mem_filter h

theorem isDirectory_of_treeAt (h : (treeAt dest name).isSome = true) : isDirectory dest name = true := by
  unfold treeAt at h
  split at h
  · next t hdir =>
    unfold isDirectory resolve follow
    rw [hdir]
    rfl
  · cases h

@[simp] theorem treeAt_insert_dir (t : DirTree β) :
    treeAt (dest.insert name (.dir t)) name = some t := by
  rw [treeAt, AList.lookup_insert]

@[simp] theorem treeAt_erase : treeAt (dest.erase name) name = none := by
  rw [treeAt, AList.lookup_erase]

theorem lookup_onDest_write (t : Option (DirTree β)) (h : name ≠ b) :
    ((Effect.write b t).onDest dest).lookup name = dest.lookup name := by
  cases t with
  | none => exact AList.lookup_erase_ne h
  | some t => exact AList.lookup_insert_ne h

/-- What is written under a name in `--dest` is what is then found there. -/
theorem treeAt_write (t : Option (DirTree β)) :
    treeAt ((Effect.write name t).onDest dest) name = t := by
  cases t with
  | none => exact treeAt_erase
  | some t => exact treeAt_insert_dir t

theorem lookup_write (t : Option (DirTree β)) :
    ((Effect.write name t).onStore store).lookup name = t := by
  cases t with
  | none => exact AList.lookup_erase name store
  | some t => exact AList.lookup_insert store

/-- The steps of a switch change links only. -/
theorem treeAt_symlinkStep {pc : LinkPc} {next : Option LinkPc} {target : String}
    (h : symlinkStep dest target pc = some (effect, next)) (name : String) :
    treeAt (effect.onDest dest) name = treeAt dest name := by
  cases pc with
  | clear =>
    simp only [symlinkStep] at h
    split at h
    · next old htmp =>
      cases h
      by_cases hname : name = "active.tmp"
      · subst hname
        exact treeAt_erase.trans (treeAt_link htmp).symm
      · exact treeAt_congr (AList.lookup_erase_ne hname)
    · cases h
    · cases h
      rfl
  | link =>
    simp only [symlinkStep] at h
    split at h
    · cases h
    · next htmp =>
      cases h
      by_cases hname : name = "active.tmp"
      · subst hname
        have hnone := AList.lookup_eq_none.mpr htmp
        have hlink : treeAt ((Effect.link "active.tmp" target).onDest dest) "active.tmp" = none :=
          treeAt_link (AList.lookup_insert dest)
        rw [hlink, treeAt, hnone]
      · exact treeAt_congr (AList.lookup_insert_ne hname)
  | replace =>
    simp only [symlinkStep] at h
    split at h
    · cases h
    · next old htmp hactive =>
      cases h
      have hdest : (Effect.replace "active.tmp" "active").onDest dest =
          (dest.erase "active.tmp").insert "active" (.link old) := by
        simp only [Effect.onDest, htmp]
      rw [hdest]
      by_cases hname : name = "active"
      · subst hname
        rw [treeAt_link (AList.lookup_insert _), treeAt]
        split
        · next t hdir => exact absurd hdir (hactive _)
        · rfl
      · by_cases htmpName : name = "active.tmp"
        · subst htmpName
          rw [treeAt_congr (AList.lookup_insert_ne hname), treeAt_erase, treeAt_link htmp]
        · rw [treeAt_congr (AList.lookup_insert_ne hname),
            treeAt_congr (AList.lookup_erase_ne htmpName)]
    · cases h

/-- A switch touches the two names of its links only. -/
theorem lookup_symlinkStep {pc : LinkPc} {next : Option LinkPc} {target : String}
    (h : symlinkStep dest target pc = some (effect, next)) (hactive : name ≠ "active")
    (htmp : name ≠ "active.tmp") : (effect.onDest dest).lookup name = dest.lookup name := by
  cases pc with
  | clear =>
    simp only [symlinkStep] at h
    split at h <;> cases h
    · exact AList.lookup_erase_ne htmp
    · rfl
  | link =>
    simp only [symlinkStep] at h
    split at h <;> cases h
    exact AList.lookup_insert_ne htmp
  | replace =>
    simp only [symlinkStep] at h
    split at h <;> cases h
    simp only [Effect.onDest]
    split
    · rw [AList.lookup_insert_ne hactive, AList.lookup_erase_ne htmp]
    · rfl

theorem not_writes_symlinkStep {pc : LinkPc} {next : Option LinkPc} {target : String}
    (h : symlinkStep dest target pc = some (effect, next)) : ¬ effect.writes name := by
  cases pc with
  | clear =>
    simp only [symlinkStep] at h
    split at h <;> cases h <;> exact id
  | link =>
    simp only [symlinkStep] at h
    split at h <;> cases h
    exact id
  | replace =>
    simp only [symlinkStep] at h
    split at h <;> cases h
    exact id

/-- A removal takes something from a tree that is there. -/
theorem removeStep_eq_some {Pc : Type} {t : Option (DirTree β)} {removing removed pc : Pc}
    (h : removeStep t choice name removing removed = some (effect, pc)) :
    t.isSome = true ∧ ∃ t', effect = .write name t' ∧
      pc = if t'.isSome then removing else removed := by
  obtain ⟨t', ht, heq⟩ := Option.map_eq_some_iff.mp h
  obtain ⟨rfl, rfl⟩ := Prod.mk.inj heq
  refine ⟨?_, t', rfl, rfl⟩
  cases t with
  | none => cases ht
  | some t => rfl

/-- A copy goes on, ends or fails. -/
theorem copyStep_eq_some {Pc : Type} {C : Copier β} {src dst : Option (DirTree β)}
    {copying : C.St → Pc} {copied failed pc : Pc} {st : C.St}
    (h : copyStep C src dst choice name copying copied failed st = some (effect, pc)) :
    (C.outcome st = some true ∧ effect = .complete name ∧ pc = copied) ∨
    (effect = .quiet ∧ pc = failed) ∨
    ∃ t st', C.step src dst st choice = some (t, st') ∧ effect = .write name t ∧
      pc = copying st' := by
  unfold copyStep at h
  split at h
  · next hend =>
    cases h
    exact Or.inl ⟨hend, rfl, rfl⟩
  · cases h
    exact Or.inr (Or.inl ⟨rfl, rfl⟩)
  · obtain ⟨⟨t, st'⟩, hstep, heq⟩ := Option.map_eq_some_iff.mp h
    obtain ⟨rfl, rfl⟩ := Prod.mk.inj heq
    exact Or.inr (Or.inr ⟨t, st', hstep, rfl, rfl⟩)

/-! ## Pushes -/

/-- A statement at which a push has nothing in hand. -/
def PushPc.Idle {St : Type} : PushPc St → Prop
  | .remove _ => False
  | .make _ _ => False
  | .copy _ _ => False
  | _ => True

/-- What one turn of a push can do. -/
inductive PushTurn (P : Provider β) (src : Option (DirTree β)) (store : Store β) :
    PushPc P.up.St → Effect β → PushPc P.up.St → Prop
  | idle (pc pc' : PushPc P.up.St) (h : pc'.Idle) : PushTurn P src store pc .quiet pc'
  | replace (b : String) (hb : b ∈ store) : PushTurn P src store (.check b) .quiet (.remove b)
  | remove (b : String) (t : Option (DirTree β)) :
      PushTurn P src store (.remove b) (.write b t) (if t.isSome then .remove b else .scan b)
  | scanLocal (b : String) (order : List Path) (st : P.up.St) (hlocal : P.isLocal = true)
      (hst : P.up.start src order = some st) : PushTurn P src store (.scan b) .quiet (.make b st)
  | scanRemote (b : String) (order : List Path) (st : P.up.St) (hremote : P.isLocal = false)
      (hst : P.up.start src order = some st) : PushTurn P src store (.scan b) .quiet (.copy b st)
  | make (b : String) (st : P.up.St) (hb : b ∉ store) :
      PushTurn P src store (.make b st) (.write b (some ∅)) (.copy b st)
  | copy (b : String) (st : P.up.St) (choice : List Path) (t : Option (DirTree β)) (st' : P.up.St)
      (hstep : P.up.step src (store.lookup b) st choice = some (t, st')) :
      PushTurn P src store (.copy b st) (.write b t) (.copy b st')
  | copied (b : String) (st : P.up.St) (hend : P.up.outcome st = some true) :
      PushTurn P src store (.copy b st) (.complete b) (.print b)

theorem pushTurn {buildId : Option String} {now : Nat} {src : Option (DirTree β)}
    {pc pc' : PushPc P.up.St}
    (h : pushStep P buildId now src store choice pc = some (effect, pc')) :
    PushTurn P src store pc effect pc' := by
  cases pc with
  | resolve suffix =>
    simp only [pushStep] at h
    split at h
    · cases h
      exact .idle _ _ trivial
    · split at h
      · cases h
        exact .idle _ _ trivial
      · cases h
        exact .idle _ _ trivial
  | isDir b =>
    simp only [pushStep] at h
    obtain ⟨rfl, rfl⟩ := Prod.mk.inj (Option.some.inj h)
    refine .idle _ _ ?_
    repeat' split
    all_goals trivial
  | check b =>
    obtain ⟨rfl, rfl⟩ := Prod.mk.inj (Option.some.inj h)
    split
    · next hb => exact .replace b hb
    · exact .idle _ _ trivial
  | remove b =>
    obtain ⟨-, t, rfl, rfl⟩ := removeStep_eq_some h
    exact .remove b t
  | scan b =>
    obtain ⟨st, hst, heq⟩ := Option.map_eq_some_iff.mp h
    obtain ⟨rfl, rfl⟩ := Prod.mk.inj heq
    cases hlocal : P.isLocal with
    | true => exact .scanLocal b choice st hlocal hst
    | false => exact .scanRemote b choice st hlocal hst
  | make b st =>
    simp only [pushStep] at h
    split at h
    · cases h
      exact .idle _ _ trivial
    · next hb =>
      cases h
      exact .make b st hb
  | copy b st =>
    rcases copyStep_eq_some h with ⟨hend, rfl, rfl⟩ | ⟨rfl, rfl⟩ | ⟨t, st', hstep, rfl, rfl⟩
    · exact .copied b st hend
    · exact .idle _ _ trivial
    · exact .copy b st choice t st' hstep
  | print b =>
    cases h
    exact .idle _ _ trivial
  | done b => cases h
  | failed => cases h

/-! ## Pulls -/

/-- A statement that can end a pull with a message. -/
def PullPc.Exits {St : Type} : PullPc St → Prop
  | .isDir _ => True
  | .make _ _ => True
  | .copy _ _ => True
  | _ => False

/-- What one turn of a pull can do. -/
inductive PullTurn (P : Provider β) (args : PullArgs) (store : Store β) (dest : Dest β) :
    PullPc P.down.St → Effect β → PullPc P.down.St → Prop
  | resolve (pc' : PullPc P.down.St)
      (h : pc' = .failed ∨ ∃ b, pc' = .isDir b ∨ pc' = .skip b) :
      PullTurn P args store dest .resolve .quiet pc'
  | isDir (b : String) : PullTurn P args store dest (.isDir b) .quiet (.skip b)
  | fail (pc : PullPc P.down.St) (h : pc.Exits) : PullTurn P args store dest pc .quiet .failed
  | skip (b : String) (hb : isDirectory dest b = true) (hforce : args.forceRefresh = false) :
      PullTurn P args store dest (.skip b) .quiet (.prune b)
  | goOn (b : String) : PullTurn P args store dest (.skip b) .quiet (.clear b)
  | refresh (b : String) (hb : isDirectory dest b = true) :
      PullTurn P args store dest (.clear b) .quiet (.remove b)
  | fresh (b : String) (hb : isDirectory dest b = false) :
      PullTurn P args store dest (.clear b) .quiet (.scan b)
  | remove (b : String) (t : Option (DirTree β)) (hthere : (treeAt dest b).isSome = true) :
      PullTurn P args store dest (.remove b) (.write b t) (if t.isSome then .remove b else .scan b)
  | scan (b : String) (order : List Path) (st : P.down.St)
      (hst : P.down.start (store.lookup b) order = some st) :
      PullTurn P args store dest (.scan b) .quiet (.make b st)
  | make (b : String) (st : P.down.St) (hb : b ∉ dest) :
      PullTurn P args store dest (.make b st) (.write b (some ∅)) (.copy b st)
  | copy (b : String) (st : P.down.St) (choice : List Path) (t : Option (DirTree β))
      (st' : P.down.St)
      (hstep : P.down.step (store.lookup b) (treeAt dest b) st choice = some (t, st')) :
      PullTurn P args store dest (.copy b st) (.write b t) (.copy b st')
  | copied (b : String) (st : P.down.St) (hend : P.down.outcome st = some true) :
      PullTurn P args store dest (.copy b st) (.complete b) (.prune b)
  | prune (b : String) :
      PullTurn P args store dest (.prune b) .quiet
        (.pruning b (victims (versionDirs dest) args.maxLocalVersions b))
  | victim (b victim : String) (rest : List String) (t : Option (DirTree β))
      (hthere : (treeAt dest victim).isSome = true) :
      PullTurn P args store dest (.pruning b (victim :: rest)) (.write victim t)
        (.pruning b (if t.isSome then victim :: rest else rest))
  | pruned (b : String) (pc' : PullPc P.down.St)
      (h : args.switchActive = true ∧ pc' = .link b .clear ∨
        args.switchActive = false ∧ pc' = .print b) :
      PullTurn P args store dest (.pruning b []) .quiet pc'
  | link (b : String) (pc : LinkPc) (effect : Effect β) (next : Option LinkPc)
      (hstep : symlinkStep dest b pc = some (effect, next)) :
      PullTurn P args store dest (.link b pc) effect
        ((next.map (PullPc.link b)).getD (.print b))
  | exit (b : String) : PullTurn P args store dest (.print b) .quiet (.done b)

theorem pullTurn {args : PullArgs} {pc pc' : PullPc P.down.St}
    (h : pullStep P args store dest choice pc = some (effect, pc')) :
    PullTurn P args store dest pc effect pc' := by
  cases pc with
  | resolve =>
    simp only [pullStep] at h
    split at h
    · next b hb =>
      obtain ⟨rfl, rfl⟩ := Prod.mk.inj (Option.some.inj h)
      refine .resolve _ (Or.inr ⟨b, ?_⟩)
      split
      · exact Or.inl rfl
      · exact Or.inr rfl
    · cases h
      exact .resolve _ (Or.inl rfl)
  | isDir b =>
    obtain ⟨rfl, rfl⟩ := Prod.mk.inj (Option.some.inj h)
    split
    · exact .isDir b
    · exact .fail _ trivial
  | skip b =>
    obtain ⟨rfl, rfl⟩ := Prod.mk.inj (Option.some.inj h)
    split
    · next hb => exact .skip b hb.1 hb.2
    · exact .goOn b
  | clear b =>
    obtain ⟨rfl, rfl⟩ := Prod.mk.inj (Option.some.inj h)
    split
    · next hb => exact .refresh b hb
    · next hb => exact .fresh b (Bool.eq_false_iff.mpr hb)
  | remove b =>
    obtain ⟨hthere, t, rfl, rfl⟩ := removeStep_eq_some h
    exact .remove b t hthere
  | scan b =>
    obtain ⟨st, hst, heq⟩ := Option.map_eq_some_iff.mp h
    obtain ⟨rfl, rfl⟩ := Prod.mk.inj heq
    exact .scan b choice st hst
  | make b st =>
    simp only [pullStep] at h
    split at h
    · cases h
      exact .fail _ trivial
    · next hb =>
      cases h
      exact .make b st hb
  | copy b st =>
    rcases copyStep_eq_some h with ⟨hend, rfl, rfl⟩ | ⟨rfl, rfl⟩ | ⟨t, st', hstep, rfl, rfl⟩
    · exact .copied b st hend
    · exact .fail _ trivial
    · exact .copy b st choice t st' hstep
  | prune b =>
    cases h
    exact .prune b
  | pruning b rest =>
    cases rest with
    | nil =>
      obtain ⟨rfl, rfl⟩ := Prod.mk.inj (Option.some.inj h)
      refine .pruned b _ ?_
      split
      · next hswitch => exact Or.inl ⟨hswitch, rfl⟩
      · next hswitch => exact Or.inr ⟨Bool.eq_false_iff.mpr hswitch, rfl⟩
    | cons victim rest =>
      obtain ⟨hthere, t, rfl, rfl⟩ := removeStep_eq_some h
      have hturn : PullTurn P args store dest (.pruning b (victim :: rest)) (.write victim t)
          (.pruning b (if t.isSome then victim :: rest else rest)) := .victim b victim rest t hthere
      cases t with
      | none => exact hturn
      | some t => exact hturn
  | link b pc =>
    obtain ⟨⟨effect', next⟩, hstep, heq⟩ := Option.map_eq_some_iff.mp h
    obtain ⟨rfl, rfl⟩ := Prod.mk.inj heq
    exact .link b pc effect' next hstep
  | print b =>
    cases h
    exact .exit b
  | done b => cases h
  | failed => cases h

/-- A pull changes the trees that it writes and no others. -/
theorem PullTurn.treeAt_eq {args : PullArgs} {pc pc' : PullPc P.down.St}
    (h : PullTurn P args store dest pc effect pc') (hname : ¬ effect.writes name) :
    treeAt (effect.onDest dest) name = treeAt dest name := by
  have hwrite : ∀ (b : String) (t : Option (DirTree β)), name ≠ b →
      treeAt ((Effect.write b t).onDest dest) name = treeAt dest name :=
    fun b t hne => treeAt_congr (lookup_onDest_write t hne)
  cases h with
  | remove b t hthere => exact hwrite b t hname
  | make b st hb => exact hwrite b _ hname
  | copy b st choice t st' hstep => exact hwrite b t hname
  | victim b victim rest t hthere => exact hwrite victim t hname
  | link b pc effect next hstep => exact treeAt_symlinkStep hstep name
  | _ => rfl

end YikvServer.Artifact
