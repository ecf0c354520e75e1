import YikvServer.Agent.Deploy

/-!
# What is served during a deployment

While no statement takes anything away from what is served, `active` and
`SERVER_DB/<table>` lead to an existing directory at every moment of a deployment or a
switch. `link_server_table` takes the link away before it makes the new one.
-/
namespace YikvServer.Agent

open YikvServer.Theory YikvServer.Theory.FileTree YikvServer.Artifact

variable {β : Type} {P : Provider β} {store : Store β} {config : ServerConfig}
  {old host host' : Host β} {dest dest' : Dest β} {name b v : String} {links : Nat}

/-! ## Links -/

theorem follow_isSome (h : follow links dest name = some v) : (treeAt dest v).isSome = true := by
  induction links generalizing name with
  | zero => cases h
  | succ links ih =>
    simp only [follow] at h
    split at h
    · next t hdir =>
      obtain rfl := Option.some.inj h
      rw [treeAt, hdir]
      rfl
    · exact ih h
    · cases h

theorem follow_congr (h : ∀ x, dest'.lookup x = dest.lookup x) :
    follow links dest' name = follow links dest name := by
  induction links generalizing name with
  | zero => rfl
  | succ links ih =>
    simp only [follow, h name]
    split
    · rfl
    · exact ih
    · rfl

/-- A change under one name, which is no link, does not lead away from another. -/
theorem follow_frame (hother : ∀ x, x ≠ b → dest'.lookup x = dest.lookup x)
    (hlink : ∀ target, dest.lookup b ≠ some (.link target)) (hv : v ≠ b)
    (h : follow links dest name = some v) : follow links dest' name = some v := by
  induction links generalizing name with
  | zero => cases h
  | succ links ih =>
    have hname : name ≠ b := by
      rintro rfl
      simp only [follow] at h
      split at h
      · exact hv (Option.some.inj h).symm
      · next target heq => exact hlink target heq
      · cases h
    simp only [follow, hother name hname]
    simp only [follow] at h
    split at h
    · exact h
    · exact ih h
    · cases h

/-- Where `active` is switched to a directory, every name leads on, or there. -/
theorem follow_relink (hother : ∀ x, x ≠ "active" → dest'.lookup x = dest.lookup x)
    (hlink : dest'.lookup "active" = some (.link b)) (hactive : treeAt dest "active" = none)
    (hb : (treeAt dest' b).isSome = true) (h : follow links dest name = some v) :
    follow links dest' name = some v ∨ follow links dest' name = some b := by
  induction links generalizing name with
  | zero => cases h
  | succ links ih =>
    by_cases hname : name = "active"
    · subst hname
      right
      simp only [follow] at h
      split at h
      · next t hdir =>
        rw [treeAt, hdir] at hactive
        cases hactive
      · cases links with
        | zero => cases h
        | succ links =>
          simp only [follow, hlink]
          unfold treeAt at hb
          split at hb
          · next t hdir => rw [hdir]
          · cases hb
      · cases h
    · simp only [follow, hother name hname]
      simp only [follow] at h
      split at h
      · exact Or.inl h
      · exact ih h
      · cases h

theorem treeAt_none_of_link (h : (treeAt dest b).isSome = true) (target : String) :
    dest.lookup b ≠ some (.link target) := by
  intro hlink
  rw [treeAt_link hlink] at h
  cases h

/-! ## Invariant -/

/-- Every served path leads where it led. -/
def Before (old : Host β) (dest : Dest β) : Prop :=
  ∀ name ∈ old.roots, resolve dest name = resolve old.dest name

/-- Every served path leads where it led, or to the build that has been switched to. -/
def After (old : Host β) (dest : Dest β) (b : String) : Prop :=
  ∀ name ∈ old.roots, resolve dest name = resolve old.dest name ∨ resolve dest name = some b

/-- The build that is being switched to is there, and is never linked to itself. -/
def LinkHold (old : Host β) (dest : Dest β) (b : String) : LinkPc → Prop
  | .clear => Before old dest ∧ (treeAt dest b).isSome = true
  | .link => Before old dest ∧ (treeAt dest b).isSome = true
  | .replace => Before old dest ∧ (treeAt dest b).isSome = true ∧
    Before old (dest.erase "active.tmp") ∧ dest.lookup "active.tmp" = some (.link b)

/-- What a pull has in hand is not served. -/
def PullHold (old : Host β) (dest : Dest β) {St : Type} : PullPc St → Prop
  | .remove b => Before old dest ∧ ¬ old.Serves b
  | .scan b => Before old dest ∧ ¬ old.Serves b
  | .make b _ => Before old dest ∧ ¬ old.Serves b
  | .copy b _ => Before old dest ∧ ¬ old.Serves b ∧ (treeAt dest b).isSome = true
  | .prune b => Before old dest ∧ (treeAt dest b).isSome = true
  | .pruning b rest => Before old dest ∧ (treeAt dest b).isSome = true ∧
    ∀ victim ∈ rest, victim ≠ b ∧ ¬ old.Serves victim
  | .link b pc => LinkHold old dest b pc
  | .print b => After old dest b
  | .done b => After old dest b
  | _ => Before old dest

def Hold (old : Host β) (dest : Dest β) {St : Type} : RequestPc St → Prop
  | .pull args pc => args.switchActive = true ∧ PullHold old dest pc
  | .switch _ => Before old dest
  | .link b pc => LinkHold old dest b pc
  | .config b => After old dest b
  | .unlink b => After old dest b
  | .symlink b => After old dest b
  | .reload b => After old dest b
  | .answered b => After old dest b
  | .failed none => Before old dest
  | .failed (some b) => After old dest b

structure Standing (old : Host β) {St : Type} (s : Host β × RequestPc St) : Prop where
  served : s.1.served = old.served
  kept : ∀ v, old.Serves v → treeAt s.1.dest v = treeAt old.dest v
  hold : Hold old s.1.dest s.2

theorem Before.serves_iff (h : Before old host.dest) (hserved : host.served = old.served) :
    host.Serves v ↔ old.Serves v := by
  have hroot : ∀ name, name ∈ host.roots ↔ name ∈ old.roots := fun name => by
    rw [Host.roots, hserved]
    rfl
  constructor
  · rintro ⟨name, hname, hv⟩
    exact ⟨name, (hroot name).mp hname, (h name ((hroot name).mp hname)).symm.trans hv⟩
  · rintro ⟨name, hname, hv⟩
    exact ⟨name, (hroot name).mpr hname, (h name hname).trans hv⟩

/-- A change under a name that is not served. -/
theorem Before.frame (hold : old.Deployed) (h : Before old dest)
    (hother : ∀ x, x ≠ b → dest'.lookup x = dest.lookup x)
    (hlink : ∀ target, dest.lookup b ≠ some (.link target)) (hb : ¬ old.Serves b) :
    Before old dest' := by
  intro name hname
  obtain ⟨v, hv⟩ := Option.isSome_iff_exists.mp (hold.resolves name hname)
  rw [hv]
  refine follow_frame hother hlink ?_ ((h name hname).trans hv)
  rintro rfl
  exact hb ⟨name, hname, hv⟩

/-! ## Steps -/

section Steps
variable {effect : Effect β} {args : PullArgs} {pc pc' : PullPc P.down.St}

/-- A step of `_atomic_symlink`. -/
theorem LinkHold.step {pc : LinkPc} {next : Option LinkPc} (hold : old.Deployed)
    (h : LinkHold old dest b pc)
    (hdirect : pc = .clear → ∀ name ∈ old.roots,
      resolve (dest.erase "active.tmp") name = resolve dest name)
    (hstep : symlinkStep dest b pc = some (effect, next)) :
    (∀ pc', next = some pc' → LinkHold old (effect.onDest dest) b pc') ∧
      (next = none → After old (effect.onDest dest) b) := by
  have htree := treeAt_symlinkStep hstep b
  cases pc with
  | clear =>
    obtain ⟨hbefore, hb⟩ := h
    simp only [symlinkStep] at hstep
    split at hstep
    · cases hstep
      refine ⟨fun pc' hpc => ?_, fun hnone => by cases hnone⟩
      obtain rfl := Option.some.inj hpc
      exact ⟨fun name hname => (hdirect rfl name hname).trans (hbefore name hname),
        (congrArg Option.isSome htree).trans hb⟩
    · cases hstep
    · cases hstep
      refine ⟨fun pc' hpc => ?_, fun hnone => by cases hnone⟩
      obtain rfl := Option.some.inj hpc
      exact ⟨hbefore, hb⟩
  | link =>
    obtain ⟨hbefore, hb⟩ := h
    simp only [symlinkStep] at hstep
    split at hstep
    · cases hstep
    · next htmp =>
      cases hstep
      refine ⟨fun pc' hpc => ?_, fun hnone => by cases hnone⟩
      obtain rfl := Option.some.inj hpc
      have hnone : dest.lookup "active.tmp" = none := AList.lookup_eq_none.mpr htmp
      have hserves : ¬ old.Serves "active.tmp" := by
        rintro ⟨name, hname, hv⟩
        have hsome := follow_isSome ((hbefore name hname).trans hv)
        rw [treeAt, hnone] at hsome
        cases hsome
      refine ⟨hbefore.frame hold (fun x hx => AList.lookup_insert_ne hx) ?_ hserves,
        (congrArg Option.isSome htree).trans hb, fun name hname => ?_, AList.lookup_insert dest⟩
      · rintro target
        rw [hnone]
        exact Option.some_ne_none _ ∘ Eq.symm
      · refine (follow_congr fun x => ?_).trans (hbefore name hname)
        by_cases hx : x = "active.tmp"
        · subst hx
          rw [AList.lookup_erase, hnone]
        · exact (AList.lookup_erase_ne hx).trans (AList.lookup_insert_ne hx)
  | replace =>
    obtain ⟨-, hb, hbefore, hlink⟩ := h
    simp only [symlinkStep] at hstep
    split at hstep
    · cases hstep
    · next target htmp hactive =>
      cases hstep
      refine ⟨fun pc' hpc => (by cases hpc), fun _ name hname => ?_⟩
      obtain ⟨v, hv⟩ := Option.isSome_iff_exists.mp (hold.resolves name hname)
      have hdest : (Effect.replace "active.tmp" "active").onDest dest =
          (dest.erase "active.tmp").insert "active" (.link b) := by
        simp only [Effect.onDest, hlink]
      rw [hdest] at htree ⊢
      rw [hv]
      refine follow_relink (fun x hx => AList.lookup_insert_ne hx) (AList.lookup_insert _) ?_
        ((congrArg Option.isSome htree).trans hb) ((hbefore name hname).trans hv)
      rw [treeAt_congr (AList.lookup_erase_ne (by decide)), treeAt]
      split
      · next t hdir => exact absurd hdir (hactive t)
      · rfl
    · cases hstep

/-- A pull writes nothing that is served. -/
theorem PullHold.writes (h : PullHold old dest pc)
    (hturn : PullTurn P args store dest pc effect pc') (hb : effect.writes b) : ¬ old.Serves b := by
  cases hturn with
  | remove r t hthere =>
    obtain rfl := hb
    exact h.2
  | make r st hnew =>
    obtain rfl := hb
    exact h.2
  | copy r st choice t st' hstep =>
    obtain rfl := hb
    exact h.2.1
  | copied r st hend =>
    obtain rfl := hb
    exact h.2.1
  | victim r victim rest t hthere =>
    obtain rfl := hb
    exact (h.2.2 _ List.mem_cons_self).2
  | link r pc effect next hstep => exact absurd hb (not_writes_symlinkStep hstep)
  | _ => exact hb.elim

/-- A turn of a pull that takes nothing away. -/
theorem PullHold.step (hold : old.Deployed) (hserved : host.served = old.served)
    (hswitch : args.switchActive = true) (h : PullHold old host.dest pc)
    (hsafe : host.Safe (.pull args pc)) (hturn : PullTurn P args store host.dest pc effect pc') :
    PullHold old (effect.onDest host.dest) pc' := by
  have hwrite : ∀ (b : String) (t : Option (DirTree β)), Before old host.dest →
      (∀ target, host.dest.lookup b ≠ some (.link target)) → ¬ old.Serves b →
      Before old ((Effect.write b t).onDest host.dest) := fun b t hbefore hlink hb =>
    hbefore.frame hold (fun x hx => lookup_onDest_write t hx) hlink hb
  cases hturn with
  | resolve pc' hpc =>
    rcases hpc with rfl | ⟨r, rfl | rfl⟩ <;> exact h
  | isDir r => exact h
  | fail pc hpc =>
    cases pc with
    | isDir r => exact h
    | make r st => exact h.1
    | copy r st => exact h.1
    | _ => exact hpc.elim
  | skip r hdir hforce => exact ⟨h, hsafe.2 hdir⟩
  | goOn r => exact h
  | refresh r hdir => exact ⟨h, fun hr => hsafe hdir ((h.serves_iff hserved).mpr hr)⟩
  | fresh r hnone =>
    refine ⟨h, fun ⟨name, hname, hr⟩ => ?_⟩
    have hdir := isDirectory_of_treeAt (follow_isSome ((h name hname).trans hr))
    exact Bool.false_ne_true (hnone.symm.trans hdir)
  | remove r t hthere =>
    have hbefore := hwrite r t h.1 (treeAt_none_of_link hthere) h.2
    cases t with
    | none => exact ⟨hbefore, h.2⟩
    | some t => exact ⟨hbefore, h.2⟩
  | scan r order st hst => exact h
  | make r st hnew =>
    have hlink : ∀ target, host.dest.lookup r ≠ some (.link target) := fun target => by
      rw [AList.lookup_eq_none.mpr hnew]
      exact Option.some_ne_none _ ∘ Eq.symm
    refine ⟨hwrite r (some ∅) h.1 hlink h.2, h.2, ?_⟩
    rw [treeAt_write]
    rfl
  | copy r st choice t st' hstep =>
    obtain ⟨hbefore, hr, hthere⟩ := h
    obtain ⟨u, hu⟩ := Option.isSome_iff_exists.mp hthere
    rw [hu] at hstep
    obtain ⟨u', rfl⟩ := P.down.keeps hstep
    refine ⟨hwrite r (some u') hbefore (treeAt_none_of_link hthere) hr, hr, ?_⟩
    rw [treeAt_write]
    rfl
  | copied r st hend => exact ⟨h.1, h.2.2⟩
  | prune r =>
    refine ⟨h.1, h.2, fun victim hmem => ?_⟩
    obtain ⟨hne, hserves⟩ := hsafe victim hmem
    exact ⟨hne, fun hv => hserves ((h.1.serves_iff hserved).mpr hv)⟩
  | victim r victim rest t hthere =>
    obtain ⟨hbefore, hr, hrest⟩ := h
    obtain ⟨hne, hserves⟩ := hrest victim List.mem_cons_self
    refine ⟨hwrite victim t hbefore (treeAt_none_of_link hthere) hserves, ?_, fun x hx => ?_⟩
    · rw [treeAt_congr (lookup_onDest_write t (Ne.symm hne))]
      exact hr
    · refine hrest x ?_
      cases t with
      | none => exact List.mem_cons_of_mem _ hx
      | some t => exact hx
  | pruned r pc' hpc =>
    rcases hpc with ⟨-, rfl⟩ | ⟨hno, rfl⟩
    · exact ⟨h.1, h.2.1⟩
    · exact absurd (hno.symm.trans hswitch) Bool.false_ne_true
  | link r pc effect next hstep =>
    have hroot : ∀ name ∈ old.roots, name ∈ host.roots := fun name hname => by
      rw [Host.roots, hserved]
      exact hname
    obtain ⟨hsome, hnone⟩ := LinkHold.step hold h
      (fun hpc name hname => by subst hpc; exact hsafe name (hroot name hname)) hstep
    cases next with
    | none => exact hnone rfl
    | some pc' => exact hsome pc' rfl
  | exit r => exact h

/-- A statement that takes nothing away. -/
theorem Standing.step {s s' : Host β × RequestPc P.down.St} {choice : List Path}
    (hold : old.Deployed) (h : Standing old s) (hsafe : s.1.Safe s.2)
    (hstep : Request.step P store config s choice = some s') : Standing old s' := by
  obtain ⟨host, pc⟩ := s
  obtain ⟨hserved, hkept, hhold⟩ := h
  have hkeptFrame : ∀ {effect : Effect β}, (∀ v, ¬ (effect.writes v ∧ old.Serves v)) →
      (∀ v, ¬ effect.writes v → treeAt (effect.onDest host.dest) v = treeAt host.dest v) →
      ∀ v, old.Serves v → treeAt (effect.onDest host.dest) v = treeAt old.dest v :=
    fun hfree hframe v hv => (hframe v fun hw => hfree v ⟨hw, hv⟩).trans (hkept v hv)
  cases pc with
  | pull args pc =>
    obtain ⟨hswitch, hpull⟩ := hhold
    have hturns : ∀ {effect pc'}, PullTurn P args store host.dest pc effect pc' →
        Standing old ({ host with dest := effect.onDest host.dest },
          (.pull args pc' : RequestPc P.down.St)) := fun hturn =>
      ⟨hserved,
        hkeptFrame (fun v hv => hpull.writes hturn hv.1 hv.2) fun v hv => hturn.treeAt_eq hv,
        hswitch, hpull.step hold hserved hswitch hsafe hturn⟩
    rcases Request.step_pull hstep with ⟨effect, pc', hturn, rfl⟩ | ⟨b, rfl, rfl | rfl⟩ | ⟨rfl, rfl⟩
    · exact hturns (pullTurn hturn)
    · exact ⟨hserved, hkept, hpull⟩
    · exact ⟨hserved, hkept, hpull⟩
    · exact ⟨hserved, hkept, hpull⟩
  | switch buildId =>
    simp only [Request.step] at hstep
    split at hstep
    · next b hb =>
      obtain rfl := Option.some.inj hstep
      exact ⟨hserved, hkept, hhold, (hsafe.2 b hb).2⟩
    · obtain rfl := Option.some.inj hstep
      exact ⟨hserved, hkept, hhold⟩
  | link b pc =>
    obtain ⟨⟨effect, next⟩, hturn, rfl⟩ := Option.map_eq_some_iff.mp hstep
    have hroot : ∀ name ∈ old.roots, name ∈ host.roots := fun name hname => by
      rw [Host.roots, hserved]
      exact hname
    obtain ⟨hsome, hnone⟩ := LinkHold.step hold hhold
      (fun hpc name hname => by subst hpc; exact hsafe name (hroot name hname)) hturn
    refine ⟨hserved, hkeptFrame (fun v hv => not_writes_symlinkStep hturn hv.1)
      fun v _ => treeAt_symlinkStep hturn v, ?_⟩
    cases next with
    | none => exact hnone rfl
    | some pc' => exact hsome pc' rfl
  | config b =>
    obtain rfl := Option.some.inj hstep
    refine ⟨hserved, hkept, ?_⟩
    show Hold old host.dest (if config = .matching then .unlink b else .failed (some b))
    split
    · exact hhold
    · exact hhold
  | unlink b =>
    simp only [Request.step] at hstep
    rw [if_pos (show host.served = some .directory from hsafe)] at hstep
    cases hstep
  | symlink b =>
    have hsome : host.served.isSome = true := by
      rw [show host.served = old.served from hserved]
      exact Option.isSome_iff_ne_none.mpr hold.served
    simp only [Request.step] at hstep
    rw [if_pos hsome] at hstep
    cases hstep
  | reload b =>
    obtain rfl := Option.some.inj hstep
    exact ⟨hserved, hkept, hhold⟩
  | answered b => cases hstep
  | failed b => cases hstep

/-- Served paths lead where they led, unless the build has been switched to. -/
theorem Hold.cases {pc : RequestPc P.down.St} (h : Hold old dest pc) :
    Before old dest ∨ ∃ b, pc.build = some b ∧ After old dest b := by
  cases pc with
  | pull args pc =>
    have hpull := h.2
    cases pc with
    | resolve => exact Or.inl hpull
    | isDir b => exact Or.inl hpull
    | skip b => exact Or.inl hpull
    | clear b => exact Or.inl hpull
    | failed => exact Or.inl hpull
    | link b pc => cases pc <;> exact Or.inl hpull.1
    | print b => exact Or.inr ⟨b, rfl, hpull⟩
    | done b => exact Or.inr ⟨b, rfl, hpull⟩
    | _ => exact Or.inl hpull.1
  | switch buildId => exact Or.inl h
  | link b pc => cases pc <;> exact Or.inl h.1
  | failed b =>
    cases b with
    | none => exact Or.inl h
    | some b => exact Or.inr ⟨b, rfl, h⟩
  | config b => exact Or.inr ⟨b, rfl, h⟩
  | unlink b => exact Or.inr ⟨b, rfl, h⟩
  | symlink b => exact Or.inr ⟨b, rfl, h⟩
  | reload b => exact Or.inr ⟨b, rfl, h⟩
  | answered b => exact Or.inr ⟨b, rfl, h⟩

theorem Standing.live {s : Host β × RequestPc P.down.St} (hold : old.Deployed)
    (h : Standing old s) : Host.Live old s.1 s.2.build where
  served := by
    rw [h.served]
    exact hold.served
  resolves name hname := by
    have hroot : name ∈ old.roots := by
      rw [Host.roots, h.served] at hname
      exact hname
    obtain ⟨v, hv⟩ := Option.isSome_iff_exists.mp (hold.resolves name hroot)
    have hserves : old.Serves v := ⟨name, hroot, hv⟩
    rcases h.hold.cases with hbefore | ⟨b, hb, hafter⟩
    · exact ⟨v, (hbefore name hroot).trans hv, Or.inr ⟨hserves, h.kept v hserves⟩⟩
    · rcases hafter name hroot with hsame | hnew
      · exact ⟨v, hsame.trans hv, Or.inr ⟨hserves, h.kept v hserves⟩⟩
      · exact ⟨b, hnew, Or.inl hb⟩

end Steps

/-- In every run of a request whose statements take nothing away from what is served, at
every moment `active` and `SERVER_DB/<table>` lead to a version that was served before or
to the build being deployed. -/
theorem request_live (P : Provider β) (store : Store β) (config : ServerConfig)
    (request : Request) (old : Host β) (hold : old.Deployed) (moves : List (List Path))
    (host : Host β) (pc : RequestPc P.down.St)
    (hrun : Runs.exec (Request.step P store config) (old, request.start) moves = some (host, pc))
    (hsafe : Runs.Guarded (Request.step P store config) (fun s _ => s.1.Safe s.2)
      (old, request.start) moves) : Host.Live old host pc.build := by
  have hstart : Standing old (old, (request.start : RequestPc P.down.St)) := by
    refine ⟨rfl, fun _ _ => rfl, ?_⟩
    cases request with
    | deployIndex buildId forceRefresh maxLocalVersions => exact ⟨rfl, fun _ _ => rfl⟩
    | switchReloadIndex buildId => exact fun _ _ => rfl
  exact (Runs.guarded_invariant (P := Standing old)
    (fun _ _ _ h hs hstep => h.step hold hs hstep) hsafe hrun hstart).live hold

/-- The link of the table has been made. -/
def RequestPc.Linked {St : Type} : RequestPc St → Prop
  | .reload _ => True
  | .answered _ => True
  | _ => False

/-- The link is made where there is none. -/
theorem linked_step {s s' : Host β × RequestPc P.down.St} {choice : List Path}
    (hstep : Request.step P store config s choice = some s') (h : s'.2.Linked) :
    s.2.Linked ∨ s.1.served = none := by
  obtain ⟨host, pc⟩ := s
  cases pc with
  | reload b => exact Or.inl trivial
  | symlink b =>
    right
    simp only [Request.step] at hstep
    split at hstep
    · cases hstep
    · next hnone => exact Option.not_isSome_iff_eq_none.mp hnone
  | pull args pc =>
    rcases Request.step_pull hstep with ⟨effect, pc', -, rfl⟩ | ⟨b, -, rfl | rfl⟩ | ⟨-, rfl⟩
    · exact h.elim
    · exact h.elim
    · exact h.elim
    · exact h.elim
  | switch buildId =>
    simp only [Request.step] at hstep
    split at hstep
    · obtain rfl := Option.some.inj hstep
      exact h.elim
    · obtain rfl := Option.some.inj hstep
      exact h.elim
  | link b pc =>
    obtain ⟨⟨effect, next⟩, -, rfl⟩ := Option.map_eq_some_iff.mp hstep
    cases next with
    | none => exact h.elim
    | some pc' => exact h.elim
  | config b =>
    obtain rfl := Option.some.inj hstep
    split at h
    · exact h.elim
    · exact h.elim
  | unlink b =>
    simp only [Request.step] at hstep
    split at hstep
    · cases hstep
    · obtain rfl := Option.some.inj hstep
      exact h.elim
  | answered b => cases hstep
  | failed b => cases hstep

/-- A request that is answered has gone through a moment without `SERVER_DB/<table>`. -/
theorem answered_gap {request : Request} {moves : List (List Path)}
    (hrun : Runs.exec (Request.step P store config) (old, request.start) moves =
      some (host, .answered b)) :
    ∃ before mid, before <+: moves ∧
      Runs.exec (Request.step P store config) (old, request.start) before = some mid ∧
      mid.1.served = none := by
  refine Runs.exec_passes (P := fun s => s.2.Linked) (fun _ _ _ hstep h => linked_step hstep h)
    hrun ?_ trivial
  cases request with
  | deployIndex buildId forceRefresh maxLocalVersions => exact id
  | switchReloadIndex buildId => exact id

section Examples

instance (host : Host β) (v : String) : Decidable (host.Serves v) :=
  inferInstanceAs (Decidable (∃ name ∈ host.roots, resolve host.dest name = some v))

instance (host : Host β) : Decidable host.Direct :=
  inferInstanceAs (Decidable (∀ name ∈ host.roots, _ = _))

instance {St : Type} (host : Host β) (pc : RequestPc St) : Decidable (host.Safe pc) := by
  unfold Host.Safe
  split <;> infer_instance

/-- Versions 10 and 20, of which the older one is served. -/
def rolledBack : Host Nat where
  dest := ((((∅ : Dest Nat).insert "10" (.dir ∅)).insert "20" (.dir ∅)).insert "active"
    (.link "10"))
  served := some (.release "active")

theorem rolledBack_deployed : rolledBack.Deployed := ⟨by decide, by decide⟩

def newBuild : Store Nat := (∅ : Store Nat).insert "30" ∅

theorem missingConfig_live : ∃ host : Host Nat,
    Runs.exec (Request.step .localDir newBuild .missing)
      (rolledBack, (Request.deployIndex none false 0).start) (List.replicate 16 []) =
        some (host, .failed (some "30")) ∧ rolledBack.Live host (some "30") := by
  obtain ⟨host, hrun⟩ : ∃ host : Host Nat,
      Runs.exec (Request.step .localDir newBuild .missing)
        (rolledBack, (Request.deployIndex none false 0).start) (List.replicate 16 []) =
          some (host, .failed (some "30")) := ⟨_, rfl⟩
  exact ⟨host, hrun, request_live .localDir newBuild .missing (.deployIndex none false 0)
    rolledBack rolledBack_deployed _ host _ hrun (by decide)⟩

/-- A moment of a request at which a table that was deployed is not served. -/
def Dangles (old : Host Nat) (config : ServerConfig) (request : Request) : Prop :=
  old.Deployed ∧ ∃ moves host pc,
    Runs.exec (Request.step .localDir newBuild config) (old, request.start) moves =
      some (host, pc) ∧ ¬ old.Live host pc.build

/-- With the default of two versions, a deployment prunes version 10; a switch to 20 takes
the table's link away. -/
theorem deploy_switch_dangle :
    Dangles rolledBack .missing (.deployIndex none false 2) ∧
      Dangles rolledBack .matching (.switchReloadIndex (some "20")) := by
  constructor
  · refine ⟨rolledBack_deployed, List.replicate 10 [], _, _, rfl, ?_⟩
    rintro ⟨-, hresolves⟩
    obtain ⟨v, hv, -⟩ := hresolves "active" List.mem_cons_self
    cases hv
  · refine ⟨rolledBack_deployed, List.replicate 6 [], _, _, rfl, ?_⟩
    rintro ⟨hserved, -⟩
    exact hserved rfl

end Examples
end YikvServer.Agent
