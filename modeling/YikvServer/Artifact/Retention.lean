import YikvServer.Artifact.Turns
import YikvServer.Theory.Newest

/-!
# Retention

What `_prune_local_versions` leaves under `--dest`. Whatever its second loop adds to the
newest names it takes away again, so it keeps the newest names and no others: the build
just pulled stays when it is one of them.
-/
namespace YikvServer.Artifact

open YikvServer.Theory YikvServer.Theory.FileTree YikvServer.Theory.Newest

variable {β : Type}

/-- One pull alone on its `--dest`; the store is as others leave it at each step. -/
def pullAlone (P : Provider β) (args : PullArgs) (s : Dest β × PullPc P.down.St)
    (move : Store β × List Path) : Option (Dest β × PullPc P.down.St) :=
  (pullStep P args move.1 s.1 move.2 s.2).map fun (effect, pc) => (effect.onDest s.1, pc)

/-- `must_keep` stays, with the greatest of the others, at most `keep_n` in all; what is no
version is left alone. -/
structure Retained (keepN : Nat) (mustKeep : String) (dest dest' : Dest β) : Prop where
  kept : dest'.lookup mustKeep = dest.lookup mustKeep
  few : ((versionDirs dest).filter (· ∈ dest')).length ≤ keepN
  newest : ∀ v ∈ versionDirs dest, v ∈ dest' → v ≠ mustKeep →
    ∀ w ∈ versionDirs dest, w ∉ dest' → w < v
  others : ∀ name, name ∉ versionDirs dest → dest'.lookup name = dest.lookup name

/-- Fewer than `keep_n` versions are newer. -/
def Room (keepN : Nat) (mustKeep : String) (dest : Dest β) : Prop :=
  ((versionDirs dest).filter (mustKeep < ·)).length < keepN

instance (keepN : Nat) (b : String) (dest : Dest β) : Decidable (Room keepN b dest) :=
  inferInstanceAs (Decidable (_ < _))

/-- A build that a pull of it leaves in place: it is no version, or there is room for it,
and it is not in the way of the link. -/
def Stays (args : PullArgs) (b : String) (dest : Dest β) : Prop :=
  (0 < args.maxLocalVersions → b ∈ versionDirs dest → Room args.maxLocalVersions.toNat b dest) ∧
    (args.switchActive = true → b ≠ "active" ∧ b ≠ "active.tmp")

variable {P : Provider β} {args : PullArgs} {dest dest' dest₁ : Dest β} {b name : String}
  {versions : List String} {keepN : Nat} {s s' : Dest β × PullPc P.down.St}
  {move : Store β × List Path} {effect : Effect β} {next : Option LinkPc}

/-! ## The names that are kept -/

/-- The last of the kept names is evicted when there is one too many. -/
theorem evict_least (h : ∀ v ∈ versions, b < v) : evict 1 (b :: versions) = versions := by
  have hmin : (b :: versions).min? = some b := by
    refine List.min?_eq_some_iff.mpr ⟨List.mem_cons_self, fun v hv => ?_⟩
    rcases List.mem_cons.mp hv with rfl | hv
    · exact le_refl _
    · exact (h v hv).le
  simp [evict, hmin]

/-- The two loops keep the newest names, whether `must_keep` is one of them or not. -/
theorem keepSet_eq (hversions : versions.Nodup) (hb : b ∈ versions) :
    keepSet versions keepN b = newest keepN versions := by
  have hkeep : keepSet versions keepN b =
      let keep := if b ∈ newest keepN versions then newest keepN versions
        else b :: newest keepN versions
      evict (keep.length - keepN) keep := by
    unfold keepSet
    rw [if_pos hb]
    rfl
  rw [hkeep]
  dsimp only
  have hlen : (newest keepN versions).length ≤ keepN :=
    (length_newest keepN versions).trans_le (Nat.min_le_left _ _)
  by_cases hmem : b ∈ newest keepN versions
  · rw [if_pos hmem, Nat.sub_eq_zero_of_le hlen]
    rfl
  · rw [if_neg hmem, List.length_cons, length_newest_of_not_mem hb hmem, Nat.add_sub_cancel_left]
    exact evict_least fun v hv => lt_of_not_mem_newest hversions hv hb hmem

theorem mem_victims (hversions : versions.Nodup) (hb : b ∈ versions)
    (hkeep : 0 < args.maxLocalVersions) {v : String} :
    v ∈ victims versions args.maxLocalVersions b ↔
      v ∈ versions ∧ v ∉ newest args.maxLocalVersions.toNat versions := by
  rw [victims, if_neg (not_le.mpr hkeep), keepSet_eq hversions hb]
  simp

theorem versionDirs_nodup (dest : Dest β) : (versionDirs dest).Nodup :=
  dest.nodupKeys.filter _

theorem mem_of_mem_versionDirs (h : b ∈ versionDirs dest) : b ∈ dest :=
  AList.mem_keys.mpr (List.mem_of_mem_filter h)

/-! ## The loop that removes -/

/-- From `dest₁` to `dest` the names in `gone` are removed, and at most those in `except`
are otherwise changed. -/
def Removed (dest₁ dest : Dest β) (gone except : List String) : Prop :=
  ∀ name ∉ except, dest.lookup name = if name ∈ gone then none else dest₁.lookup name

/-- What a pull that pruned `dest₁` leaves when it is through. -/
def Settled (args : PullArgs) (dest₁ dest : Dest β) (b : String) : Prop :=
  if args.switchActive = true then
    Removed dest₁ dest (victims (versionDirs dest₁) args.maxLocalVersions b)
        ["active", "active.tmp"] ∧
      dest.lookup "active" = some (.link b) ∧ dest.lookup "active.tmp" = none
  else Removed dest₁ dest (victims (versionDirs dest₁) args.maxLocalVersions b) []

/-- A pull that prunes `dest₁`, and after that. -/
def Pruned (args : PullArgs) (dest₁ : Dest β) (b : String) {St : Type} :
    Dest β × PullPc St → Prop
  | (dest, .prune r) => r = b ∧ dest = dest₁
  | (dest, .pruning r rest) => r = b ∧
    rest ⊆ victims (versionDirs dest₁) args.maxLocalVersions b ∧
    Removed dest₁ dest (victims (versionDirs dest₁) args.maxLocalVersions b) rest
  | (dest, .link r pc) => r = b ∧ args.switchActive = true ∧
    Removed dest₁ dest (victims (versionDirs dest₁) args.maxLocalVersions b)
      ["active", "active.tmp"] ∧
    (pc = .replace → dest.lookup "active.tmp" = some (.link b))
  | (dest, .print r) => r = b ∧ Settled args dest₁ dest b
  | (dest, .done r) => r = b ∧ Settled args dest₁ dest b
  | _ => False

/-- The last step of a switch makes `active` what `active.tmp` was. -/
theorem lookup_replace {target old : String}
    (h : symlinkStep dest target .replace = some (effect, next))
    (htmp : dest.lookup "active.tmp" = some (.link old)) :
    next = none ∧ (effect.onDest dest).lookup "active" = some (.link old) ∧
      (effect.onDest dest).lookup "active.tmp" = none := by
  have heffect : effect = .replace "active.tmp" "active" ∧ next = none := by
    simp only [symlinkStep, htmp] at h
    split at h
    · cases h
    · cases h
      exact ⟨rfl, rfl⟩
    · cases h
  obtain ⟨rfl, rfl⟩ := heffect
  have hdest : (Effect.replace "active.tmp" "active").onDest dest =
      (dest.erase "active.tmp").insert "active" (.link old) := by
    simp only [Effect.onDest, htmp]
  rw [hdest]
  refine ⟨rfl, AList.lookup_insert _, ?_⟩
  rw [AList.lookup_insert_ne (by decide), AList.lookup_erase]

/-- Before its last step a switch has made `active.tmp`. -/
theorem lookup_tmp {target : String} {pc : LinkPc}
    (h : symlinkStep dest target pc = some (effect, some .replace)) :
    (effect.onDest dest).lookup "active.tmp" = some (.link target) := by
  cases pc with
  | clear =>
    simp only [symlinkStep] at h
    split at h <;> cases h
  | link =>
    simp only [symlinkStep] at h
    split at h
    · cases h
    · cases h
      exact AList.lookup_insert _
  | replace =>
    simp only [symlinkStep] at h
    split at h <;> cases h

/-- Only the last step of a switch ends it. -/
theorem symlinkStep_last {target : String} {pc : LinkPc}
    (h : symlinkStep dest target pc = some (effect, none)) : pc = .replace := by
  cases pc with
  | replace => rfl
  | clear =>
    simp only [symlinkStep] at h
    split at h <;> cases h
  | link =>
    simp only [symlinkStep] at h
    split at h <;> cases h

theorem Pruned.step (h : Pruned args dest₁ b s) (hstep : pullAlone P args s move = some s') :
    Pruned args dest₁ b s' := by
  obtain ⟨dest, pc⟩ := s
  obtain ⟨⟨effect, pc'⟩, hturn, rfl⟩ := Option.map_eq_some_iff.mp hstep
  cases pullTurn hturn with
  | prune r =>
    obtain ⟨rfl, rfl⟩ := h
    exact ⟨rfl, fun _ hv => hv, fun name hname => (if_neg hname).symm⟩
  | victim r victim rest t hthere =>
    obtain ⟨hr, hsub, hlookup⟩ := h
    cases t with
    | some t =>
      refine ⟨hr, hsub, fun name hname => ?_⟩
      rw [← hlookup name hname]
      exact lookup_onDest_write _ fun he => hname (he ▸ List.mem_cons_self)
    | none =>
      refine ⟨hr, fun v hv => hsub (List.mem_cons_of_mem _ hv), fun name hname => ?_⟩
      by_cases hvictim : name = victim
      · subst hvictim
        rw [if_pos (hsub List.mem_cons_self)]
        exact AList.lookup_erase _ _
      · rw [← hlookup name fun hmem => (List.mem_cons.mp hmem).elim hvictim hname]
        exact lookup_onDest_write _ hvictim
  | pruned r pc' hpc =>
    obtain ⟨hr, -, hlookup⟩ := h
    rcases hpc with ⟨hswitch, rfl⟩ | ⟨hswitch, rfl⟩
    · exact ⟨hr, hswitch, fun name _ => hlookup name List.not_mem_nil, fun he => nomatch he⟩
    · refine ⟨hr, ?_⟩
      rw [Settled, if_neg (by simp [hswitch])]
      exact hlookup
  | link r pc effect next hlink =>
    obtain ⟨rfl, hswitch, hlookup, htmp⟩ := h
    have hafter : Removed dest₁ (effect.onDest dest)
        (victims (versionDirs dest₁) args.maxLocalVersions r) ["active", "active.tmp"] := by
      intro name hname
      rw [← hlookup name hname]
      simp only [List.mem_cons, List.not_mem_nil, or_false, not_or] at hname
      exact lookup_symlinkStep hlink hname.1 hname.2
    cases next with
    | none =>
      obtain rfl := symlinkStep_last hlink
      refine ⟨rfl, ?_⟩
      rw [Settled, if_pos hswitch]
      exact ⟨hafter, (lookup_replace hlink (htmp rfl)).2⟩
    | some next =>
      refine ⟨rfl, hswitch, hafter, fun he => ?_⟩
      subst he
      exact lookup_tmp hlink
  | exit r => exact h
  | fail pc hexit => cases pc <;> first | exact False.elim h | exact hexit.elim
  | _ => exact False.elim h

theorem Pruned.run {moves : List (Store β × List Path)}
    (hrun : Runs.exec (pullAlone P args) (dest₁, .prune b) moves = some s) :
    Pruned args dest₁ b s :=
  Runs.exec_invariant (fun _ _ _ h hstep => h.step hstep) hrun
    (show Pruned args dest₁ b (dest₁, PullPc.prune b) from ⟨rfl, rfl⟩)

/-! ## The build that was pulled -/

/-- What a pull has pulled is a directory when it comes to prune. -/
def InPlace {St : Type} : Dest β × PullPc St → Prop
  | (dest, .copy b _) => (treeAt dest b).isSome = true
  | (dest, .prune b) => isDirectory dest b = true
  | _ => True

theorem InPlace.step (h : InPlace s) (hstep : pullAlone P args s move = some s') : InPlace s' := by
  obtain ⟨dest, pc⟩ := s
  obtain ⟨⟨effect, pc'⟩, hturn, rfl⟩ := Option.map_eq_some_iff.mp hstep
  cases pullTurn hturn with
  | make r st hnew =>
    show (treeAt _ r).isSome = true
    rw [treeAt_write]
    rfl
  | copy r st choice t st' hcopy =>
    obtain ⟨u, hu⟩ := Option.isSome_iff_exists.mp h
    rw [hu] at hcopy
    obtain ⟨v, rfl⟩ := P.down.keeps hcopy
    show (treeAt _ r).isSome = true
    rw [treeAt_write]
    rfl
  | copied r st hend => exact isDirectory_of_treeAt h
  | skip r hdir hforce => exact hdir
  | resolve pc' hpc =>
    rcases hpc with rfl | ⟨r, rfl | rfl⟩ <;> trivial
  | remove r t hthere => cases t <;> trivial
  | pruned r pc' hpc =>
    rcases hpc with ⟨-, rfl⟩ | ⟨-, rfl⟩ <;> trivial
  | link r pc effect next hlink => cases next <;> trivial
  | _ => trivial

/-- A pull that has pruned. -/
def PullPc.hasPruned {St : Type} (b : String) : PullPc St → Prop
  | .pruning r _ => r = b
  | .link r _ => r = b
  | .print r => r = b
  | .done r => r = b
  | _ => False

theorem hasPruned_step (hstep : pullAlone P args s move = some s') (h : s'.2.hasPruned b) :
    s.2.hasPruned b ∨ s.2 = .prune b := by
  obtain ⟨dest, pc⟩ := s
  obtain ⟨⟨effect, pc'⟩, hturn, rfl⟩ := Option.map_eq_some_iff.mp hstep
  cases pullTurn hturn with
  | prune r => exact Or.inr (congrArg PullPc.prune h)
  | victim r victim rest t hthere => exact Or.inl h
  | pruned r pc' hpc =>
    rcases hpc with ⟨-, rfl⟩ | ⟨-, rfl⟩ <;> exact Or.inl h
  | link r pc effect next hlink => cases next <;> exact Or.inl h
  | exit r => exact Or.inl h
  | resolve pc' hpc =>
    rcases hpc with rfl | ⟨r, rfl | rfl⟩ <;> exact h.elim
  | remove r t hthere => cases t <;> exact h.elim
  | _ => exact h.elim

/-- A name that leads to itself leads to no directory. -/
theorem isDirectory_ne_self (h : isDirectory dest b = true) : dest.lookup b ≠ some (.link b) := by
  intro hself
  have hnone : ∀ links, follow links dest b = none := by
    intro links
    induction links with
    | zero => rfl
    | succ links ih =>
      rw [follow, hself]
      exact ih
  rw [isDirectory, resolve, hnone] at h
  cases h

theorem lookup_of_isDirectory (h : isDirectory dest b = true) : dest.lookup b ≠ none := by
  intro hnone
  rw [isDirectory, resolve, follow, hnone] at h
  cases h

/-- A version is removed when it is not one of the newest. -/
theorem mem_victims_iff :
    b ∈ victims (versionDirs dest) args.maxLocalVersions b ↔
      0 < args.maxLocalVersions ∧ b ∈ versionDirs dest ∧
        ¬ Room args.maxLocalVersions.toNat b dest := by
  by_cases hkeep : 0 < args.maxLocalVersions
  · by_cases hb : b ∈ versionDirs dest
    · rw [mem_victims (versionDirs_nodup dest) hb hkeep,
        mem_newest_iff (versionDirs_nodup dest) hb]
      exact ⟨fun h => ⟨hkeep, hb, h.2⟩, fun h => ⟨hb, h.2.2⟩⟩
    · exact ⟨fun h => absurd (victims_subset h) hb, fun h => absurd h.2.1 hb⟩
  · rw [victims, if_pos (not_lt.mp hkeep)]
    exact ⟨fun h => absurd h List.not_mem_nil, fun h => absurd h.1 hkeep⟩

/-- What pruning leaves when it has removed the victims. -/
theorem retained_iff (hkeep : 0 < args.maxLocalVersions) (hb : b ∈ versionDirs dest)
    (h : Removed dest dest' (victims (versionDirs dest) args.maxLocalVersions b) []) :
    Retained args.maxLocalVersions.toNat b dest dest' ↔
      Room args.maxLocalVersions.toNat b dest := by
  have hnodup := versionDirs_nodup dest
  have hlookup : ∀ name, dest'.lookup name =
      if name ∈ victims (versionDirs dest) args.maxLocalVersions b then none
      else dest.lookup name := fun name => h name List.not_mem_nil
  have hvictim : ∀ v ∈ versionDirs dest, v ∈ dest' ↔
      v ∈ newest args.maxLocalVersions.toNat (versionDirs dest) := by
    intro v hv
    have hgone := mem_victims hnodup hb hkeep (v := v)
    rw [← AList.lookup_isSome, hlookup]
    by_cases hnew : v ∈ newest args.maxLocalVersions.toNat (versionDirs dest)
    · rw [if_neg fun hmem => (hgone.mp hmem).2 hnew]
      exact iff_of_true (AList.lookup_isSome.mpr (mem_of_mem_versionDirs hv)) hnew
    · rw [if_pos (hgone.mpr ⟨hv, hnew⟩)]
      exact iff_of_false Bool.false_ne_true hnew
  rw [Room, ← mem_newest_iff hnodup hb]
  constructor
  · intro hretained
    rw [← hvictim b hb, ← AList.lookup_isSome, hretained.kept]
    exact AList.lookup_isSome.mpr (mem_of_mem_versionDirs hb)
  · intro hnew
    constructor
    case kept =>
      rw [hlookup, if_neg fun hgone => ((mem_victims hnodup hb hkeep).mp hgone).2 hnew]
    case few =>
      have hsub : (versionDirs dest).filter (· ∈ dest') ⊆
          newest args.maxLocalVersions.toNat (versionDirs dest) := fun v hv =>
        have hv := List.mem_filter.mp hv
        (hvictim v hv.1).mp (of_decide_eq_true hv.2)
      calc ((versionDirs dest).filter (· ∈ dest')).length
          ≤ (newest args.maxLocalVersions.toNat (versionDirs dest)).length :=
            (List.subperm_of_subset (hnodup.filter _) hsub).length_le
        _ ≤ args.maxLocalVersions.toNat :=
            (length_newest _ _).trans_le (Nat.min_le_left _ _)
    case newest =>
      intro v hv hthere _ w hw hgone
      exact lt_of_not_mem_newest hnodup ((hvictim v hv).mp hthere) hw
        fun hwnew => hgone ((hvictim w hw).mpr hwnew)
    case others =>
      intro name hname
      rw [hlookup, if_neg fun hgone => hname (victims_subset hgone)]

/-- What a pull leaves under the name of the build that it has pulled. -/
theorem Settled.stays_iff (h : Settled args dest₁ dest b) (hdir : isDirectory dest₁ b = true) :
    dest.lookup b = dest₁.lookup b ↔ Stays args b dest₁ := by
  have hthere : dest₁.lookup b ≠ none := lookup_of_isDirectory hdir
  have hgone : ∀ except, b ∉ except → Removed dest₁ dest
      (victims (versionDirs dest₁) args.maxLocalVersions b) except →
      (dest.lookup b = dest₁.lookup b ↔ (0 < args.maxLocalVersions → b ∈ versionDirs dest₁ →
        Room args.maxLocalVersions.toNat b dest₁)) := by
    intro except hexcept hremoved
    rw [hremoved b hexcept]
    by_cases hmem : b ∈ victims (versionDirs dest₁) args.maxLocalVersions b
    · obtain ⟨hkeep, hb, hroom⟩ := mem_victims_iff.mp hmem
      rw [if_pos hmem]
      exact iff_of_false (fun he => hthere he.symm) fun hall => hroom (hall hkeep hb)
    · rw [if_neg hmem]
      refine iff_of_true rfl fun hkeep hb => ?_
      by_contra hroom
      exact hmem (mem_victims_iff.mpr ⟨hkeep, hb, hroom⟩)
  unfold Settled at h
  split at h
  · next hswitch =>
    obtain ⟨hremoved, hactive, htmp⟩ := h
    by_cases hb : b = "active"
    · subst hb
      refine iff_of_false (fun he => ?_) fun hstays => (hstays.2 hswitch).1 rfl
      exact isDirectory_ne_self hdir (he.symm.trans hactive)
    by_cases hb' : b = "active.tmp"
    · subst hb'
      refine iff_of_false (fun he => ?_) fun hstays => (hstays.2 hswitch).2 rfl
      exact hthere (he.symm.trans htmp)
    rw [hgone _ (by simp [hb, hb']) hremoved, Stays]
    exact (and_iff_left fun _ => ⟨hb, hb'⟩).symm
  · next hswitch =>
    rw [hgone _ List.not_mem_nil h, Stays]
    exact (and_iff_left fun h => absurd h hswitch).symm

/-- Pruning does what it is for exactly when fewer than `keep_n` versions are newer than
`must_keep`; and a pull leaves the build that it has pulled exactly when there is room for
it, or it is no version, and no switch of `active` writes over it. -/
theorem prune_retains_iff (P : Provider β) (args : PullArgs) :
    (∀ (dest dest' : Dest β) (b : String) (moves : List (Store β × List Path)),
      0 < args.maxLocalVersions → b ∈ versionDirs dest →
      Runs.exec (pullAlone P args) (dest, .prune b) moves = some (dest', .pruning b []) →
      (Retained args.maxLocalVersions.toNat b dest dest' ↔
        Room args.maxLocalVersions.toNat b dest)) ∧
    ∀ (dest₀ dest₂ : Dest β) (b : String) (moves : List (Store β × List Path)), IsName b →
      Runs.exec (pullAlone P args) (dest₀, .resolve) moves = some (dest₂, .done b) →
      ∃ before after dest₁, moves = before ++ after ∧
        Runs.exec (pullAlone P args) (dest₀, .resolve) before = some (dest₁, .prune b) ∧
        isDirectory dest₁ b = true ∧
        (dest₂.lookup b = dest₁.lookup b ↔ Stays args b dest₁) ∧
        (args.switchActive = true → dest₂.lookup "active" = some (.link b)) := by
  constructor
  · intro dest dest' b moves hkeep hb hrun
    exact retained_iff hkeep hb (Pruned.run hrun).2.2
  · intro dest₀ dest₂ b moves _ hrun
    obtain ⟨before, ⟨dest₁, pc⟩, ⟨after, hmoves⟩, hbefore, rfl⟩ := Runs.exec_passes
      (P := fun s : Dest β × PullPc P.down.St => s.2.hasPruned b) (Q := fun s => s.2 = .prune b)
      (fun _ _ _ hstep h => hasPruned_step hstep h) hrun (fun h => h) rfl
    have hdir : isDirectory dest₁ b = true :=
      Runs.exec_invariant (P := InPlace) (fun _ _ _ h hstep => h.step hstep) hbefore
        (show InPlace (dest₀, PullPc.resolve) from trivial)
    subst hmoves
    obtain ⟨t, ht, hafter⟩ := Runs.exec_concat.mp hrun
    obtain rfl := Option.some.inj (hbefore.symm.trans ht)
    have hsettled : Settled args dest₁ dest₂ b := (Pruned.run hafter).2
    refine ⟨before, after, dest₁, rfl, hbefore, hdir, hsettled.stays_iff hdir, fun hswitch => ?_⟩
    rw [Settled, if_pos hswitch] at hsettled
    exact hsettled.2.1

/-! ## A rollback -/

/-- A host that has two builds, of which the older is pulled again. -/
def twoBuilds : Dest Nat := (AList.singleton "30" (.dir ∅)).insert "20" (.dir ∅)

def pullOlder (maxLocalVersions : Int) : PullArgs where
  buildId := some "20"
  dest := "items"
  maxLocalVersions
  forceRefresh := false
  switchActive := true

/-- The store, while a pull takes `n` steps. -/
def steady (n : Nat) : List (Store Nat × List Path) :=
  List.replicate n (AList.singleton "20" ∅, [])

theorem rollback_keeps_room :
    Retained 2 "20" twoBuilds twoBuilds ∧ ∃ dest₂ : Dest Nat,
      Runs.exec (pullAlone .localDir (pullOlder 2)) (twoBuilds, .resolve) (steady 9) =
        some (dest₂, .done "20") ∧
      dest₂.lookup "active" = some (.link "20") ∧ dest₂.lookup "20" = some (.dir ∅) := by
  have hprune := (prune_retains_iff (β := Nat) .localDir (pullOlder 2)).1 twoBuilds twoBuilds "20"
    (steady 1) (by decide) (by decide) rfl
  refine ⟨hprune.mpr (by decide), _, rfl, ?_⟩
  obtain ⟨_, _, _, _, _, _, _, hactive⟩ := (prune_retains_iff (β := Nat) .localDir (pullOlder 2)).2
    twoBuilds _ "20" (steady 9) (by decide) rfl
  exact ⟨hactive rfl, rfl⟩

/-- With room for one version the build just pulled is removed, and `active` leads to
nothing. -/
theorem rollback_removes_pulled :
    (∃ dest' : Dest Nat,
      Runs.exec (pullAlone .localDir (pullOlder 1)) (twoBuilds, .prune "20") (steady 2) =
        some (dest', .pruning "20" []) ∧ ¬ Retained 1 "20" twoBuilds dest') ∧
    ∃ dest₂ : Dest Nat,
      Runs.exec (pullAlone .localDir (pullOlder 1)) (twoBuilds, .resolve) (steady 10) =
        some (dest₂, .done "20") ∧
      dest₂.lookup "active" = some (.link "20") ∧ isDirectory dest₂ "active" = false := by
  refine ⟨⟨_, rfl, fun h => ?_⟩, _, rfl, rfl, rfl⟩
  cases h.kept

end YikvServer.Artifact
