import YikvServer.Registry.Safety

/-!
# Reloads that fail

Up to its swap a `ReloadTable` call changes the standby key and nothing else that serves
the table, and each statement that fails before the swap gives that key up again. So a
failed call leaves the table as it found it, but where `GetKVIndex` returns null:
`BuildSlotAfterOpen` calls `kv->schema()` before it tests `kv`.
-/
namespace YikvServer.Registry

open YikvServer.Theory

/-! ## The standby key -/

/-- The key of a reload may be open behind these statements. -/
def ReloadPc.opensStandby : ReloadPc → Bool
  | .build .. | .swap .. | .stop .. | .drain .. | .closePrev .. => true
  | _ => false

/-- The side of the key that is served; before a table is registered its name. -/
def Table.liveSide (v : Table) : Bool := v.head.elim false TableHead.stagingIsLive

/-- Where no reload has it open, the standby key is closed. -/
def Table.Standby (v : Table) : Prop :=
  (∀ f, v.frame = some f → f.pc.opensStandby = false) → v.db (!v.liveSide) = none

/-- The statements before the swap. -/
def ReloadPc.prepares : ReloadPc → Bool
  | .read | .canonical .. | .link .. | .closeNext .. | .openNext .. | .build .. => true
  | _ => false

/-- A reload that has not come to its swap has left the table as it was in `v₀`. -/
def Table.Prepares (v₀ v : Table) : Prop :=
  ∀ f, v.frame = some f → f.pc.prepares = true →
    v.head = v₀.head ∧ v.consumers = v₀.consumers ∧ v.db v₀.liveSide = v₀.db v₀.liveSide

section Steps
variable {W : World} {s s' : State} {n : String} {a : Action} {v v' v₀ : Table}

theorem opensStandby_of_mayThrow {pc : ReloadPc} (h : pc.mayThrow = true) :
    pc.opensStandby = false := by
  cases pc <;> first | rfl | cases h

theorem liveSide_of_head {head : TableHead} (h : v.head = some head) :
    v.liveSide = head.stagingIsLive := by
  rw [Table.liveSide, h]
  rfl

theorem Table.Standby.keep (h : v.Standby) (hdb : v'.db (!v.liveSide) = v.db (!v.liveSide))
    (hhead : v'.head = v.head)
    (hframe : (∀ f, v'.frame = some f → f.pc.opensStandby = false) →
      ∀ f, v.frame = some f → f.pc.opensStandby = false) : v'.Standby := by
  intro hnone
  have hside : v'.liveSide = v.liveSide := by rw [Table.liveSide, hhead]; rfl
  rw [hside, hdb]
  exact h (hframe hnone)

/-- The statement that the reload was at has not had it open. -/
theorem Table.Standby.keepFrame (h : v.Standby) (hdb : v'.db = v.db) (hhead : v'.head = v.head)
    {f : ReloadFrame} (hframe : v.frame = some f) (hpc : f.pc.opensStandby = false) :
    v'.Standby := by
  refine h.keep (by rw [hdb]) hhead fun _ g hg => ?_
  rw [← Option.some.inj (hframe.symm.trans hg)]
  exact hpc

/-- The standby key has just been closed. -/
theorem Table.Standby.closed (h : v.db (!v.liveSide) = none) : v.Standby := fun _ => h

/-- The reload under way may have it open. -/
theorem Table.Standby.opened {f : ReloadFrame} (hframe : v.frame = some f)
    (hpc : f.pc.opensStandby = true) : v.Standby := fun hall => by
  rw [hall f hframe] at hpc
  cases hpc

theorem Table.Standby.step (hsafe : v.Safe n) (h : v.Standby)
    (hstep : Table.Step W s n a v v') : v'.Standby := by
  cases hstep with
  | same => exact h
  | loadBegins f hname hpc hcall hfree => exact h.keep rfl rfl id
  | loadEnds f hload hpc => exact h.keep rfl rfl id
  | loadChecked f hload hpc hhead => exact h.keep rfl rfl id
  | loadOpens f hload hpc =>
    obtain ⟨hhead, hopen⟩ := hsafe.opens hload hpc _
    rw [hopen]
    refine h.keep ?_ rfl id
    rw [Table.liveSide, hhead]
    exact setDb_db_not true (some ⟨s.openings, n, W.resolve s.clock n⟩)
  | loadUndone f hload hpc =>
    have hhead := (hsafe.load f hload (by rcases hpc with hpc | ⟨dir, hpc⟩ <;> simp [hpc])).1
    refine h.keep ?_ rfl id
    rw [Table.liveSide, hhead]
    exact setDb_db_not true none
  | loadResolves f hload hpc => exact h.keep rfl rfl id
  | loadBuilds f dir kv slot hload hpc hopen hslot =>
    obtain ⟨consumers, he⟩ := table_startKafka_eq v slot
    rw [he]
    exact h.keep rfl rfl id
  | loadInserts f slot hload hpc hhead =>
    intro hnone
    have hside : v.liveSide = false := by rw [Table.liveSide, hhead]; rfl
    have hclosed := h hnone
    rw [hside] at hclosed
    exact hclosed
  | reloadBegins since hcall hfree hhead =>
    refine h.keep rfl rfl fun _ f hf => ?_
    rw [hfree] at hf
    cases hf
  | throws f link hframe hpc =>
    exact h.keepFrame rfl rfl hframe (opensStandby_of_mayThrow hpc)
  | buildThrows f live dir link hframe hpc =>
    obtain ⟨head, hhead, hfits⟩ := hsafe.frame f hframe
    rw [hpc] at hfits
    refine .closed ?_
    rw [liveSide_of_head (v := { v.setDb (!live) none with frame := none, link := link }) hhead,
      hfits.1]
    exact setDb_db_self _ _
  | reads f head hframe hpc hhead =>
    exact h.keepFrame rfl rfl hframe (by rw [hpc]; rfl)
  | resolves f live hframe hpc =>
    exact h.keepFrame rfl rfl hframe (by rw [hpc]; rfl)
  | links f live dir link hframe hpc hlink =>
    exact h.keepFrame rfl rfl hframe (by rw [hpc]; rfl)
  | closesNext f live dir hframe hpc =>
    obtain ⟨head, hhead, hfits⟩ := hsafe.frame f hframe
    rw [hpc] at hfits
    refine .closed ?_
    rw [show Table.liveSide { v.setDb (!live) none with
      frame := some { f with pc := .openNext live dir } } = live from
        (liveSide_of_head (v := v) hhead).trans hfits]
    exact setDb_db_self _ _
  | opensNext f live dir hframe hpc => exact .opened rfl rfl
  | builds f live dir kv slot hframe hpc hopen hslot => exact .opened rfl rfl
  | swaps f live slot head hframe hpc hhead => exact .opened rfl rfl
  | stops f live old hframe hpc => exact .opened rfl rfl
  | drains f live old hframe hpc hfree => exact .opened rfl rfl
  | closesPrev f live hframe hpc =>
    obtain ⟨head, hhead, hfits⟩ := hsafe.frame f hframe
    rw [hpc] at hfits
    refine .closed ?_
    rw [show Table.liveSide { v.setDb live none with
      frame := some { f with pc := .unlinkPrev live } } = !live from
        (liveSide_of_head (v := v) hhead).trans hfits, Bool.not_not]
    exact setDb_db_self _ _
  | returns f live link hframe hpc =>
    exact h.keepFrame rfl rfl hframe (by rw [hpc]; rfl)

/-- The reload under way has come to its swap. -/
theorem Table.Prepares.past {f : ReloadFrame} (hframe : v.frame = some f)
    (hpc : f.pc.prepares = false) : v₀.Prepares v := by
  intro g hg hprepares
  rw [← Option.some.inj (hframe.symm.trans hg), hpc] at hprepares
  cases hprepares

/-- Before its swap the call that holds `reload_serial` changes the standby key and its
link only. -/
theorem Table.Prepares.step (hsafe : v.Safe n) (hheld : v.frame.isSome) (h : v₀.Prepares v)
    (hstep : Table.Step W s n a v v') : v₀.Prepares v' := by
  obtain ⟨held, hheld⟩ := Option.isSome_iff_exists.mp hheld
  have hregistered : v.head ≠ none := fun hhead => by
    rw [hsafe.frame_none hhead] at hheld
    cases hheld
  have hgoesOn : ∀ {f : ReloadFrame}, v.frame = some f → f.pc.prepares = true →
      ∀ (pc : ReloadPc) (link : Option Dir),
        v₀.Prepares { v with frame := some { f with pc := pc }, link := link } :=
    fun hf hpc pc link _ _ _ => h _ hf hpc
  have hstandby : ∀ {f : ReloadFrame} {live : Bool}, v.frame = some f → f.pc.prepares = true →
      (∀ head, v.head = some head → f.pc.Fits n v.db head → head.stagingIsLive = live) →
      ∀ (kv : Option KVIndex) (pc : ReloadPc),
        v₀.Prepares { v.setDb (!live) kv with frame := some { f with pc := pc } } := by
    intro f live hf hpc hlive kv pc _ _ _
    obtain ⟨hhead, hconsumers, hdb⟩ := h f hf hpc
    obtain ⟨head, hsome, hfits⟩ := hsafe.frame f hf
    have hside : v₀.liveSide = live :=
      (liveSide_of_head (hhead ▸ hsome)).trans (hlive head hsome hfits)
    refine ⟨hhead, hconsumers, ?_⟩
    rw [hside] at hdb ⊢
    exact (setDb_db_not live kv).trans hdb
  cases hstep with
  | same => exact h
  | loadBegins f hname hpc hcall hfree => exact h
  | loadEnds f hload hpc => exact h
  | loadChecked f hload hpc hhead => exact h
  | loadOpens f hload hpc => exact absurd (hsafe.opens hload hpc ⟨0, n, ""⟩).1 hregistered
  | loadUndone f hload hpc =>
    exact absurd (hsafe.load f hload (by rcases hpc with hpc | ⟨dir, hpc⟩ <;> simp [hpc])).1
      hregistered
  | loadResolves f hload hpc => exact h
  | loadBuilds f dir kv slot hload hpc hopen hslot =>
    exact absurd (hsafe.load f hload (by simp [hpc])).1 hregistered
  | loadInserts f slot hload hpc hhead => exact absurd hhead hregistered
  | reloadBegins since hcall hfree hhead =>
    rw [hfree] at hheld
    cases hheld
  | throws f link hframe hpc => exact fun g hg => nomatch hg
  | buildThrows f live dir link hframe hpc => exact fun g hg => nomatch hg
  | reads f head hframe hpc hhead => exact hgoesOn hframe (by rw [hpc]; rfl) _ v.link
  | resolves f live hframe hpc => exact hgoesOn hframe (by rw [hpc]; rfl) _ v.link
  | links f live dir link hframe hpc hlink => exact hgoesOn hframe (by rw [hpc]; rfl) _ link
  | closesNext f live dir hframe hpc =>
    exact hstandby hframe (by rw [hpc]; rfl) (fun head _ hfits => by rwa [hpc] at hfits) none _
  | opensNext f live dir hframe hpc =>
    obtain ⟨head, hhead, hfits⟩ := hsafe.frame f hframe
    rw [hpc] at hfits
    rw [openDb_closed hfits.2]
    refine hstandby hframe (by rw [hpc]; rfl) (fun head _ hfits => ?_) _ _
    rw [hpc] at hfits
    exact hfits.1
  | builds f live dir kv slot hframe hpc hopen hslot => exact .past rfl rfl
  | swaps f live slot head hframe hpc hhead => exact .past rfl rfl
  | stops f live old hframe hpc => exact .past rfl rfl
  | drains f live old hframe hpc hfree => exact .past rfl rfl
  | closesPrev f live hframe hpc => exact .past rfl rfl
  | returns f live link hframe hpc => exact fun g hg => nomatch hg

/-! ## Calls that fail -/

/-- The statements that can fail: `weakly_canonical`, `create_symlink`, `OpenIndex` and
`GetKVIndex`. -/
def ReloadPc.canFail : ReloadPc → Bool
  | .canonical _ | .openNext .. | .build .. => true
  | .link live _ => !live
  | _ => false

/-- The call that held `reload_serial` has ended by throwing, and the table is served as it
was in `s₀`. -/
structure Undone (n : String) (s₀ s s' : State) : Prop where
  running : s'.crashed = false
  released : s'.reload n = none
  threw : ∃ since what, s'.answers = ⟨n, since, .error what⟩ :: s.answers
  head : s'.heads n = s₀.heads n
  consumers : s'.consumers n = s₀.consumers n
  live : ∀ head, s₀.heads n = some head →
    s'.db (dbName n head.stagingIsLive) = s₀.db (dbName n head.stagingIsLive)
  standby : ∀ head, s₀.heads n = some head → s'.db (dbName n !head.stagingIsLive) = none

theorem prepares_of_canFail {pc : ReloadPc} (h : pc.canFail = true) : pc.prepares = true := by
  cases pc <;> first | rfl | cases h

theorem unlinkUnless_eq (s : State) (key table : String) : ∃ links,
    s.unlinkUnless key table = { s with links := links } := by
  unfold State.unlinkUnless
  split
  · exact ⟨s.links, rfl⟩
  · exact ⟨_, rfl⟩

/-- A statement that throws, after which the standby key is closed. -/
theorem Undone.throws {s₀ t : State} {f : ReloadFrame} {head : TableHead} (what : String)
    (hrunning : t.crashed = false) (hanswers : t.answers = s.answers)
    (hhead : s₀.heads n = some head) (hheads : t.heads n = s₀.heads n)
    (hconsumers : t.consumers n = s₀.consumers n)
    (hlive : t.db (dbName n head.stagingIsLive) = s₀.db (dbName n head.stagingIsLive))
    (hstandby : t.db (dbName n !head.stagingIsLive) = none) :
    Undone n s₀ s (t.throws n f what) where
  running := hrunning
  released := Function.update_self _ _ _
  threw := ⟨f.since, what, congrArg _ hanswers⟩
  head := hheads
  consumers := hconsumers
  live head' hhead' := by
    obtain rfl := Option.some.inj (hhead.symm.trans hhead')
    exact hlive
  standby head' hhead' := by
    obtain rfl := Option.some.inj (hhead.symm.trans hhead')
    exact hstandby

/-- Only a null index from `GetKVIndex` ends the process. -/
theorem undone_iff_of_prepares {s₀ : State} {f : ReloadFrame} {fault : Fault} (hsafe : Safe s)
    (hn : IsTable n) (hstandby : (s.table n).Standby) (hprepares : (s₀.table n).Prepares (s.table n))
    (hframe : s.reload n = some f) (hfails : f.pc.canFail = true)
    (hstep : step W s (.reload n (some fault)) = some s') :
    Undone n s₀ s s' ↔ ∀ live dir, f.pc = .build live dir → fault ≠ .noIndex := by
  obtain ⟨hsame, hconsumers, hdb⟩ := hprepares f hframe (prepares_of_canFail hfails)
  obtain ⟨head, hhead, hfits⟩ := (hsafe.table n hn).frame f hframe
  have hhead₀ : s₀.heads n = some head := hsame.symm.trans hhead
  rw [liveSide_of_head (v := s₀.table n) hhead₀] at hdb
  have hclosed : f.pc.opensStandby = false → s.db (dbName n !head.stagingIsLive) = none := by
    intro hpc
    have hnone := hstandby fun g hg => Option.some.inj (hframe.symm.trans hg) ▸ hpc
    rwa [liveSide_of_head (v := s.table n) hhead] at hnone
  unfold step at hstep
  split at hstep
  · cases hstep
  rename_i hrunning
  have hrunning : s.crashed = false := Bool.eq_false_iff.mpr hrunning
  obtain ⟨g, hg, hstep⟩ := Option.bind_eq_some_iff.mp hstep
  obtain rfl := Option.some.inj (hframe.symm.trans hg)
  unfold reloadTable at hstep
  cases hpc : f.pc with
  | canonical live =>
    simp only [hpc] at hstep
    obtain rfl := Option.some.inj hstep
    refine iff_of_true ?_ fun _ _ he => by cases he
    exact .throws _ hrunning rfl hhead₀ hsame hconsumers hdb (hclosed (by rw [hpc]; rfl))
  | link live dir =>
    obtain rfl : live = false := by
      rw [hpc] at hfails
      simpa [ReloadPc.canFail] using hfails
    have hkey : dbName n (!false) ≠ n := Ne.symm hn.ne_staging
    simp only [hpc] at hstep
    rw [if_neg hkey] at hstep
    obtain rfl := Option.some.inj hstep
    refine iff_of_true ?_ fun _ _ he => by cases he
    exact .throws _ hrunning rfl hhead₀ hsame hconsumers hdb (hclosed (by rw [hpc]; rfl))
  | openNext live dir =>
    simp only [hpc] at hstep
    obtain rfl := Option.some.inj hstep
    obtain ⟨links, he⟩ := unlinkUnless_eq s (dbName n !live) n
    rw [he]
    refine iff_of_true ?_ fun _ _ he => by cases he
    exact .throws _ hrunning rfl hhead₀ hsame hconsumers hdb (hclosed (by rw [hpc]; rfl))
  | build live dir =>
    rw [hpc] at hfits
    obtain ⟨rfl, kv, hkv, -⟩ := hfits
    simp only [hpc] at hstep
    cases fault with
    | noIndex =>
      simp only [buildSlotAfterOpen, Option.some.injEq] at hstep
      refine iff_of_false (fun h => ?_) fun h => h _ _ rfl rfl
      have hcrashed := h.running
      rw [← hstep] at hcrashed
      cases hcrashed
    | failed what =>
      have hopen : s.db (dbName n !head.stagingIsLive) = some kv := hkv
      simp only [buildSlotAfterOpen, hopen, Option.isSome_some, if_true, Option.some.injEq] at hstep
      subst hstep
      obtain ⟨links, he⟩ := unlinkUnless_eq (s.closeIndex (dbName n !head.stagingIsLive))
        (dbName n !head.stagingIsLive) n
      rw [he]
      refine iff_of_true ?_ fun _ _ _ => Fault.noConfusion
      refine .throws _ hrunning rfl hhead₀ hsame hconsumers ?_ (Function.update_self _ _ _)
      refine (Function.update_of_ne (fun hkey => ?_) _ _).trans hdb
      have hside := ((dbName_inj hn hn).mp hkey).2
      cases hcase : head.stagingIsLive <;> rw [hcase] at hside <;> cases hside
  | _ => rw [hpc] at hfails; cases hfails

/-- In every run, whatever the other calls do meanwhile, a statement of a `ReloadTable`
call of a registered table that fails leaves the table served as the call found it when it
took `reload_serial`, and ends the call by throwing, exactly when it is not `GetKVIndex`
that returns null. -/
theorem failedReload_undone_iff (W : World) (n : String) (before during : List Action)
    (s₀ s s' : State) (since : Nat) (f : ReloadFrame) (fault : Fault)
    (hbefore : Runs.exec (step W) .init before = some s₀)
    (hbegins : s₀.reload n = some ⟨since, .read⟩)
    (hduring : Runs.exec (step W) s₀ during = some s)
    (hheld : Runs.Guarded (step W) (fun t _ => (t.reload n).isSome) s₀ during)
    (hframe : s.reload n = some f) (hfails : f.pc.canFail = true)
    (hstep : step W s (.reload n (some fault)) = some s') :
    Undone n s₀ s s' ↔ ∀ live dir, f.pc = .build live dir → fault ≠ .noIndex := by
  have hinv : Safe s₀ ∧ ∀ m, IsTable m → (s₀.table m).Standby :=
    Runs.exec_invariant (P := fun s => Safe s ∧ ∀ m, IsTable m → (s.table m).Standby)
      (fun _ _ _ h hstep => ⟨h.1.step hstep, fun m hm =>
        (h.2 m hm).step (h.1.table m hm) (step_table h.1.named hm hstep)⟩)
      hbefore ⟨.init, fun _ _ => .closed rfl⟩
  have hn : IsTable n := hinv.1.named.head n (hinv.1.named.frame n (by simp [hbegins]))
  have hlast : Safe s ∧ (s.table n).Standby ∧ (s₀.table n).Prepares (s.table n) :=
    Runs.guarded_invariant
      (P := fun s => Safe s ∧ (s.table n).Standby ∧ (s₀.table n).Prepares (s.table n))
      (fun _ _ _ h hheld hstep =>
        have htable := step_table h.1.named hn hstep
        ⟨h.1.step hstep, h.2.1.step (h.1.table n hn) htable,
          h.2.2.step (h.1.table n hn) hheld htable⟩)
      hheld hduring ⟨hinv.1, hinv.2 n hn, fun _ _ _ => ⟨rfl, rfl, rfl⟩⟩
  exact undone_iff_of_prepares hlast.1 hn hlast.2.1 hlast.2.2 hframe hfails hstep

end Steps

/-- `OpenIndex` throws in a reload of a switched table. -/
theorem failedOpen_undone : ∃ s₀ s s',
    Runs.exec (step switchedOnce) .init (scanOfT ++ [.tick] ++ reloadOfT.take 4) = some s₀ ∧
      Runs.exec (step switchedOnce) s₀ (List.replicate 4 (.reload "t" none)) = some s ∧
      step switchedOnce s (.reload "t" (some (.failed "open"))) = some s' ∧ Undone "t" s₀ s s' :=
  ⟨_, _, _, rfl, rfl, rfl, (failedReload_undone_iff switchedOnce "t"
    (scanOfT ++ [.tick] ++ reloadOfT.take 4) (List.replicate 4 (.reload "t" none)) _ _ _ 1 _
    (.failed "open") rfl rfl rfl (by decide) rfl rfl rfl).mpr fun _ _ _ => Fault.noConfusion⟩

/-- `GetKVIndex` returns null in the same reload, and the process is gone. -/
theorem nullIndex_crashes : ∃ s₀ s s',
    Runs.exec (step switchedOnce) .init (scanOfT ++ [.tick] ++ reloadOfT.take 4) = some s₀ ∧
      Runs.exec (step switchedOnce) s₀ (List.replicate 5 (.reload "t" none)) = some s ∧
      step switchedOnce s (.reload "t" (some .noIndex)) = some s' ∧ s'.crashed = true ∧
      ¬ Undone "t" s₀ s s' :=
  ⟨_, _, _, rfl, rfl, rfl, rfl, fun h => Bool.noConfusion h.running⟩

end YikvServer.Registry
