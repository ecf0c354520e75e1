import YikvServer.Registry.Safety

/-!
# Index and offset file from one build

Both functions resolve the path of a table twice, and only the staging key is pinned to
the first result by a link. A slot is built from one directory when no switch falls
between the two resolutions of the other paths.
-/
namespace YikvServer.Registry

open YikvServer.Theory

/-- The directory that `ReloadTable` resolved, when it is about to open the primary key. -/
def ReloadPc.openingPrimary : ReloadPc → Option Dir
  | .openNext true dir => some dir
  | _ => none

/-- A path that is resolved for the second time still leads to the directory that it led
to the first time. -/
def Unswitched (W : World) (s : State) : Action → Prop
  | .load _ => ∀ f ∈ s.load, f.pc = .canonical →
      ∀ kv ∈ s.db f.name, W.resolve s.clock f.tableDir = kv.dir
  | .reload n _ => ∀ f ∈ s.reload n, ∀ dir ∈ f.pc.openingPrimary, W.resolve s.clock n = dir
  | _ => True

instance (W : World) (s : State) : (a : Action) → Decidable (Unswitched W s a)
  | .load _ => inferInstanceAs (Decidable (∀ f ∈ s.load, f.pc = .canonical →
      ∀ kv ∈ s.db f.name, W.resolve s.clock f.tableDir = kv.dir))
  | .reload n _ => inferInstanceAs (Decidable (∀ f ∈ s.reload n,
      ∀ dir ∈ f.pc.openingPrimary, W.resolve s.clock n = dir))
  | .tick | .acquire _ | .release _ | .scanAndLoad _ | .reloadTable _ | .call _ _ => isTrue trivial

/-- Every live slot serves the build that its `table.json` and `kafka.offset` are from. -/
def SameBuild (s : State) : Prop :=
  ∀ n head slot, s.heads n = some head → head.slot = some slot → slot.kv.dir = slot.configDir

/-! ## One table -/

def LoadPc.Paired (v : Table) : LoadPc → Prop
  | .build dir => ∀ kv, v.db false = some kv → kv.dir = dir
  | .insert slot => slot.kv.dir = slot.configDir
  | _ => True

def ReloadPc.Paired (v : Table) : ReloadPc → Prop
  | .closeNext live dir | .openNext live dir => live = false → v.link = some dir
  | .build live dir => ∀ kv, v.db (!live) = some kv → kv.dir = dir
  | .swap _ slot => slot.kv.dir = slot.configDir
  | _ => True

/-- Whatever the frames of the table have put together is from one build. -/
structure Table.Paired (v : Table) : Prop where
  live : ∀ head slot, v.head = some head → head.slot = some slot → slot.kv.dir = slot.configDir
  load : ∀ f, v.load = some f → f.pc.Paired v
  frame : ∀ f, v.frame = some f → f.pc.Paired v

section Steps
variable {W : World} {s s' : State} {n : String} {a : Action} {v v' : Table}

theorem table_load_eq_some {f : LoadFrame} :
    (s.table n).load = some f ↔ s.load = some f ∧ f.name = n := by
  simp [State.table, Option.filter_eq_some_iff]

/-- A reload goes on: only its frame, the standby key and the link change. -/
theorem Table.Paired.reloading (h : v.Paired) (hsafe : v.Safe n) (hhead : v.head.isSome)
    {f : ReloadFrame} {db : Bool → Option KVIndex}
    {link : Option Dir} {consumers : List TableSlot}
    (hpc : f.pc.Paired { v with db := db, link := link }) :
    Table.Paired { v with db := db, link := link, consumers := consumers, frame := some f } where
  live := h.live
  load g hg := by
    rw [hsafe.load_check hhead hg]
    trivial
  frame g hg := by
    obtain rfl := Option.some.inj hg
    cases hcase : f.pc <;> rw [hcase] at hpc <;> exact hpc

/-- A reload ends. -/
theorem Table.Paired.idle (h : v.Paired) (hsafe : v.Safe n) (hhead : v.head.isSome)
    {db : Bool → Option KVIndex} {link : Option Dir} :
    Table.Paired { v with db := db, link := link, frame := none } where
  live := h.live
  load g hg := by
    rw [hsafe.load_check hhead hg]
    trivial
  frame _ hg := nomatch hg

/-- A load goes on, on a table that is not registered. -/
theorem Table.Paired.loading (hsafe : v.Safe n) (hhead : v.head = none) {load : Option LoadFrame}
    {db : Bool → Option KVIndex} {consumers : List TableSlot}
    (hpc : ∀ f, load = some f → f.pc.Paired { v with db := db }) :
    Table.Paired { v with db := db, consumers := consumers, load := load } where
  live head _ hsome := by
    rw [hhead] at hsome
    cases hsome
  load g hg := by
    have hg := hpc g hg
    cases hcase : g.pc <;> rw [hcase] at hg <;> exact hg
  frame g hg := by
    rw [hsafe.frame_none hhead] at hg
    cases hg

theorem Table.Paired.step (hsafe : (s.table n).Safe n) (hok : Unswitched W s a)
    (h : (s.table n).Paired) (hstep : Table.Step W s n a (s.table n) v') : v'.Paired := by
  cases hstep with
  | same => exact h
  | loadBegins f hname hpc hcall hfree =>
    refine ⟨h.live, fun g hg => ?_, h.frame⟩
    rw [← Option.some.inj hg, hpc]
    trivial
  | loadEnds f hload hpc => exact ⟨h.live, fun _ hg => (nomatch hg), h.frame⟩
  | loadChecked f hload hpc hhead =>
    exact ⟨h.live, fun g hg => by rw [← Option.some.inj hg]; trivial, h.frame⟩
  | loadOpens f hload hpc =>
    obtain ⟨hhead, hopen⟩ := hsafe.opens hload hpc _
    rw [hopen]
    exact .loading hsafe hhead fun g hg => by
      rw [← Option.some.inj hg]
      trivial
  | loadUndone f hload hpc =>
    have hhead := (hsafe.load f hload (by rcases hpc with hpc | ⟨dir, hpc⟩ <;> simp [hpc])).1
    exact .loading hsafe hhead fun _ hg => nomatch hg
  | loadResolves f hload hpc =>
    obtain ⟨hhead, -⟩ := hsafe.load f hload (by simp [hpc])
    obtain ⟨hf, hname⟩ := table_load_eq_some.mp hload
    refine .loading hsafe hhead fun g hg => ?_
    rw [← Option.some.inj hg]
    intro kv hkv
    exact (hok f hf hpc kv (by rw [hname]; exact hkv)).symm
  | loadBuilds f dir kv slot hload hpc hopen hslot =>
    obtain ⟨hhead, -⟩ := hsafe.load f hload (by simp [hpc])
    have hpaired := h.load f hload
    rw [hpc] at hpaired
    obtain ⟨consumers, he⟩ := table_startKafka_eq (s.table n) slot
    rw [he]
    refine .loading hsafe hhead fun g hg => ?_
    rw [← Option.some.inj hg, hslot]
    exact hpaired kv hopen
  | loadInserts f slot hload hpc hhead =>
    have hpaired := h.load f hload
    rw [hpc] at hpaired
    refine ⟨fun head slot' hsome hslot => ?_, fun _ hg => (nomatch hg), h.frame⟩
    obtain rfl := Option.some.inj hsome
    obtain rfl := Option.some.inj hslot
    exact hpaired
  | reloadBegins since hcall hfree hsome => exact h.reloading hsafe hsome trivial
  | throws f link hframe hpc => exact h.idle hsafe (hsafe.frame_isSome hframe)
  | buildThrows f live dir link hframe hpc => exact h.idle hsafe (hsafe.frame_isSome hframe)
  | reads f head hframe hpc => exact h.reloading hsafe (hsafe.frame_isSome hframe) trivial
  | resolves f live hframe hpc => exact h.reloading hsafe (hsafe.frame_isSome hframe) trivial
  | links f live dir link hframe hpc hlink =>
    exact h.reloading hsafe (hsafe.frame_isSome hframe) hlink
  | closesNext f live dir hframe hpc =>
    have hpaired := h.frame f hframe
    rw [hpc] at hpaired
    exact h.reloading hsafe (hsafe.frame_isSome hframe) hpaired
  | opensNext f live dir hframe hpc =>
    obtain ⟨head, -, hfits⟩ := hsafe.frame f hframe
    have hpaired := h.frame f hframe
    rw [hpc] at hpaired hfits
    rw [openDb_closed hfits.2]
    refine h.reloading hsafe (hsafe.frame_isSome hframe) fun kv hkv => ?_
    obtain rfl := Option.some.inj ((setDb_db_self (v := s.table n) (!live) _).symm.trans hkv)
    cases live with
    | false =>
      show (s.table n).link.getD _ = dir
      rw [hpaired rfl, Option.getD_some]
    | true => exact hok f hframe dir (by rw [hpc]; rfl)
  | builds f live dir kv slot hframe hpc hopen hslot =>
    have hpaired := h.frame f hframe
    rw [hpc] at hpaired
    obtain ⟨consumers, he⟩ := table_startKafka_eq (s.table n) slot
    rw [he, hslot]
    exact h.reloading hsafe (hsafe.frame_isSome hframe) (hpaired kv hopen)
  | swaps f live slot head hframe hpc hhead =>
    have hpaired := h.frame f hframe
    rw [hpc] at hpaired
    refine ⟨fun head' slot' hsome hslot => ?_, fun g hg => ?_, fun g hg => ?_⟩
    · obtain rfl := Option.some.inj hsome
      obtain rfl := Option.some.inj hslot
      exact hpaired
    · rw [hsafe.load_check (hsafe.frame_isSome hframe) hg]
      trivial
    · rw [← Option.some.inj hg]
      trivial
  | stops f live old hframe hpc =>
    obtain ⟨consumers, he⟩ := table_stopKafka_eq (s.table n) old
    rw [he]
    exact h.reloading hsafe (hsafe.frame_isSome hframe) trivial
  | drains f live old hframe hpc hfree =>
    exact h.reloading hsafe (hsafe.frame_isSome hframe) trivial
  | closesPrev f live hframe hpc => exact h.reloading hsafe (hsafe.frame_isSome hframe) trivial
  | returns f live link hframe hpc => exact h.idle hsafe (hsafe.frame_isSome hframe)

theorem Table.Paired.init (n : String) : (State.table .init n).Paired :=
  ⟨fun _ _ hhead => (nomatch hhead), fun _ hload => (nomatch hload),
    fun _ hframe => (nomatch hframe)⟩

/-- Every run that switches no path between its two resolutions keeps each live slot on
one build. -/
theorem reload_sameBuild (W : World) (actions : List Action) (s : State)
    (hok : Runs.Guarded (step W) (Unswitched W) .init actions)
    (hrun : Runs.exec (step W) .init actions = some s) : SameBuild s := by
  have hinv : Safe s ∧ ∀ n, IsTable n → (s.table n).Paired :=
    Runs.guarded_invariant (P := fun s => Safe s ∧ ∀ n, IsTable n → (s.table n).Paired)
      (fun _ _ _ h hok hstep => ⟨h.1.step hstep, fun n hn =>
        Table.Paired.step (h.1.table n hn) hok (h.2 n hn) (step_table h.1.named hn hstep)⟩)
      hok hrun ⟨.init, fun n _ => .init n⟩
  intro n head slot hhead hslot
  exact (hinv.2 n (hinv.1.named.head n (by simp [hhead]))).live head slot hhead hslot

end Steps

/-- The switch falls between the two operations. -/
theorem switched_between_operations : ∃ s,
    Runs.Guarded (step switchedOnce) (Unswitched switchedOnce) .init
      (scanOfT ++ [.tick] ++ reloadOfT) ∧
    Runs.exec (step switchedOnce) .init (scanOfT ++ [.tick] ++ reloadOfT) = some s ∧
      (acquire s "t").map (·.kv.dir) = some "/builds/2/t" ∧ SameBuild s :=
  have hok : Runs.Guarded (step switchedOnce) (Unswitched switchedOnce) .init
      (scanOfT ++ [.tick] ++ reloadOfT) := by decide
  ⟨_, hok, rfl, rfl, reload_sameBuild switchedOnce (scanOfT ++ [.tick] ++ reloadOfT) _ hok rfl⟩

/-- The end of a reload of `t`, and a reload that sees the switch after its
`weakly_canonical`. -/
def reloadAcrossSwitch : List Action :=
  reloadOfT ++ [.reload "t" none, .reload "t" none, .reload "t" none, .reloadTable "t",
    .call 0 none, .call 0 none, .call 0 none, .reload "t" none, .reload "t" none, .tick,
    .reload "t" none, .reload "t" none, .reload "t" none, .reload "t" none, .reload "t" none]

/-- The scan opens build 1 and takes the offset file of build 2; a reload to the primary
key does the opposite. -/
theorem switched_between_resolutions :
    (∃ s, Runs.exec (step switchedOnce) .init
        [.scanAndLoad ["t"], .call 0 none, .call 0 none, .load none, .load none, .tick, .load none,
          .load none, .load none] = some s ∧
      acquire s "t" = some ⟨⟨0, "t", "/builds/1/t"⟩, "/builds/2/t", true⟩ ∧ ¬ SameBuild s) ∧
    ∃ s, Runs.exec (step switchedOnce) .init (scanOfT ++ reloadAcrossSwitch) = some s ∧
      acquire s "t" = some ⟨⟨2, "t", "/builds/2/t"⟩, "/builds/1/t", true⟩ ∧ ¬ SameBuild s := by
  refine ⟨⟨_, rfl, rfl, fun h => ?_⟩, ⟨_, rfl, rfl, fun h => ?_⟩⟩
  · exact absurd (h "t" _ _ rfl rfl) (by decide)
  · exact absurd (h "t" _ _ rfl rfl) (by decide)

end YikvServer.Registry
