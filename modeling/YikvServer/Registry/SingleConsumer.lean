import YikvServer.Registry.SameBuild
import Mathlib.Data.List.Nodup

/-!
# One consumer for each directory

A reload starts the consumer of the new slot before it stops the one of the old slot.
The two are bound to different directories when the reload resolves its path to a
directory that the live consumer is not bound to.
-/
namespace YikvServer.Registry

open YikvServer.Theory

/-- The directory that the new slot of a reload is about to be bound to. -/
def ReloadPc.building : ReloadPc → Option Dir
  | .build _ dir => some dir
  | _ => none

/-- The live consumer is not bound to the directory that the next one will be bound to. -/
def Elsewhere (W : World) (s : State) : Action → Prop
  | .reload n _ => ∀ f ∈ s.reload n, ∀ dir ∈ f.pc.building, ∀ head ∈ s.heads n,
      ∀ slot ∈ head.slot, slot.kafka = true → W.kafka s.clock dir = true → slot.configDir ≠ dir
  | _ => True

instance (W : World) (s : State) : (a : Action) → Decidable (Elsewhere W s a)
  | .reload n _ => inferInstanceAs (Decidable (∀ f ∈ s.reload n, ∀ dir ∈ f.pc.building,
      ∀ head ∈ s.heads n, ∀ slot ∈ head.slot, slot.kafka = true → W.kafka s.clock dir = true →
        slot.configDir ≠ dir))
  | .tick | .acquire _ | .release _ | .scanAndLoad _ | .reloadTable _ | .call _ _ | .load _ =>
    isTrue trivial

/-- The directory that a reload has resolved and not yet used. -/
def ReloadPc.dir : ReloadPc → Option Dir
  | .link _ dir | .closeNext _ dir | .openNext _ dir | .build _ dir => some dir
  | _ => none

/-- A path of table `n` has led to the directory. -/
def Leads (W : World) (n : String) (dir : Dir) : Prop := ∃ t p, filename p = n ∧ W.resolve t p = dir

/-- The slots whose consumers may run. -/
def Table.Uses (v : Table) (slot : TableSlot) : Prop :=
  (∃ head, v.head = some head ∧ head.slot = some slot) ∨
    (∃ f, v.load = some f ∧ f.pc = .insert slot) ∨
      ∃ f live, v.frame = some f ∧ (f.pc = .swap live slot ∨ f.pc = .stop live (some slot))

structure Table.Single (W : World) (n : String) (v : Table) : Prop where
  kafka : ∀ slot ∈ v.consumers, slot.kafka = true
  uses : ∀ slot ∈ v.consumers, v.Uses slot
  leads : ∀ slot ∈ v.consumers, Leads W n slot.configDir
  nodup : (v.consumers.map TableSlot.configDir).Nodup
  load : ∀ f dir, v.load = some f → f.pc = .build dir → Leads W n dir
  frame : ∀ f dir, v.frame = some f → f.pc.dir = some dir → Leads W n dir

section Steps
variable {W : World} {s s' : State} {n : String} {a : Action} {v v' : Table} {slot : TableSlot}

/-- A reload that neither swaps nor stops uses no slot of its own. -/
theorem Table.Uses.keepLoad (h : v.Uses slot) (hhead : v'.head = v.head) (hload : v'.load = v.load)
    (hpc : ∀ f live, v.frame = some f → f.pc ≠ .swap live slot ∧ f.pc ≠ .stop live (some slot)) :
    v'.Uses slot := by
  rcases h with h | h | ⟨f, live, hframe, hcase⟩
  · exact Or.inl (by rwa [hhead])
  · exact Or.inr (Or.inl (by rwa [hload]))
  · exact (hcase.elim (hpc f live hframe).1 (hpc f live hframe).2).elim

/-- Nor does a load that does not insert. -/
theorem Table.Uses.keepFrame (h : v.Uses slot) (hhead : v'.head = v.head)
    (hframe : v'.frame = v.frame) (hpc : ∀ f, v.load = some f → f.pc ≠ .insert slot) :
    v'.Uses slot := by
  rcases h with h | ⟨f, hload, hinsert⟩ | h
  · exact Or.inl (by rwa [hhead])
  · exact absurd hinsert (hpc f hload)
  · exact Or.inr (Or.inr (by rwa [hframe]))

/-- The consumers stay as they are. -/
theorem Table.Single.keep (h : v.Single W n) (hsame : v'.consumers = v.consumers)
    (huses : ∀ slot, v.Uses slot → v'.Uses slot)
    (hload : ∀ f dir, v'.load = some f → f.pc = .build dir → Leads W n dir)
    (hframe : ∀ f dir, v'.frame = some f → f.pc.dir = some dir → Leads W n dir) :
    v'.Single W n where
  kafka := hsame ▸ h.kafka
  uses slot hslot := huses slot (h.uses slot (hsame ▸ hslot))
  leads := hsame ▸ h.leads
  nodup := hsame ▸ h.nodup
  load := hload
  frame := hframe

/-- The load goes on; it does not insert. -/
theorem Table.Single.loading (h : v.Single W n) {load : Option LoadFrame}
    {db : Bool → Option KVIndex} (hpc : ∀ f slot, v.load = some f → f.pc ≠ .insert slot)
    (hload : ∀ f dir, load = some f → f.pc = .build dir → Leads W n dir) :
    Table.Single W n { v with db := db, load := load } :=
  h.keep rfl (fun slot huses => huses.keepFrame rfl rfl fun f => hpc f slot) hload h.frame

/-- The reload goes on or ends; it neither swaps nor stops. -/
theorem Table.Single.reloading (h : v.Single W n) {frame : Option ReloadFrame}
    {db : Bool → Option KVIndex} {link : Option Dir}
    (hpc : ∀ f live slot, v.frame = some f → f.pc ≠ .swap live slot ∧ f.pc ≠ .stop live (some slot))
    (hframe : ∀ f dir, frame = some f → f.pc.dir = some dir → Leads W n dir) :
    Table.Single W n { v with db := db, link := link, frame := frame } :=
  h.keep rfl (fun slot huses => huses.keepLoad rfl rfl fun f live => hpc f live slot) h.load hframe

/-- The consumer of a new slot starts, in a directory that no other is bound to. -/
theorem Table.Single.starts (h : v.Single W n)
    (hsame : v'.consumers = (v.startKafka slot).consumers) (hleads : Leads W n slot.configDir)
    (hfresh : slot.kafka = true → ∀ c ∈ v.consumers, c.configDir ≠ slot.configDir)
    (hnew : v'.Uses slot) (huses : ∀ c, v.Uses c → v'.Uses c)
    (hload : ∀ f dir, v'.load = some f → f.pc = .build dir → Leads W n dir)
    (hframe : ∀ f dir, v'.frame = some f → f.pc.dir = some dir → Leads W n dir) :
    v'.Single W n := by
  unfold Table.startKafka at hsame
  split at hsame
  · rename_i hkafka
    have hmem : ∀ c ∈ v'.consumers, c = slot ∨ c ∈ v.consumers := by
      intro c hc
      rw [hsame] at hc
      exact List.mem_cons.mp hc
    refine ⟨fun c hc => ?_, fun c hc => ?_, fun c hc => ?_, ?_, hload, hframe⟩
    · rcases hmem c hc with rfl | hc
      · exact hkafka
      · exact h.kafka c hc
    · rcases hmem c hc with rfl | hc
      · exact hnew
      · exact huses c (h.uses c hc)
    · rcases hmem c hc with rfl | hc
      · exact hleads
      · exact h.leads c hc
    · rw [hsame]
      refine List.nodup_cons.mpr ⟨fun hin => ?_, h.nodup⟩
      obtain ⟨c, hc, he⟩ := List.mem_map.mp hin
      exact hfresh hkafka c hc he
  · exact h.keep hsame huses hload hframe

/-- A reload that has resolved nothing yet, or has used it. -/
theorem leads_of_none {f : ReloadFrame} (hpc : f.pc.dir = none) :
    ∀ g dir, some f = some g → g.pc.dir = some dir → Leads W n dir := by
  intro g dir hg hdir
  rw [← Option.some.inj hg, hpc] at hdir
  cases hdir

/-- A reload that holds this directory. -/
theorem leads_of_some {f : ReloadFrame} {dir : Dir} (hpc : f.pc.dir = some dir)
    (hleads : Leads W n dir) : ∀ g dir', some f = some g → g.pc.dir = some dir' → Leads W n dir' := by
  intro g dir' hg hdir
  rw [← Option.some.inj hg, hpc] at hdir
  exact Option.some.inj hdir ▸ hleads

/-- A load that is not about to build. -/
theorem leads_of_load {f : LoadFrame} (hpc : ∀ dir, f.pc ≠ .build dir) :
    ∀ g dir, some f = some g → g.pc = .build dir → Leads W n dir := by
  intro g dir hg hbuild
  rw [← Option.some.inj hg] at hbuild
  exact absurd hbuild (hpc dir)

theorem stopKafka_consumers (h : v.Single W n) (old : Option TableSlot) :
    (old.elim v v.stopKafka).consumers.Sublist v.consumers ∧
      ∀ c ∈ (old.elim v v.stopKafka).consumers, old ≠ some c := by
  cases old with
  | none => exact ⟨List.Sublist.refl _, fun _ _ => nofun⟩
  | some o =>
    simp only [Option.elim_some, Table.stopKafka]
    split
    · refine ⟨List.erase_sublist, fun c hc he => ?_⟩
      obtain rfl := Option.some.inj he
      exact (List.Nodup.mem_erase_iff (List.Nodup.of_map _ h.nodup)).mp hc |>.1 rfl
    · rename_i hkafka
      refine ⟨List.Sublist.refl _, fun c hc he => ?_⟩
      obtain rfl := Option.some.inj he
      exact hkafka (h.kafka _ hc)

theorem Table.Single.step (hn : IsTable n) (hsafe : (s.table n).Safe n) (hok : Elsewhere W s a)
    (h : (s.table n).Single W n) (hstep : Table.Step W s n a (s.table n) v') : v'.Single W n := by
  have hload : ∀ f, (s.table n).load = some f → (∀ slot, f.pc ≠ .insert slot) →
      ∀ g slot, (s.table n).load = some g → g.pc ≠ .insert slot := by
    intro f hf hpc g slot hg
    exact Option.some.inj (hf.symm.trans hg) ▸ hpc slot
  have hframe : ∀ f, (s.table n).frame = some f →
      (∀ live slot, f.pc ≠ .swap live slot ∧ f.pc ≠ .stop live (some slot)) →
      ∀ g live slot, (s.table n).frame = some g →
        g.pc ≠ .swap live slot ∧ g.pc ≠ .stop live (some slot) := by
    intro f hf hpc g live slot hg
    exact Option.some.inj (hf.symm.trans hg) ▸ hpc live slot
  cases hstep with
  | same => exact h
  | loadBegins f hname hpc hcall hfree =>
    refine h.loading (fun g slot hg => ?_) (leads_of_load fun dir => by simp [hpc])
    rw [hfree] at hg
    cases hg
  | loadEnds f hf hpc =>
    have hstarted := hload f hf (by rcases hpc with hpc | hpc <;> simp [hpc])
    exact h.loading hstarted fun _ _ hg => nomatch hg
  | loadChecked f hf hpc hhead =>
    exact h.loading (hload f hf (by simp [hpc])) (leads_of_load nofun)
  | loadOpens f hf hpc =>
    obtain ⟨-, hopen⟩ := hsafe.opens hf hpc _
    rw [hopen]
    exact h.loading (hload f hf (by simp [hpc])) (leads_of_load nofun)
  | loadUndone f hf hpc =>
    exact h.loading (hload f hf (by rcases hpc with hpc | ⟨dir, hpc⟩ <;> simp [hpc]))
      fun _ _ hg => nomatch hg
  | loadResolves f hf hpc =>
    refine h.loading (hload f hf (by simp [hpc])) fun g dir hg hbuild => ?_
    rw [← Option.some.inj hg] at hbuild
    exact ⟨s.clock, f.tableDir, (table_load_eq_some.mp hf).2, LoadPc.build.inj hbuild⟩
  | loadBuilds f dir kv slot hf hpc hopen hslot =>
    obtain ⟨hhead, -⟩ := hsafe.load f hf (by simp [hpc])
    have hidle : ∀ c, ¬ (s.table n).Uses c := by
      rintro c (⟨head, hsome, -⟩ | ⟨g, hg, hinsert⟩ | ⟨g, live, hg, -⟩)
      · rw [hhead] at hsome
        cases hsome
      · exact hload f hf (by simp [hpc]) g c hg hinsert
      · rw [hsafe.frame_none hhead] at hg
        cases hg
    exact h.starts rfl (hslot ▸ h.load f dir hf hpc)
      (fun _ c hc => absurd (h.uses c hc) (hidle c)) (Or.inr (Or.inl ⟨_, rfl, rfl⟩))
      (fun c hc => absurd hc (hidle c)) (leads_of_load nofun) (by simpa using h.frame)
  | loadInserts f slot hf hpc hhead =>
    refine h.keep rfl ?_ (fun _ _ hg => nomatch hg) h.frame
    rintro c (⟨head, hsome, -⟩ | ⟨g, hg, hinsert⟩ | hreload)
    · rw [hhead] at hsome
      cases hsome
    · obtain rfl := Option.some.inj (hf.symm.trans hg)
      exact Or.inl ⟨_, rfl, congrArg some (LoadPc.insert.inj (hpc.symm.trans hinsert))⟩
    · exact Or.inr (Or.inr hreload)
  | reloadBegins since hcall hfree hhead =>
    refine h.reloading (fun g live slot hg => ?_) (leads_of_none rfl)
    rw [hfree] at hg
    cases hg
  | throws f link hf hpc =>
    refine h.reloading (hframe f hf fun live slot => ⟨fun he => ?_, fun he => ?_⟩)
      fun _ _ hg => nomatch hg
    · rw [he] at hpc
      cases hpc
    · rw [he] at hpc
      cases hpc
  | buildThrows f live dir link hf hpc =>
    exact h.reloading (hframe f hf (by simp [hpc])) fun _ _ hg => nomatch hg
  | reads f head hf hpc hhead =>
    exact h.reloading (hframe f hf (by simp [hpc])) (leads_of_none rfl)
  | resolves f live hf hpc =>
    exact h.reloading (hframe f hf (by simp [hpc]))
      (leads_of_some rfl ⟨s.clock, n, hn.1, rfl⟩)
  | links f live dir link hf hpc hlink =>
    have hleads := h.frame f dir hf (by rw [hpc]; rfl)
    exact h.reloading (hframe f hf (by simp [hpc])) (leads_of_some rfl hleads)
  | closesNext f live dir hf hpc =>
    have hleads := h.frame f dir hf (by rw [hpc]; rfl)
    exact h.reloading (hframe f hf (by simp [hpc])) (leads_of_some rfl hleads)
  | opensNext f live dir hf hpc =>
    obtain ⟨head, hhead, hfits⟩ := hsafe.frame f hf
    rw [hpc] at hfits
    rw [openDb_closed hfits.2]
    have hleads := h.frame f dir hf (by rw [hpc]; rfl)
    exact h.reloading (hframe f hf (by simp [hpc])) (leads_of_some rfl hleads)
  | builds f live dir kv slot hf hpc hopen hslot =>
    obtain ⟨head, hhead, -⟩ := hsafe.frame f hf
    refine h.starts rfl (hslot ▸ h.frame f dir hf (by rw [hpc]; rfl)) (fun hkafka c hc => ?_)
      (Or.inr (Or.inr ⟨_, live, rfl, Or.inl rfl⟩))
      (fun c huses => huses.keepLoad (by simp) (by simp)
        fun g live' => hframe f hf (by simp [hpc]) g live' c)
      (by simpa using h.load) (leads_of_none rfl)
    -- While the slot is built, only the live slot has a consumer.
    rcases h.uses c hc with ⟨head', hhead', hlive⟩ | ⟨g, hg, hinsert⟩ | ⟨g, live', hg, hcase⟩
    · rw [hslot] at hkafka ⊢
      exact hok f hf dir (by rw [hpc]; rfl) head' hhead' c hlive (h.kafka c hc) hkafka
    · rw [hsafe.load_check (by simp [hhead]) hg] at hinsert
      cases hinsert
    · have hpcs := hframe f hf (by simp [hpc]) g live' c hg
      exact (hcase.elim hpcs.1 hpcs.2).elim
  | swaps f live slot head hf hpc hhead =>
    refine h.keep rfl ?_ h.load (leads_of_none rfl)
    rintro c (⟨head', hsome, hlive⟩ | hinsert | ⟨g, live', hg, hcase⟩)
    · obtain rfl := Option.some.inj (hhead.symm.trans hsome)
      exact Or.inr (Or.inr ⟨_, live, rfl, Or.inr (by rw [hlive])⟩)
    · exact Or.inr (Or.inl hinsert)
    · obtain rfl := Option.some.inj (hf.symm.trans hg)
      rcases hcase with hcase | hcase
      · obtain ⟨-, rfl⟩ := ReloadPc.swap.inj (hpc.symm.trans hcase)
        exact Or.inl ⟨_, rfl, rfl⟩
      · rw [hcase] at hpc
        cases hpc
  | stops f live old hf hpc =>
    obtain ⟨hsub, hnot⟩ := stopKafka_consumers h old
    obtain ⟨consumers, he⟩ := table_stopKafka_eq (s.table n) old
    rw [he] at hsub hnot ⊢
    refine ⟨fun c hc => h.kafka c (hsub.subset hc), fun c hc => ?_,
      fun c hc => h.leads c (hsub.subset hc), (hsub.map _).nodup h.nodup, h.load,
      leads_of_none rfl⟩
    rcases h.uses c (hsub.subset hc) with hlive | hinsert | ⟨g, live', hg, hcase⟩
    · exact Or.inl hlive
    · exact Or.inr (Or.inl hinsert)
    · obtain rfl := Option.some.inj (hf.symm.trans hg)
      rcases hcase with hcase | hcase
      · rw [hcase] at hpc
        cases hpc
      · exact absurd (ReloadPc.stop.inj (hpc.symm.trans hcase)).2 (hnot c hc)
  | drains f live old hf hpc hfree =>
    exact h.reloading (hframe f hf (by simp [hpc])) (leads_of_none rfl)
  | closesPrev f live hf hpc =>
    exact h.reloading (hframe f hf (by simp [hpc])) (leads_of_none rfl)
  | returns f live link hf hpc =>
    exact h.reloading (hframe f hf (by simp [hpc])) fun _ _ hg => nomatch hg

theorem Table.Single.init (n : String) : (State.table .init n).Single W n :=
  ⟨fun _ hc => (nomatch hc), fun _ hc => (nomatch hc), fun _ hc => (nomatch hc), List.nodup_nil,
    fun _ _ hload => (nomatch hload), fun _ _ hframe => (nomatch hframe)⟩

end Steps

end YikvServer.Registry
