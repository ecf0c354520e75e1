import YikvServer.Registry.Named

/-!
# Calls, answers, handles and keys

Which calls an action can add to the waiting ones, when `ReloadTable` answers that it
succeeded, who changes the handles and the clock, and what can happen to a key of the DB.
-/
namespace YikvServer.Registry

open YikvServer.Theory

/-- How a call that was not waiting before comes to wait. -/
inductive Call.Follows (s : State) : Action → Call → Prop
  | scan {a} (rest) : Follows s a (.scan rest)
  | loadEntry {a} (leaf rest) : Follows s a (.load leaf (.scan rest))
  | find (n) : Follows s (.reloadTable n) (.find n s.clock)
  | lookup {a n since} (h : .find n since ∈ s.calls) : Follows s a (.lookup n since)
  | isDirectory {a n since} (h : .find n since ∈ s.calls) (hnone : s.heads n = none) :
      Follows s a (.isDirectory n since)
  | hotOpen {a n since} (h : .isDirectory n since ∈ s.calls) :
      Follows s a (.load n (.hotOpen since))
  | serial {a n since} (h : .lookup n since ∈ s.calls) : Follows s a (.serial n since)

/-- The frame is that of the `LoadTable` under way, or of one that was waiting. -/
def LoadFrame.Continues (s : State) (f : LoadFrame) : Prop :=
  (∃ g, s.load = some g ∧ g.tableDir = f.tableDir ∧ g.caller = f.caller) ∨
    s.load = none ∧ Call.load f.tableDir f.caller ∈ s.calls

/-- How `ReloadTable(n)`, begun at `since`, comes to return: its `LoadTable` finds the
table registered, or registers it, or its own reload is through. -/
inductive Returns (s s' : State) (n : String) (since : Nat) : Action → Prop
  | early {fault} (f : LoadFrame) (hload : s.load = some f) (hdir : f.tableDir = n)
      (hcaller : f.caller = .hotOpen since) (hpc : f.pc = .check)
      (hhead : (s.heads f.name).isSome) (hsame : s'.heads = s.heads) :
      Returns s s' n since (.load fault)
  | inserted {fault} (f : LoadFrame) (slot : TableSlot) (hload : s.load = some f)
      (hdir : f.tableDir = n) (hcaller : f.caller = .hotOpen since) (hpc : f.pc = .insert slot)
      (hhead : s'.heads f.name = some ⟨some slot, false⟩) :
      Returns s s' n since (.load fault)
  | reloaded {fault} (f : ReloadFrame) (live : Bool) (hframe : s.reload n = some f)
      (hsince : f.since = since) (hpc : f.pc = .unlinkPrev live) (hsame : s'.heads = s.heads) :
      Returns s s' n since (.reload n fault)

/-- Each key stays as it is, is closed, or is opened under a number not used before. -/
def Renumbers (db : String → Option KVIndex) (openings : Nat) (db' : String → Option KVIndex)
    (openings' : Nat) : Prop :=
  openings ≤ openings' ∧ ∀ key, db' key = db key ∨ db' key = none ∨
    ∃ dir, db' key = some ⟨openings, key, dir⟩ ∧ openings < openings'

/-- What an action can do to the clock, the handles, the calls and the answers. -/
structure Bookkeeping (s s' : State) (a : Action) : Prop where
  clock : s.clock ≤ s'.clock
  handles : ∀ slot ∈ s'.handles, slot ∈ s.handles ∨
    ∃ n, a = .acquire n ∧ acquire s n = some slot
  calls : ∀ c ∈ s'.calls, c ∈ s.calls ∨ c.Follows s a
  load : ∀ f, s'.load = some f → f.Continues s
  answers : ∀ n since, ⟨n, since, .ok ()⟩ ∈ s'.answers →
    ⟨n, since, .ok ()⟩ ∈ s.answers ∨ Returns s s' n since a
  db : Renumbers s.db s.openings s'.db s'.openings

section Steps
variable {W : World} {s s' : State} {n : String} {a : Action}

theorem Renumbers.refl (db : String → Option KVIndex) (openings : Nat) :
    Renumbers db openings db openings := ⟨le_rfl, fun _ => Or.inl rfl⟩

theorem Renumbers.closeIndex (s : State) (key : String) :
    Renumbers s.db s.openings (s.closeIndex key).db (s.closeIndex key).openings := by
  refine ⟨le_rfl, fun k => ?_⟩
  by_cases hk : k = key
  · subst hk
    exact Or.inr (Or.inl (Function.update_self _ _ _))
  · exact Or.inl (Function.update_of_ne hk _ _)

theorem Renumbers.openIndex (W : World) (s : State) (key : String) :
    Renumbers s.db s.openings (s.openIndex W key).db (s.openIndex W key).openings := by
  unfold State.openIndex
  split
  · exact .refl _ _
  · refine ⟨Nat.le_succ _, fun k => ?_⟩
    by_cases hk : k = key
    · subst hk
      exact Or.inr (Or.inr ⟨_, Function.update_self _ _ _, Nat.lt_succ_self _⟩)
    · exact Or.inl (Function.update_of_ne hk _ _)

/-- One state has the clock, the calls, the handles and the answers of the other. -/
structure Kept (s t : State) : Prop where
  clock : t.clock = s.clock
  handles : t.handles = s.handles
  calls : t.calls = s.calls
  load : t.load = s.load
  answers : t.answers = s.answers
  db : Renumbers s.db s.openings t.db t.openings

theorem Kept.refl (s : State) : Kept s s := ⟨rfl, rfl, rfl, rfl, rfl, .refl _ _⟩

theorem Kept.closeIndex (s : State) (key : String) : Kept s (s.closeIndex key) :=
  ⟨rfl, rfl, rfl, rfl, rfl, .closeIndex s key⟩

theorem Kept.openIndex (W : World) (s : State) (key : String) : Kept s (s.openIndex W key) := by
  have hdb := Renumbers.openIndex W s key
  obtain ⟨db, openings, he⟩ := openIndex_eq W s key
  rw [he] at hdb ⊢
  exact ⟨rfl, rfl, rfl, rfl, rfl, hdb⟩

theorem Kept.setHead (h : Kept s s') (table : String) (head : TableHead) :
    Kept s (s'.setHead table head) :=
  ⟨h.clock, h.handles, h.calls, h.load, h.answers, h.db⟩

theorem Kept.setReload (h : Kept s s') (table : String) (frame : Option ReloadFrame) :
    Kept s (s'.setReload table frame) :=
  ⟨h.clock, h.handles, h.calls, h.load, h.answers, h.db⟩

theorem Kept.setLink (h : Kept s s') (key : String) (target : Option Dir) :
    Kept s (s'.setLink key target) :=
  ⟨h.clock, h.handles, h.calls, h.load, h.answers, h.db⟩

theorem Kept.unlinkUnless (h : Kept s s') (key table : String) :
    Kept s (s'.unlinkUnless key table) := by
  unfold State.unlinkUnless
  split
  · exact h
  · exact h.setLink key none

theorem Kept.startKafka (h : Kept s s') (table : String) (slot : TableSlot) :
    Kept s (s'.startKafka table slot) := by
  obtain ⟨consumers, he⟩ := startKafka_eq s' table slot
  rw [he]
  exact ⟨h.clock, h.handles, h.calls, h.load, h.answers, h.db⟩

theorem Kept.stopKafka (h : Kept s s') (table : String) (slot : TableSlot) :
    Kept s (s'.stopKafka table slot) := by
  obtain ⟨consumers, he⟩ := stopKafka_eq s' table slot
  rw [he]
  exact ⟨h.clock, h.handles, h.calls, h.load, h.answers, h.db⟩

theorem continues_of_load (s : State) {f : LoadFrame} (h : s.load = some f) : f.Continues s :=
  Or.inl ⟨f, h, rfl, rfl⟩

/-- An action that leaves all of it as it is, but for an error answered. -/
theorem Bookkeeping.quiet (hclock : s'.clock = s.clock) (hhandles : s'.handles = s.handles)
    (hcalls : ∀ c ∈ s'.calls, c ∈ s.calls)
    (hanswers : s'.answers = s.answers ∨
      ∃ n since what, s'.answers = ⟨n, since, .error what⟩ :: s.answers)
    (hdb : Renumbers s.db s.openings s'.db s'.openings)
    (hload : ∀ f, s'.load = some f → f.Continues s) : Bookkeeping s s' a where
  db := hdb
  load := hload
  clock := hclock.ge
  handles slot hslot := Or.inl (hhandles ▸ hslot)
  calls c hc := Or.inl (hcalls c hc)
  answers n since hmem := by
    rcases hanswers with he | ⟨m, t, what, he⟩
    · exact Or.inl (he ▸ hmem)
    · rw [he] at hmem
      exact Or.inl ((List.mem_cons.mp hmem).resolve_left (by simp))

theorem Bookkeeping.of_kept (h : Kept s s') : Bookkeeping s s' a :=
  .quiet h.clock h.handles (fun _ hc => h.calls ▸ hc) (Or.inl h.answers) h.db fun _ hf =>
    continues_of_load s (h.load ▸ hf)

theorem Bookkeeping.throws (h : Kept s s') (n : String) (f : ReloadFrame) (what : String) :
    Bookkeeping s (s'.throws n f what) a :=
  .quiet h.clock h.handles (fun _ hc => h.calls ▸ hc)
    (Or.inr ⟨n, f.since, what, congrArg (List.cons _) h.answers⟩) h.db fun _ hf =>
    continues_of_load s (h.load ▸ hf)

theorem Bookkeeping.setLoad (h : Kept s s') {f : LoadFrame} (hload : s.load = some f)
    (pc : LoadPc) : Bookkeeping s (s'.setLoad { f with pc := pc }) a := by
  refine .quiet h.clock h.handles (fun _ hc => h.calls ▸ hc) (Or.inl h.answers) h.db fun g hg => ?_
  rw [← Option.some.inj hg]
  exact Or.inl ⟨f, hload, rfl, rfl⟩

/-- `LoadTable` returns; when it returns true to `ReloadTable`, so does that. -/
theorem Bookkeeping.loadReturns (h : Kept s s') (f : LoadFrame) {result : Bool}
    (hreturns : ∀ since, result = true → f.caller = .hotOpen since →
      Returns s (s'.loadReturns f result) f.tableDir since a) :
    Bookkeeping s (s'.loadReturns f result) a := by
  unfold State.loadReturns at hreturns ⊢
  cases hcaller : f.caller with
  | scan rest =>
    refine ⟨h.clock.ge, fun slot hslot => Or.inl (h.handles ▸ hslot), fun c hc => ?_,
      fun _ hf => (nomatch hf), fun n since hmem => Or.inl (h.answers ▸ hmem), h.db⟩
    rcases List.mem_cons.mp hc with rfl | hc
    · exact Or.inr (.scan rest)
    · exact Or.inl (h.calls ▸ hc)
  | hotOpen since =>
    rw [hcaller] at hreturns
    cases result with
    | false =>
      exact .quiet h.clock h.handles (fun c hc => h.calls ▸ hc)
        (Or.inr ⟨_, _, _, congrArg _ h.answers⟩) h.db fun _ hf => nomatch hf
    | true =>
      refine ⟨h.clock.ge, fun slot hslot => Or.inl (h.handles ▸ hslot),
        fun c hc => Or.inl (h.calls ▸ hc), fun _ hf => (nomatch hf), fun n since' hmem => ?_, h.db⟩
      rcases List.mem_cons.mp hmem with heq | hmem
      · obtain ⟨rfl, rfl, -⟩ := Answer.mk.inj heq
        exact Or.inr (hreturns _ rfl rfl)
      · exact Or.inl (h.answers ▸ hmem)

theorem Bookkeeping.loadReturns_false (h : Kept s s') (f : LoadFrame) :
    Bookkeeping s (s'.loadReturns f false) a :=
  .loadReturns h f fun _ hfalse => nomatch hfalse

theorem Bookkeeping.reloadTable {f : ReloadFrame} (hframe : s.reload n = some f)
    {fault : Option Fault} (hstep : reloadTable W s n f fault = some s') :
    Bookkeeping s s' (.reload n fault) := by
  cases reloadStep hstep with
  | empty what hpc => exact .throws (.refl s) n f _
  | reads head hpc hhead => exact .of_kept ((Kept.refl s).setReload n _)
  | unresolved e what live hpc => exact .throws (.refl s) n f _
  | resolves live hpc => exact .of_kept ((Kept.refl s).setReload n _)
  | keepsLink live dir hpc hkey => exact .of_kept ((Kept.refl s).setReload n _)
  | unlinked e what dir hpc => exact .throws ((Kept.refl s).setLink _ _) n f _
  | links dir hpc => exact .of_kept (((Kept.refl s).setLink _ _).setReload n _)
  | closesNext live dir hpc => exact .of_kept ((Kept.closeIndex s _).setReload n _)
  | unopened e what live dir hpc => exact .throws ((Kept.refl s).unlinkUnless _ n) n f _
  | opensNext live dir hpc => exact .of_kept ((Kept.openIndex W s _).setReload n _)
  | crashes live dir hpc hbuilt => exact .of_kept ⟨rfl, rfl, rfl, rfl, rfl, .refl _ _⟩
  | unbuilt what live dir hpc hbuilt =>
    exact .throws ((Kept.closeIndex s _).unlinkUnless _ n) n f _
  | builds live dir slot hpc hbuilt =>
    exact .of_kept (((Kept.refl s).startKafka n slot).setReload n _)
  | swaps live slot head hpc hhead => exact .of_kept (((Kept.refl s).setHead n _).setReload n _)
  | stops live oldSp hpc =>
    cases oldSp with
    | none => exact .of_kept ((Kept.refl s).setReload n _)
    | some old => exact .of_kept (((Kept.refl s).stopKafka n old).setReload n _)
  | drains live old hpc hfree => exact .of_kept ((Kept.refl s).setReload n _)
  | closesPrev live hpc => exact .of_kept ((Kept.closeIndex s _).setReload n _)
  | returns live hpc =>
    have hkept : Kept s ((s.unlinkUnless (dbName n live) n).setReload n none) :=
      ((Kept.refl s).unlinkUnless _ n).setReload n none
    refine ⟨hkept.clock.ge, fun _ hslot => Or.inl (hkept.handles ▸ hslot),
      fun _ hc => Or.inl (hkept.calls ▸ hc), fun _ hf => continues_of_load s (hkept.load ▸ hf),
      fun m since hmem => ?_, hkept.db⟩
    rcases List.mem_cons.mp hmem with heq | hmem
    · obtain ⟨rfl, rfl, -⟩ := Answer.mk.inj heq
      exact Or.inr (.reloaded f live hframe rfl hpc (unlinkUnless_heads s _ _))
    · exact Or.inl (hkept.answers ▸ hmem)

theorem Bookkeeping.loadTable (hs : Named s) {f : LoadFrame} (hload : s.load = some f)
    (fault : Option Fault) : Bookkeeping s (loadTable W s f fault) (.load fault) := by
  unfold Registry.loadTable
  cases hpc : f.pc with
  | check =>
    dsimp only
    split
    · split
      · exact .loadReturns (.refl s) f fun since _ hcaller =>
          .early f hload rfl hcaller hpc ‹_› (loadReturns_heads f true)
      · exact .setLoad (.refl s) hload _
    · exact .loadReturns_false (.refl s) f
  | openIndex =>
    cases fault with
    | some e => exact .loadReturns_false (.refl s) f
    | none => exact .setLoad (.openIndex W s _) hload _
  | canonical =>
    cases fault with
    | some e => exact .loadReturns_false (.closeIndex s _) f
    | none => exact .setLoad (.refl s) hload _
  | build cfgDir =>
    dsimp only
    split
    · exact .of_kept ⟨rfl, rfl, rfl, rfl, rfl, .refl _ _⟩
    · exact .loadReturns_false (.closeIndex s _) f
    · exact .setLoad ((Kept.refl s).startKafka _ _) hload _
  | insert slot =>
    obtain ⟨-, hnone⟩ := hs.load f hload (by simp [hpc])
    dsimp only
    rw [if_neg (by simp [hnone])]
    refine .loadReturns ((Kept.refl s).setHead _ _) f fun since _ hcaller => ?_
    refine .inserted f slot hload rfl hcaller hpc ?_
    rw [loadReturns_heads]
    simp [State.setHead]

theorem Bookkeeping.waitingCall {i : Nat} {call : Call} (hcall : s.calls[i]? = some call)
    {fault : Option Fault} (hstep : waitingCall W s i fault call = some s') :
    Bookkeeping s s' a := by
  have hmem := List.mem_of_getElem? hcall
  have hset : ∀ c, c.Follows s a → Bookkeeping s (s.setCall i c) a := by
    intro c hc
    refine ⟨le_rfl, fun _ => Or.inl, fun c' hc' => ?_, fun _ => continues_of_load s,
      fun _ _ => Or.inl, .refl _ _⟩
    rcases List.mem_or_eq_of_mem_set hc' with hold | rfl
    · exact Or.inl hold
    · exact Or.inr hc
  have hend : ∀ t : State, t.clock = s.clock → t.handles = s.handles →
      t.calls = s.calls.eraseIdx i →
      (t.answers = s.answers ∨ ∃ n since what, t.answers = ⟨n, since, .error what⟩ :: s.answers) →
      Renumbers s.db s.openings t.db t.openings → (∀ f, t.load = some f → f.Continues s) →
      Bookkeeping s t a := fun t hclock hhandles hcalls hanswers hdb hload =>
    .quiet hclock hhandles (fun c hc => List.mem_of_mem_eraseIdx (hcalls ▸ hc)) hanswers hdb hload
  cases callStep hstep with
  | ends => exact hend _ rfl rfl rfl (Or.inl rfl) (.refl _ _) fun _ => continues_of_load s
  | skips leaf rest => exact hset _ (.scan rest)
  | scans leaf rest => exact hset _ (.loadEntry leaf rest)
  | finds table since => exact hset _ (.lookup hmem)
  | hotOpens table since hnone => exact hset _ (.isDirectory hmem hnone)
  | isDirectory table since => exact hset _ (.hotOpen hmem)
  | loads tableDir caller hfree =>
    refine hend _ rfl rfl rfl (Or.inl rfl) (.refl _ _) fun g hg => Or.inr ⟨hfree, ?_⟩
    rw [← Option.some.inj hg]
    exact hmem
  | looksUp table since hhead => exact hset _ (.serial hmem)
  | locks table since hfree =>
    exact hend _ rfl rfl rfl (Or.inl rfl) (.refl _ _) fun _ => continues_of_load s
  | throws _ table since what =>
    exact hend _ rfl rfl rfl (Or.inr ⟨_, _, _, rfl⟩) (.refl _ _) fun _ => continues_of_load s

theorem step_bookkeeping (hs : Named s) (hstep : step W s a = some s') : Bookkeeping s s' a := by
  unfold step at hstep
  split at hstep
  · cases hstep
  · cases a with
    | tick =>
      obtain rfl := Option.some.inj hstep
      exact ⟨Nat.le_succ _, fun _ => Or.inl, fun _ => Or.inl, fun _ => continues_of_load s,
        fun _ _ => Or.inl, .refl _ _⟩
    | acquire table =>
      obtain ⟨slot, hslot, rfl⟩ := Option.map_eq_some_iff.mp hstep
      refine ⟨le_rfl, fun slot' hmem => ?_, fun _ => Or.inl, fun _ => continues_of_load s,
        fun _ _ => Or.inl, .refl _ _⟩
      rcases List.mem_cons.mp hmem with rfl | hmem
      · exact Or.inr ⟨table, rfl, hslot⟩
      · exact Or.inl hmem
    | release handle =>
      obtain rfl := Option.some.inj hstep
      exact ⟨le_rfl, fun _ hmem => Or.inl (List.mem_of_mem_eraseIdx hmem), fun _ => Or.inl,
        fun _ => continues_of_load s, fun _ _ => Or.inl, .refl _ _⟩
    | scanAndLoad entries =>
      obtain rfl := Option.some.inj hstep
      refine ⟨le_rfl, fun _ => Or.inl, fun c hc => ?_, fun _ => continues_of_load s,
        fun _ _ => Or.inl, .refl _ _⟩
      rcases List.mem_cons.mp hc with rfl | hc
      · exact Or.inr (.scan entries)
      · exact Or.inl hc
    | reloadTable table =>
      obtain rfl := Option.some.inj hstep
      refine ⟨le_rfl, fun _ => Or.inl, fun c hc => ?_, fun _ => continues_of_load s,
        fun _ _ => Or.inl, .refl _ _⟩
      rcases List.mem_cons.mp hc with rfl | hc
      · exact Or.inr (.find table)
      · exact Or.inl hc
    | call i fault =>
      obtain ⟨call, hcall, hstep⟩ := Option.bind_eq_some_iff.mp hstep
      exact .waitingCall hcall hstep
    | load fault =>
      obtain ⟨f, hload, rfl⟩ := Option.map_eq_some_iff.mp hstep
      exact .loadTable hs hload fault
    | reload table fault =>
      obtain ⟨f, hframe, hstep⟩ := Option.bind_eq_some_iff.mp hstep
      exact .reloadTable hframe hstep

end Steps
end YikvServer.Registry
