import YikvServer.Registry.Named

/-!
# The registry simulates its tables

Each action of the registry is, seen from any one table, a step of that table's machine.
-/
namespace YikvServer.Registry

open YikvServer.Theory

section Simulation
variable {W : World} {s s' : State} {n : String} {a : Action}

theorem table_load_self {f : LoadFrame} (hf : s.load = some f) :
    (s.table f.name).load = some f := by
  simp [State.table, hf]

theorem table_load_other {f : LoadFrame} (hf : s.load = some f) (hne : f.name ≠ n) :
    (s.table n).load = none := by
  simp [State.table, hf, hne]

/-- `LoadTable` of another table leaves this one alone. -/
theorem loadTable_other (hs : Named s) (hn : IsTable n) {f : LoadFrame} (hf : s.load = some f)
    (hne : f.name ≠ n) (fault : Option Fault) : (loadTable W s f fault).table n = s.table n := by
  have hidle : { s.table n with load := none } = s.table n := by
    rw [← table_load_other hf hne]
  have hstay : ∀ (t : State) (g : LoadFrame), g.name = f.name → t.table n = s.table n →
      (t.setLoad g).table n = s.table n := by
    intro t g hname ht
    rw [table_setLoad, if_neg (hname ▸ hne), ht, hidle]
  have hreturn : ∀ (t : State) (result : Bool), t.table n = s.table n →
      (t.loadReturns f result).table n = s.table n := by
    intro t result ht
    rw [table_loadReturns, ht, hidle]
  have hother : n ≠ f.name := Ne.symm hne
  have hname := hs.load f hf
  unfold loadTable
  cases hpc : f.pc with
  | check =>
    dsimp only
    split
    · split
      · exact hreturn s true rfl
      · exact hstay s _ rfl rfl
    · exact hreturn s false rfl
  | openIndex =>
    have htable := (hname (by simp [hpc])).1
    cases fault with
    | some e => exact hreturn s false rfl
    | none =>
      exact hstay _ _ rfl ((table_openIndex hn htable false).trans (if_neg hother))
  | canonical =>
    have htable := (hname (by simp [hpc])).1
    cases fault with
    | some e => exact hreturn _ false ((table_closeIndex hn htable false).trans (if_neg hother))
    | none => exact hstay s _ rfl rfl
  | build cfgDir =>
    have htable := (hname (by simp [hpc])).1
    dsimp only
    split
    · rfl
    · exact hreturn _ false ((table_closeIndex hn htable false).trans (if_neg hother))
    · exact hstay _ _ rfl ((table_startKafka _).trans (if_neg hother))
  | insert slot =>
    obtain ⟨htable, hnone⟩ := hname (by simp [hpc])
    dsimp only
    rw [if_neg (by simp [hnone])]
    exact hreturn _ true ((table_setHead _).trans (if_neg hother))

theorem table_setLoad_self {t : State} {g : LoadFrame} (h : g.name = n) :
    (t.setLoad g).table n = { t.table n with load := some g } := by
  rw [table_setLoad, if_pos h]

theorem target_primary (hs : Named s) (hn : IsTable n) :
    s.target W (dbName n false) = W.resolve s.clock n := by
  show (s.links n).getD _ = _
  rw [hs.link n hn, Option.getD_none]
  rfl

/-- `BuildSlotAfterOpen` builds from the index that is open. -/
theorem buildSlotAfterOpen_slot {key : String} {dir : Dir} {fault : Option Fault}
    {slot : TableSlot} (h : buildSlotAfterOpen W s key dir fault = .slot slot) :
    ∃ kv, s.db key = some kv ∧ slot = ⟨kv, dir, W.kafka s.clock dir⟩ := by
  unfold buildSlotAfterOpen at h
  split at h
  · cases h
  · split at h
    · cases h
    · split at h
      · cases h
      · exact ⟨_, ‹_›, (Built.slot.inj h).symm⟩

theorem loadTable_step (hs : Named s) {f : LoadFrame} (hf : s.load = some f)
    (fault : Option Fault) (hn : IsTable f.name) :
    Table.Step W s f.name (.load fault) (s.table f.name)
      ((loadTable W s f fault).table f.name) := by
  have hload := table_load_self hf
  have hname := hs.load f hf
  have hset : ∀ (t : State) pc, (t.setLoad { f with pc := pc }).table f.name =
      { t.table f.name with load := some { f with pc := pc } } := fun t pc =>
    table_setLoad_self rfl
  have hundone : (f.pc = .canonical ∨ ∃ dir, f.pc = .build dir) →
      Table.Step W s f.name (.load fault) (s.table f.name)
        (((s.closeIndex f.name).loadReturns f false).table f.name) := by
    intro hpc
    have hclose := (table_closeIndex (s := s) hn hn false).trans (if_pos rfl)
    rw [table_loadReturns]
    exact hclose ▸ .loadUndone f hload hpc
  unfold loadTable
  cases hpc : f.pc with
  | check =>
    dsimp only
    split
    · split
      · rw [table_loadReturns]
        exact .loadEnds f hload (Or.inl hpc)
      · rename_i hnone
        rw [hset]
        exact .loadChecked f hload hpc (Option.not_isSome_iff_eq_none.mp hnone)
    · rw [table_loadReturns]
      exact .loadEnds f hload (Or.inl hpc)
  | openIndex =>
    cases fault with
    | some e =>
      dsimp only
      rw [table_loadReturns]
      exact .loadEnds f hload (Or.inr hpc)
    | none =>
      have hopen : (s.openIndex W f.name).table f.name = (s.table f.name).openDb false
          ⟨s.openings, f.name, W.resolve s.clock f.name⟩ := by
        rw [← target_primary hs hn]
        exact (table_openIndex hn hn false).trans (if_pos rfl)
      dsimp only
      rw [hset, hopen]
      exact .loadOpens f hload hpc
  | canonical =>
    cases fault with
    | some e => exact hundone (Or.inl hpc)
    | none =>
      dsimp only
      rw [hset]
      exact .loadResolves f hload hpc
  | build cfgDir =>
    dsimp only
    split
    · exact .same _ _
    · exact hundone (Or.inr ⟨_, hpc⟩)
    · rename_i slot hbuilt
      obtain ⟨kv, hkv, hslot⟩ := buildSlotAfterOpen_slot hbuilt
      have hstart := (table_startKafka (s := s) (n := f.name) slot).trans (if_pos rfl)
      rw [hset, hstart]
      exact .loadBuilds f cfgDir kv slot hload hpc hkv hslot
  | insert slot =>
    have hnone := (hname (by simp [hpc])).2
    have hhead := (table_setHead (s := s) (n := f.name) ⟨some slot, false⟩).trans (if_pos rfl)
    dsimp only
    rw [if_neg (by simp [hnone]), table_loadReturns, hhead]
    exact .loadInserts f slot hload hpc hnone

/-! ## Reload -/

theorem table_unlinkUnless (s : State) (n : String) (live : Bool) : ∃ link,
    (s.unlinkUnless (dbName n live) n).table n = { s.table n with link := link } := by
  unfold State.unlinkUnless
  split
  · exact ⟨(s.table n).link, rfl⟩
  · cases live with
    | false => exact absurd rfl ‹_›
    | true => exact ⟨none, (table_setLink none).trans (if_pos rfl)⟩

theorem unlinkUnless_other {m : String} (hne : n ≠ m) {live : Bool} :
    (s.unlinkUnless (dbName m live) m).table n = s.table n := by
  unfold State.unlinkUnless
  split
  · rfl
  · cases live with
    | false => exact absurd rfl ‹_›
    | true => exact (table_setLink none).trans (if_neg hne)

/-- A reload of another table leaves this one alone. -/
theorem reloadTable_other (hn : IsTable n) {m : String} (hm : IsTable m) (hne : n ≠ m)
    {f : ReloadFrame} {fault : Option Fault} (hstep : reloadTable W s m f fault = some s') :
    s'.table n = s.table n := by
  have hset : ∀ (t : State) frame, t.table n = s.table n →
      (t.setReload m frame).table n = s.table n :=
    fun t frame ht => ((table_setReload frame).trans (if_neg hne)).trans ht
  have hthrow : ∀ (t : State) what, t.table n = s.table n →
      (t.throws m f what).table n = s.table n := fun t what ht => hset t none ht
  have hclose : ∀ staging, (s.closeIndex (dbName m staging)).table n = s.table n :=
    fun staging => (table_closeIndex hn hm staging).trans (if_neg hne)
  cases reloadStep hstep with
  | empty what hpc => exact hthrow s _ rfl
  | reads head hpc hhead => exact hset s _ rfl
  | unresolved e what live hpc => exact hthrow s _ rfl
  | resolves live hpc => exact hset s _ rfl
  | keepsLink live dir hpc hkey => exact hset s _ rfl
  | unlinked e what dir hpc => exact hthrow _ _ ((table_setLink none).trans (if_neg hne))
  | links dir hpc => exact hset _ _ ((table_setLink (some dir)).trans (if_neg hne))
  | closesNext live dir hpc => exact hset _ _ (hclose _)
  | unopened e what live dir hpc => exact hthrow _ _ (unlinkUnless_other hne)
  | opensNext live dir hpc => exact hset _ _ ((table_openIndex hn hm _).trans (if_neg hne))
  | crashes live dir hpc hbuilt => rfl
  | unbuilt what live dir hpc hbuilt =>
    exact hthrow _ _ ((unlinkUnless_other hne).trans (hclose _))
  | builds live dir slot hpc hbuilt => exact hset _ _ ((table_startKafka slot).trans (if_neg hne))
  | swaps live slot head hpc hhead => exact hset _ _ ((table_setHead _).trans (if_neg hne))
  | stops live oldSp hpc =>
    cases oldSp with
    | none => exact hset s _ rfl
    | some old => exact hset _ _ ((table_stopKafka old).trans (if_neg hne))
  | drains live old hpc hfree => exact hset s _ rfl
  | closesPrev live hpc => exact hset _ _ (hclose _)
  | returns live hpc => exact hset _ _ (unlinkUnless_other hne)

theorem table_setReload_self (frame : Option ReloadFrame) :
    (s.setReload n frame).table n = { s.table n with frame := frame } :=
  (table_setReload frame).trans (if_pos rfl)

theorem table_throws (f : ReloadFrame) (what : String) :
    (s.throws n f what).table n = { s.table n with frame := none } :=
  table_setReload_self (s := s) none

/-- Where a reload opens its next key. -/
theorem target_next (hs : Named s) (hn : IsTable n) (live : Bool) :
    s.target W (dbName n !live) = if live then W.resolve s.clock n
      else (s.table n).link.getD (W.resolve s.clock (reloadStagingDbName n)) := by
  cases live with
  | false => rfl
  | true => exact target_primary hs hn

theorem reloadTable_step (hs : Named s) (hn : IsTable n) {f : ReloadFrame}
    (hframe : s.reload n = some f) {fault : Option Fault}
    (hstep : reloadTable W s n f fault = some s') :
    Table.Step W s n (.reload n fault) (s.table n) (s'.table n) := by
  have hthrow : ∀ (t : State) what, (∃ link, t.table n = { s.table n with link := link }) →
      f.pc.mayThrow = true →
      Table.Step W s n (.reload n fault) (s.table n) ((t.throws n f what).table n) := by
    rintro t what ⟨link, ht⟩ hpc
    rw [table_throws, ht]
    exact .throws f link hframe hpc
  have hclose : ∀ staging,
      (s.closeIndex (dbName n staging)).table n = (s.table n).setDb staging none :=
    fun staging => (table_closeIndex hn hn staging).trans (if_pos rfl)
  have hlink : ∀ link, (s.setLink (reloadStagingDbName n) link).table n =
      { s.table n with link := link } := fun link => (table_setLink link).trans (if_pos rfl)
  cases reloadStep hstep with
  | empty what hpc => exact hthrow s _ ⟨_, rfl⟩ (by rw [hpc]; rfl)
  | reads head hpc hhead =>
    rw [table_setReload_self]
    exact .reads f head hframe hpc hhead
  | unresolved e what live hpc => exact hthrow s _ ⟨_, rfl⟩ (by rw [hpc]; rfl)
  | resolves live hpc =>
    rw [table_setReload_self]
    exact .resolves f live hframe hpc
  | keepsLink live dir hpc hkey =>
    have hlive : live = true := by
      cases live with
      | true => rfl
      | false => exact absurd hkey.symm hn.ne_staging
    rw [table_setReload_self]
    exact .links f live dir (s.table n).link hframe hpc fun hfalse => by
      rw [hlive] at hfalse
      cases hfalse
  | unlinked e what dir hpc => exact hthrow _ _ ⟨none, hlink none⟩ (by rw [hpc]; rfl)
  | links dir hpc =>
    rw [table_setReload_self]
    exact hlink (some dir) ▸ .links f false dir (some dir) hframe hpc fun _ => rfl
  | closesNext live dir hpc =>
    rw [table_setReload_self, hclose]
    exact .closesNext f live dir hframe hpc
  | unopened e what live dir hpc =>
    exact hthrow _ _ (table_unlinkUnless s n !live) (by rw [hpc]; rfl)
  | opensNext live dir hpc =>
    have hopen := (table_openIndex (W := W) (s := s) hn hn (!live)).trans (if_pos rfl)
    rw [table_setReload_self, hopen, target_next hs hn]
    exact .opensNext f live dir hframe hpc
  | crashes live dir hpc hbuilt => exact .same _ _
  | unbuilt what live dir hpc hbuilt =>
    obtain ⟨link, hunlink⟩ := table_unlinkUnless (s.closeIndex (dbName n !live)) n !live
    rw [table_throws, hunlink, hclose]
    exact .buildThrows f live dir link hframe hpc
  | builds live dir slot hpc hbuilt =>
    obtain ⟨kv, hkv, hslot⟩ := buildSlotAfterOpen_slot hbuilt
    have hstart := (table_startKafka (s := s) (n := n) slot).trans (if_pos rfl)
    rw [table_setReload_self, hstart]
    exact .builds f live dir kv slot hframe hpc hkv hslot
  | swaps live slot head hpc hhead =>
    have hset := (table_setHead (s := s) (n := n) ⟨some slot, !live⟩).trans (if_pos rfl)
    rw [table_setReload_self, hset]
    exact .swaps f live slot head hframe hpc hhead
  | stops live oldSp hpc =>
    have hstop : (oldSp.elim s fun old => s.stopKafka n old).table n =
        oldSp.elim (s.table n) (s.table n).stopKafka := by
      cases oldSp with
      | none => rfl
      | some old => exact (table_stopKafka old).trans (if_pos rfl)
    rw [table_setReload_self, hstop]
    exact .stops f live oldSp hframe hpc
  | drains live old hpc hfree =>
    rw [table_setReload_self]
    exact .drains f live old hframe hpc hfree
  | closesPrev live hpc =>
    rw [table_setReload_self, hclose]
    exact .closesPrev f live hframe hpc
  | returns live hpc =>
    obtain ⟨link, hunlink⟩ := table_unlinkUnless s n live
    rw [table_answer, table_setReload_self, hunlink]
    exact .returns f live link hframe hpc

/-! ## Every action -/

theorem waitingCall_step (hs : Named s) {i : Nat} {call : Call} (hcall : s.calls[i]? = some call)
    {fault : Option Fault} (hstep : waitingCall W s i fault call = some s') :
    Table.Step W s n (.call i fault) (s.table n) (s'.table n) := by
  have hmem := List.mem_of_getElem? hcall
  cases callStep hstep with
  | loads tableDir caller hfree =>
    have hnone : (s.table n).load = none := by simp [State.table, hfree]
    by_cases hname : LoadFrame.name ⟨tableDir, caller, .check⟩ = n
    · rw [table_setLoad_self hname]
      exact .loadBegins ⟨tableDir, caller, .check⟩ hname rfl hmem hnone
    · have hsame : ((s.endCall i).setLoad ⟨tableDir, caller, .check⟩).table n = s.table n := by
        rw [table_setLoad, if_neg hname, table_endCall, ← hnone]
      rw [hsame]
      exact .same _ _
  | locks table since hfree =>
    by_cases hname : n = table
    · subst hname
      rw [table_setReload_self]
      exact .reloadBegins since hmem hfree (hs.serial n since hmem)
    · rw [table_setReload, if_neg hname]
      exact .same _ _
  | _ => exact .same _ _

/-- The registry simulates each of its tables. -/
theorem step_table (hs : Named s) (hn : IsTable n) (hstep : step W s a = some s') :
    Table.Step W s n a (s.table n) (s'.table n) := by
  unfold step at hstep
  split at hstep
  · cases hstep
  · cases a with
    | tick =>
      obtain rfl := Option.some.inj hstep
      exact .same _ _
    | acquire table =>
      obtain ⟨slot, -, rfl⟩ := Option.map_eq_some_iff.mp hstep
      exact .same _ _
    | release handle =>
      obtain rfl := Option.some.inj hstep
      exact .same _ _
    | scanAndLoad entries =>
      obtain rfl := Option.some.inj hstep
      exact .same _ _
    | reloadTable table =>
      obtain rfl := Option.some.inj hstep
      exact .same _ _
    | call i fault =>
      obtain ⟨call, hcall, hstep⟩ := Option.bind_eq_some_iff.mp hstep
      exact waitingCall_step hs hcall hstep
    | load fault =>
      obtain ⟨f, hf, rfl⟩ := Option.map_eq_some_iff.mp hstep
      by_cases hname : f.name = n
      · subst hname
        exact loadTable_step hs hf fault hn
      · rw [loadTable_other hs hn hf hname]
        exact .same _ _
    | reload table fault =>
      obtain ⟨f, hf, hstep⟩ := Option.bind_eq_some_iff.mp hstep
      by_cases hname : n = table
      · subst hname
        exact reloadTable_step hs hn hf hstep
      · have htable : IsTable table := hs.head table (hs.frame table (by simp [hf]))
        rw [reloadTable_other hn htable hname hstep]
        exact .same _ _

end Simulation
end YikvServer.Registry
