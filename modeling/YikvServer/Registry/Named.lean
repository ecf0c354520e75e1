import YikvServer.Registry.Table

/-!
# Names, heads and keys

What every run keeps about names: only tables are registered, only registered tables
are reloaded, `LoadTable` works on a table that is not registered yet, and the links of
`ReloadTable` lie under staging keys alone.
-/
namespace YikvServer.Registry

open YikvServer.Theory

structure Named (s : State) : Prop where
  head : ∀ n, (s.heads n).isSome → IsTable n
  frame : ∀ n, (s.reload n).isSome → (s.heads n).isSome
  serial : ∀ n since, Call.serial n since ∈ s.calls → (s.heads n).isSome
  load : ∀ f, s.load = some f → f.pc ≠ .check → IsTable f.name ∧ s.heads f.name = none
  link : ∀ n, IsTable n → s.links n = none
  consumer : ∀ n, s.consumers n ≠ [] → IsTable n

section Steps
variable {W : World} {s s' : State} {n : String} {a : Action}

theorem Named.init : Named .init where
  head := by simp [State.init]
  frame := by simp [State.init]
  serial := by simp [State.init]
  load := by simp [State.init]
  link := fun _ _ => rfl
  consumer := fun _ h => absurd rfl h

/-- Only these parts of the state matter. -/
theorem Named.congr (h : Named s) (hheads : s'.heads = s.heads) (hreload : s'.reload = s.reload)
    (hcalls : ∀ n since, Call.serial n since ∈ s'.calls → Call.serial n since ∈ s.calls)
    (hload : ∀ f, s'.load = some f → f.pc ≠ .check → IsTable f.name ∧ s.heads f.name = none)
    (hlinks : s'.links = s.links) (hconsumers : s'.consumers = s.consumers) : Named s' where
  head := by rw [hheads]; exact h.head
  frame := by rw [hheads, hreload]; exact h.frame
  serial n since hmem := by rw [hheads]; exact h.serial n since (hcalls n since hmem)
  load := by rw [hheads]; exact hload
  link := by rw [hlinks]; exact h.link
  consumer := by rw [hconsumers]; exact h.consumer

theorem Named.closeIndex (h : Named s) (key : String) : Named (s.closeIndex key) :=
  h.congr rfl rfl (fun _ _ => id) h.load rfl rfl

theorem Named.openIndex (h : Named s) (key : String) : Named (s.openIndex W key) := by
  obtain ⟨db, openings, he⟩ := openIndex_eq W s key
  rw [he]
  exact h.congr rfl rfl (fun _ _ => id) h.load rfl rfl

theorem Named.setConsumers (h : Named s) {consumers : String → List TableSlot}
    (htable : ∀ n, consumers n ≠ [] → IsTable n) : Named { s with consumers := consumers } :=
  ⟨h.head, h.frame, h.serial, h.load, h.link, htable⟩

theorem Named.startKafka (h : Named s) (hn : IsTable n) (slot : TableSlot) :
    Named (s.startKafka n slot) := by
  unfold State.startKafka
  split
  · refine h.setConsumers fun m hm => ?_
    by_cases hmn : m = n
    · exact hmn ▸ hn
    · exact h.consumer m (by rwa [Function.update_of_ne hmn] at hm)
  · exact h

theorem Named.stopKafka (h : Named s) (hn : IsTable n) (slot : TableSlot) :
    Named (s.stopKafka n slot) := by
  unfold State.stopKafka
  split
  · refine h.setConsumers fun m hm => ?_
    by_cases hmn : m = n
    · exact hmn ▸ hn
    · exact h.consumer m (by rwa [Function.update_of_ne hmn] at hm)
  · exact h

/-- `LoadTable` returns without having registered anything. -/
theorem Named.loadReturns (h : Named s) (f : LoadFrame) (result : Bool) :
    Named (s.loadReturns f result) := by
  have hkeep : ∀ calls answers, (∀ n since, Call.serial n since ∈ calls →
      Call.serial n since ∈ s.calls) →
      Named { s with load := none, calls := calls, answers := answers } :=
    fun calls answers hcalls => h.congr rfl rfl hcalls (by simp) rfl rfl
  unfold State.loadReturns
  cases f.caller with
  | scan rest => exact hkeep _ _ fun n since hmem => by simpa using hmem
  | hotOpen since => exact hkeep _ _ fun n since hmem => hmem

theorem loadReturns_load (f : LoadFrame) (result : Bool) :
    (s.loadReturns f result).load = none := by
  unfold State.loadReturns
  cases f.caller <;> rfl

theorem loadReturns_heads (f : LoadFrame) (result : Bool) :
    (s.loadReturns f result).heads = s.heads := by
  unfold State.loadReturns
  cases f.caller <;> rfl

theorem loadReturns_setHead (head : TableHead) (f : LoadFrame) (result : Bool) :
    (s.setHead n head).loadReturns f result = (s.loadReturns f result).setHead n head := by
  unfold State.loadReturns
  cases f.caller <;> rfl

/-- A table gets a head, or another one. -/
theorem Named.setHead (h : Named s) (hn : IsTable n) {head : TableHead}
    (hload : ∀ f, s.load = some f → f.pc ≠ .check → f.name ≠ n) :
    Named (s.setHead n head) := by
  have hgrow : ∀ m, (s.heads m).isSome → (Function.update s.heads n (some head) m).isSome := by
    intro m hm
    by_cases hmn : m = n
    · subst hmn
      simp
    · simpa [hmn] using hm
  refine ⟨fun m hm => ?_, fun m hm => hgrow m (h.frame m hm),
    fun m since hmem => hgrow m (h.serial m since hmem), fun f hf hpc => ?_, h.link,
    h.consumer⟩
  · by_cases hmn : m = n
    · exact hmn ▸ hn
    · exact h.head m (by simpa [State.setHead, hmn] using hm)
  · obtain ⟨htable, hnone⟩ := h.load f hf hpc
    have hother : (s.setHead n head).heads f.name = s.heads f.name := by
      simp [State.setHead, hload f hf hpc]
    exact ⟨htable, hother.trans hnone⟩

theorem Named.setReload (h : Named s) (hn : (s.heads n).isSome) (frame : Option ReloadFrame) :
    Named (s.setReload n frame) := by
  refine ⟨h.head, fun m hm => ?_, h.serial, h.load, h.link, h.consumer⟩
  by_cases hmn : m = n
  · exact hmn ▸ hn
  · exact h.frame m (by simpa [State.setReload, hmn] using hm)

theorem Named.setLink (h : Named s) (link : Option Dir) :
    Named (s.setLink (reloadStagingDbName n) link) :=
  ⟨h.head, h.frame, h.serial, h.load, fun m hm =>
    (Function.update_of_ne hm.ne_staging _ _).trans (h.link m hm), h.consumer⟩

theorem Named.throws (h : Named s) (hn : (s.heads n).isSome) (f : ReloadFrame) (what : String) :
    Named (s.throws n f what) :=
  (h.setReload hn none).congr rfl rfl (fun _ _ => id) (h.setReload hn none).load rfl rfl

theorem Named.unlinkUnless (h : Named s) {live : Bool} :
    Named (s.unlinkUnless (dbName n live) n) := by
  unfold State.unlinkUnless
  split
  · exact h
  · cases live with
    | false => exact absurd rfl ‹_›
    | true => exact h.setLink none

theorem Named.setLoad (h : Named s) (f : LoadFrame)
    (hload : f.pc ≠ .check → IsTable f.name ∧ s.heads f.name = none) :
    Named (s.setLoad f) :=
  h.congr rfl rfl (fun _ _ => id) (fun _ hg => Option.some.inj hg ▸ hload) rfl rfl

theorem Named.loadTable (h : Named s) {f : LoadFrame} (hf : s.load = some f)
    (fault : Option Fault) : Named (loadTable W s f fault) := by
  have hname := h.load f hf
  unfold Registry.loadTable
  cases hpc : f.pc with
  | check =>
    dsimp only
    split
    · rename_i hloadable
      split
      · exact h.loadReturns f true
      · rename_i hnone
        exact h.setLoad _ fun _ =>
          ⟨isTable_filename hloadable, Option.not_isSome_iff_eq_none.mp hnone⟩
    · exact h.loadReturns f false
  | openIndex =>
    have hname := hname (by simp [hpc])
    cases fault with
    | some e => exact h.loadReturns f false
    | none =>
      exact (h.openIndex f.name).setLoad _ fun _ => by rwa [openIndex_heads]
  | canonical =>
    have hname := hname (by simp [hpc])
    cases fault with
    | some e => exact (h.closeIndex f.name).loadReturns f false
    | none => exact h.setLoad _ fun _ => hname
  | build cfgDir =>
    have hname := hname (by simp [hpc])
    dsimp only
    split
    · exact h.congr rfl rfl (fun _ _ => id) h.load rfl rfl
    · exact (h.closeIndex f.name).loadReturns f false
    · rename_i slot _
      exact (h.startKafka hname.1 slot).setLoad _ fun _ => by rwa [startKafka_heads]
  | insert slot =>
    obtain ⟨htable, hnone⟩ := hname (by simp [hpc])
    dsimp only
    rw [if_neg (by simp [hnone]), loadReturns_setHead]
    exact (h.loadReturns f true).setHead htable fun g hg => by
      rw [loadReturns_load] at hg
      cases hg

theorem Named.reloadTable (h : Named s) {f : ReloadFrame} (hf : s.reload n = some f)
    {fault : Option Fault} (hstep : reloadTable W s n f fault = some s') : Named s' := by
  have hn : (s.heads n).isSome := h.frame n (by simp [hf])
  cases reloadStep hstep with
  | empty what hpc => exact h.throws hn f _
  | reads head hpc hhead => exact h.setReload hn _
  | unresolved e what live hpc => exact h.throws hn f _
  | resolves live hpc => exact h.setReload hn _
  | keepsLink live dir hpc hkey => exact h.setReload hn _
  | unlinked e what dir hpc => exact (h.setLink none).throws hn f _
  | links dir hpc => exact (h.setLink (some dir)).setReload hn _
  | closesNext live dir hpc => exact (h.closeIndex _).setReload hn _
  | unopened e what live dir hpc => exact h.unlinkUnless.throws (by rwa [unlinkUnless_heads]) f _
  | opensNext live dir hpc => exact (h.openIndex _).setReload (by rwa [openIndex_heads]) _
  | crashes live dir hpc hbuilt => exact h.congr rfl rfl (fun _ _ => id) h.load rfl rfl
  | unbuilt what live dir hpc hbuilt =>
    exact (h.closeIndex _).unlinkUnless.throws (by rwa [unlinkUnless_heads]) f _
  | builds live dir slot hpc hbuilt =>
    exact (h.startKafka (h.head n hn) slot).setReload (by rwa [startKafka_heads]) _
  | swaps live slot head hpc hhead =>
    refine Named.setReload (h.setHead (h.head n hn) fun g hg hgpc hname => ?_)
      (by simp [State.setHead]) _
    have hnone := (h.load g hg hgpc).2
    rw [hname, hhead] at hnone
    cases hnone
  | stops live oldSp hpc =>
    cases oldSp with
    | none => exact h.setReload hn _
    | some old => exact (h.stopKafka (h.head n hn) old).setReload (by rwa [stopKafka_heads]) _
  | drains live old hpc hfree => exact h.setReload hn _
  | closesPrev live hpc => exact (h.closeIndex _).setReload hn _
  | returns live hpc =>
    have hunlink : Named (s.unlinkUnless (dbName n live) n) := h.unlinkUnless
    have hdone := hunlink.setReload (by rwa [unlinkUnless_heads]) none
    exact hdone.congr rfl rfl (fun _ _ => id) hdone.load rfl rfl

theorem Named.waitingCall (h : Named s) {i : Nat} {call : Call} (hcall : s.calls[i]? = some call)
    {fault : Option Fault} (hstep : waitingCall W s i fault call = some s') : Named s' := by
  have hend : ∀ answers, Named { s.endCall i with answers := answers } := fun answers =>
    h.congr rfl rfl (fun _ _ hmem => List.mem_of_mem_eraseIdx hmem) h.load rfl rfl
  have hset : ∀ call', (∀ m since, call' = .serial m since → (s.heads m).isSome) →
      Named (s.setCall i call') := by
    intro call' hserial
    refine ⟨h.head, h.frame, fun m since hmem => ?_, h.load, h.link, h.consumer⟩
    rcases List.mem_or_eq_of_mem_set hmem with hmem | heq
    · exact h.serial m since hmem
    · exact hserial m since heq.symm
  cases callStep hstep with
  | ends => exact hend _
  | skips leaf rest => exact hset _ (by simp)
  | scans leaf rest => exact hset _ (by simp)
  | finds table since => exact hset _ (by simp)
  | hotOpens table since hnone => exact hset _ (by simp)
  | isDirectory table since => exact hset _ (by simp)
  | loads tableDir caller hfree => exact (hend s.answers).setLoad _ fun hpc => absurd rfl hpc
  | looksUp table since hhead =>
    refine hset _ fun m t heq => ?_
    obtain ⟨rfl, -⟩ := Call.serial.inj heq
    exact hhead
  | locks table since hfree =>
    exact (hend s.answers).setReload (h.serial table since (List.mem_of_getElem? hcall)) _
  | throws _ table since what => exact hend _

theorem Named.step (h : Named s) (hstep : step W s a = some s') : Named s' := by
  unfold Registry.step at hstep
  split at hstep
  · cases hstep
  · cases a with
    | tick =>
      obtain rfl := Option.some.inj hstep
      exact h.congr rfl rfl (fun _ _ => id) h.load rfl rfl
    | acquire table =>
      obtain ⟨slot, -, rfl⟩ := Option.map_eq_some_iff.mp hstep
      exact h.congr rfl rfl (fun _ _ => id) h.load rfl rfl
    | release handle =>
      obtain rfl := Option.some.inj hstep
      exact h.congr rfl rfl (fun _ _ => id) h.load rfl rfl
    | scanAndLoad entries =>
      obtain rfl := Option.some.inj hstep
      exact h.congr rfl rfl (fun _ _ hmem => by simpa using hmem) h.load rfl rfl
    | reloadTable table =>
      obtain rfl := Option.some.inj hstep
      exact h.congr rfl rfl (fun _ _ hmem => by simpa using hmem) h.load rfl rfl
    | call i fault =>
      obtain ⟨call, hcall, hstep⟩ := Option.bind_eq_some_iff.mp hstep
      exact h.waitingCall hcall hstep
    | load fault =>
      obtain ⟨f, hf, rfl⟩ := Option.map_eq_some_iff.mp hstep
      exact h.loadTable hf fault
    | reload table fault =>
      obtain ⟨f, hf, hstep⟩ := Option.bind_eq_some_iff.mp hstep
      exact h.reloadTable hf hstep

end Steps
end YikvServer.Registry
