import YikvServer.Admin.AdminLoop
import YikvServer.Registry.Safety

/-!
# What ends the server

Two statements that `AdminLoop` runs can end the process: the write of an answer, when the
client has hung up and `SIGPIPE` is not yet ignored, and the use of a null index in
`ReloadTable`. So a client that only probes the socket ends a server that still loads its
tables, and never one that has set up its RPC server.
-/
namespace YikvServer.Admin

open YikvServer.Theory YikvServer.Registry

variable {W : World} {path : String}

/-! ## Null indexes -/

section Crash
variable {s s' : State}

@[simp] theorem openIndex_crashed (key : String) : (s.openIndex W key).crashed = s.crashed := by
  obtain ⟨db, openings, he⟩ := openIndex_eq W s key
  rw [he]

@[simp] theorem startKafka_crashed (table : String) (slot : TableSlot) :
    (s.startKafka table slot).crashed = s.crashed := by
  obtain ⟨consumers, he⟩ := startKafka_eq s table slot
  rw [he]

@[simp] theorem stopKafka_crashed (table : String) (slot : TableSlot) :
    (s.stopKafka table slot).crashed = s.crashed := by
  obtain ⟨consumers, he⟩ := stopKafka_eq s table slot
  rw [he]

@[simp] theorem unlinkUnless_crashed (key table : String) :
    (s.unlinkUnless key table).crashed = s.crashed := by
  unfold State.unlinkUnless
  split <;> rfl

@[simp] theorem loadReturns_crashed (f : LoadFrame) (result : Bool) :
    (s.loadReturns f result).crashed = s.crashed := by
  unfold State.loadReturns
  split <;> rfl

/-- The statement that calls `BuildSlotAfterOpen`. -/
def builds (registry : State) : Action → Bool
  | .load _ => registry.load.any fun f => match f.pc with
    | .build _ => true
    | _ => false
  | .reload table _ => (registry.reload table).any fun f => match f.pc with
    | .build .. => true
    | _ => false
  | _ => false

def faultOf : Action → Option Fault
  | .call _ fault | .load fault | .reload _ fault => fault
  | _ => none

/-- `BuildSlotAfterOpen` gets a null index. -/
def nullIndex (registry : State) (a : Action) : Bool :=
  builds registry a && faultOf a = some .noIndex

/-- Where the index is open, only a null index crashes. -/
theorem buildSlotAfterOpen_crash {key : String} {dir : Dir} {fault : Option Fault}
    (hopen : s.db key ≠ none) :
    buildSlotAfterOpen W s key dir fault = .crash ↔ fault = some .noIndex := by
  obtain ⟨kv, hkv⟩ := Option.ne_none_iff_exists'.mp hopen
  constructor
  · intro h
    unfold buildSlotAfterOpen at h
    split at h
    · rfl
    · rw [hkv] at h
      dsimp only at h
      split at h <;> cases h
  · rintro rfl
    rfl

theorem buildSlotAfterOpen_fault {key : String} {dir : Dir} {fault : Option Fault} {built : Built}
    (hcrash : buildSlotAfterOpen W s key dir fault = .crash ↔ fault = some .noIndex)
    (hbuilt : buildSlotAfterOpen W s key dir fault = built) (hreturns : built ≠ .crash) :
    fault ≠ some .noIndex := by
  intro hfault
  exact hreturns (hbuilt.symm.trans (hcrash.mpr hfault))

theorem loadTable_crashed (hs : Safe s) (hrunning : s.crashed = false) {f : LoadFrame}
    (hload : s.load = some f) (fault : Option Fault) :
    (loadTable W s f fault).crashed = true ↔ nullIndex s (.load fault) = true := by
  simp only [nullIndex, builds, faultOf, hload, Option.any_some]
  unfold loadTable
  cases hpc : f.pc with
  | build cfgDir =>
    obtain ⟨hname, hnone⟩ := hs.named.load f hload (by simp [hpc])
    have hfits := ((hs.table f.name hname).load f (by simp [State.table, hload])
      (by simp [hpc])).2
    rw [hpc] at hfits
    obtain ⟨kv, hkv, -⟩ := hfits
    have hopen : s.db f.name ≠ none := by
      rw [show s.db f.name = some kv from hkv]
      exact Option.some_ne_none _
    have hcrash : buildSlotAfterOpen W s f.name cfgDir fault = .crash ↔ fault = some .noIndex :=
      buildSlotAfterOpen_crash hopen
    dsimp only
    split
    · next hbuilt => simp [hcrash.mp hbuilt]
    · next hbuilt =>
      have hfault := buildSlotAfterOpen_fault hcrash hbuilt Built.noConfusion
      simp [State.closeIndex, hrunning, hfault]
    · next hbuilt =>
      have hfault := buildSlotAfterOpen_fault hcrash hbuilt Built.noConfusion
      simp [State.setLoad, hrunning, hfault]
  | check =>
    dsimp only
    split
    · split <;> simp [State.setLoad, hrunning]
    · simp [hrunning]
  | openIndex => cases fault <;> simp [State.setLoad, hrunning]
  | canonical => cases fault <;> simp [State.setLoad, State.closeIndex, hrunning]
  | insert slot =>
    dsimp only
    split <;> simp [State.closeIndex, State.setHead, hrunning]

theorem reloadTable_crashed (hs : Safe s) (hrunning : s.crashed = false) {n : String}
    {f : ReloadFrame} (hframe : s.reload n = some f) {fault : Option Fault}
    (hstep : reloadTable W s n f fault = some s') :
    s'.crashed = true ↔ nullIndex s (.reload n fault) = true := by
  have hbuild : ∀ live dir, f.pc = .build live dir →
      (buildSlotAfterOpen W s (dbName n !live) dir fault = .crash ↔ fault = some .noIndex) := by
    intro live dir hpc
    have hn : IsTable n := hs.named.head n (hs.named.frame n (by simp [hframe]))
    obtain ⟨head, -, hfits⟩ := (hs.table n hn).frame f hframe
    rw [hpc] at hfits
    obtain ⟨-, kv, hkv, -⟩ := hfits
    refine buildSlotAfterOpen_crash ?_
    rw [show s.db (dbName n !live) = some kv from hkv]
    exact Option.some_ne_none _
  simp only [nullIndex, builds, faultOf, hframe, Option.any_some]
  cases reloadStep hstep with
  | crashes live dir hpc hbuilt => simp [hpc, (hbuild live dir hpc).mp hbuilt]
  | unbuilt what live dir hpc hbuilt =>
    have hfault := buildSlotAfterOpen_fault (hbuild live dir hpc) hbuilt Built.noConfusion
    simp [hpc, State.closeIndex, State.throws, State.setReload, State.answer, hrunning, hfault]
  | builds live dir slot hpc hbuilt =>
    have hfault := buildSlotAfterOpen_fault (hbuild live dir hpc) hbuilt Built.noConfusion
    simp [hpc, State.setReload, hrunning, hfault]
  | empty what hpc => simp [hpc, State.throws, State.setReload, State.answer, hrunning]
  | reads head hpc hhead => simp [hpc, State.setReload, hrunning]
  | unresolved e what live hpc =>
    simp [hpc, State.throws, State.setReload, State.answer, hrunning]
  | resolves live hpc => simp [hpc, State.setReload, hrunning]
  | keepsLink live dir hpc hkey => simp [hpc, State.setReload, hrunning]
  | unlinked e what dir hpc =>
    simp [hpc, State.throws, State.setReload, State.answer, State.setLink, hrunning]
  | links dir hpc => simp [hpc, State.setReload, State.setLink, hrunning]
  | closesNext live dir hpc => simp [hpc, State.setReload, State.closeIndex, hrunning]
  | unopened e what live dir hpc =>
    simp [hpc, State.throws, State.setReload, State.answer, hrunning]
  | opensNext live dir hpc => simp [hpc, State.setReload, hrunning]
  | swaps live slot head hpc hhead => simp [hpc, State.setReload, State.setHead, hrunning]
  | stops live oldSp hpc => cases oldSp <;> simp [hpc, State.setReload, hrunning]
  | drains live old hpc hfree => simp [hpc, State.setReload, hrunning]
  | closesPrev live hpc => simp [hpc, State.setReload, State.closeIndex, hrunning]
  | returns live hpc => simp [hpc, State.setReload, State.answer, hrunning]

theorem waitingCall_crashed {i : Nat} {fault : Option Fault} {call : Call}
    (hstep : waitingCall W s i fault call = some s') : s'.crashed = s.crashed := by
  cases callStep hstep with
  | _ => rfl

/-- Only a null index crashes the server. -/
theorem step_crashed (hs : Safe s) {a : Action} (hstep : Registry.step W s a = some s') :
    s'.crashed = true ↔ nullIndex s a = true := by
  unfold Registry.step at hstep
  split at hstep
  · cases hstep
  rename_i hrunning
  have hrunning : s.crashed = false := Bool.eq_false_iff.mpr hrunning
  cases a with
  | load fault =>
    obtain ⟨f, hload, rfl⟩ := Option.map_eq_some_iff.mp hstep
    exact loadTable_crashed hs hrunning hload fault
  | reload table fault =>
    obtain ⟨f, hframe, hstep⟩ := Option.bind_eq_some_iff.mp hstep
    exact reloadTable_crashed hs hrunning hframe hstep
  | call i fault =>
    obtain ⟨call, -, hstep⟩ := Option.bind_eq_some_iff.mp hstep
    simp [nullIndex, builds, waitingCall_crashed hstep, hrunning]
  | acquire table =>
    obtain ⟨slot, -, rfl⟩ := Option.map_eq_some_iff.mp hstep
    simp [nullIndex, builds, hrunning]
  | _ =>
    obtain rfl := Option.some.inj hstep
    simp [nullIndex, builds, hrunning]

end Crash

/-! ## Runs of the server -/

/-- An answer is written to a client that has not hung up, or when `SIGPIPE` is ignored, and
a reload gets an index. -/
def Process.Harmless (p : Process) : Move → Prop
  | .admin _ _ =>
    match p.admin with
    | .write c _ => p.phase.ignoresSigpipe = true ∨
        ∀ connection ∈ p.connections[c]?, connection.hungUp = false
    | _ => True
  | .registry a => runner p.registry a = .adminLoop → nullIndex p.registry a = false
  | _ => True

instance (p : Process) (m : Move) : Decidable (p.Harmless m) := by
  unfold Process.Harmless
  repeat' split
  all_goals infer_instance

/-- The process runs on, or has been ended by another thread. -/
def Survives (p : Process) : Prop := p.ended ≠ some .adminLoop

/-- What holds in a run of the server that `AdminLoop` has not ended. -/
structure Serving (p : Process) : Prop where
  registry : Safe p.registry
  survives : Survives p

namespace Serving
variable {p p' : Process} {m : Move}

theorem init : Serving (.init path) := ⟨.init, nofun⟩

/-- A step that leaves the registry alone and ends nothing. -/
theorem congr (h : Serving p) (hregistry : p'.registry = p.registry)
    (hended : p'.ended = p.ended) : Serving p' :=
  ⟨hregistry ▸ h.registry, fun he => h.survives (hended ▸ he)⟩

theorem calls (h : Serving p) {a : Action} {registry : State}
    (hstep : Registry.step W p.registry a = some registry)
    (hregistry : p'.registry = registry) (hended : p'.ended = p.ended) : Serving p' :=
  ⟨hregistry ▸ h.registry.step hstep, fun he => h.survives (hended ▸ he)⟩

theorem obey (h : Serving p) {c : Nat} {line : List Char} (hstep : p.obey W c line = some p') :
    Serving p' := by
  unfold Process.obey at hstep
  split at hstep
  · obtain rfl := Option.some.inj hstep
    exact h.congr rfl rfl
  · obtain ⟨registry, hcall, rfl⟩ := Option.map_eq_some_iff.mp hstep
    exact h.calls hcall rfl rfl

theorem and_iff (h : Serving p') (hok : p.Harmless m) :
    Safe p'.registry ∧ (Survives p' ↔ p.Harmless m) := ⟨h.registry, iff_of_true h.survives hok⟩

/-- Of the statements of `AdminLoop` only the write can end the process. -/
theorem adminLoop (h : Serving p) {fails : Bool} {count : Nat}
    (hstep : p.adminLoop W path fails count = some p') :
    Safe p'.registry ∧ (Survives p' ↔ p.Harmless (.admin fails count)) := by
  have hok : (∀ c resp, p.admin ≠ .write c resp) → p.Harmless (.admin fails count) := by
    intro hpc
    unfold Process.Harmless
    dsimp only
    split
    · next c resp hwrite => exact absurd hwrite (hpc c resp)
    · trivial
  unfold Process.adminLoop at hstep
  cases hpc : p.admin with
  | write c resp =>
    simp only [hpc] at hstep
    obtain ⟨connection, hconnection, rfl⟩ := Option.map_eq_some_iff.mp hstep
    have hharmless : p.Harmless (.admin fails count) ↔
        p.phase.ignoresSigpipe = true ∨ connection.hungUp = false := by
      simp [Process.Harmless, hpc, hconnection]
    rw [hharmless]
    split
    · next hhungUp =>
      split
      · next hignored => exact ⟨h.registry, iff_of_true h.survives (Or.inl hignored)⟩
      · next hdefault =>
        refine ⟨h.registry, iff_of_false (fun hsurvives => hsurvives rfl) ?_⟩
        simp [hdefault, hhungUp]
    · next hthere =>
      exact ⟨h.registry, iff_of_true h.survives (Or.inr (Bool.eq_false_iff.mpr hthere))⟩
  | read c =>
    simp only [hpc] at hstep
    split at hstep
    · exact (h.obey hstep).and_iff (hok (by simp [hpc]))
    · obtain ⟨connection, -, hstep⟩ := Option.bind_eq_some_iff.mp hstep
      obtain ⟨⟨buf, connection'⟩, -, hstep⟩ := Option.bind_eq_some_iff.mp hstep
      have hset : Serving (p.setConnection c connection') := h.congr rfl rfl
      exact (hset.obey hstep).and_iff (hok (by simp [hpc]))
  | reload c seen =>
    simp only [hpc] at hstep
    split at hstep
    · cases hstep
    · split at hstep
      · obtain rfl := Option.some.inj hstep
        exact (h.congr rfl rfl).and_iff (hok (by simp [hpc]))
      · cases hstep
  | accept =>
    simp only [hpc] at hstep
    split at hstep
    · obtain rfl := Option.some.inj hstep
      exact h.and_iff (hok (by simp [hpc]))
    · split at hstep
      · cases hstep
      · obtain rfl := Option.some.inj hstep
        exact (h.congr rfl rfl).and_iff (hok (by simp [hpc]))
  | close c =>
    simp only [hpc] at hstep
    obtain ⟨connection, -, rfl⟩ := Option.map_eq_some_iff.mp hstep
    exact (h.congr rfl rfl).and_iff (hok (by simp [hpc]))
  | returned =>
    simp only [hpc] at hstep
    cases hstep
  | _ =>
    simp only [hpc] at hstep
    obtain rfl := Option.some.inj hstep
    exact (h.congr rfl rfl).and_iff (hok (by simp [hpc]))

theorem main (h : Serving p) {fails : Bool} {entries : List String}
    (hstep : p.main W fails entries = some p') : Serving p' := by
  have hmain : ∀ q : Process, q.registry = p.registry → q.ended = some .main → Serving q :=
    fun q hregistry hended => ⟨hregistry ▸ h.registry, fun he => by
      rw [hended] at he
      cases he⟩
  unfold Process.main at hstep
  split at hstep
  · split at hstep
    · obtain rfl := Option.some.inj hstep
      exact h.congr rfl rfl
    · obtain ⟨registry, hcall, rfl⟩ := Option.map_eq_some_iff.mp hstep
      exact h.calls hcall rfl rfl
  · split at hstep
    · obtain rfl := Option.some.inj hstep
      exact h.congr rfl rfl
    · cases hstep
  · obtain rfl := Option.some.inj hstep
    split
    · exact hmain _ rfl rfl
    · exact h.congr rfl rfl
  · obtain rfl := Option.some.inj hstep
    split
    · exact hmain _ rfl rfl
    · exact h.congr rfl rfl
  · obtain rfl := Option.some.inj hstep
    exact hmain _ rfl rfl

theorem runRegistry (h : Serving p) {a : Action} (hstep : p.runRegistry W a = some p') :
    Safe p'.registry ∧ (Survives p' ↔ p.Harmless (.registry a)) := by
  obtain ⟨-, hstep⟩ := Option.ite_none_right_eq_some.mp hstep
  obtain ⟨registry, hcall, rfl⟩ := Option.map_eq_some_iff.mp hstep
  refine ⟨h.registry.step hcall, ?_⟩
  have hcrashed := step_crashed h.registry hcall
  show (if registry.crashed = true then some (Process.runner p.registry a) else none) ≠
      some .adminLoop ↔ (Process.runner p.registry a = .adminLoop → nullIndex p.registry a = false)
  cases hnull : nullIndex p.registry a with
  | false =>
    rw [if_neg (by rw [hcrashed, hnull]; exact Bool.false_ne_true)]
    exact iff_of_true nofun fun _ => rfl
  | true =>
    rw [if_pos (hcrashed.mpr hnull)]
    cases Process.runner p.registry a <;> simp

/-- One step of the server. -/
theorem step (h : Serving p) (hstep : p.step W path m = some p') :
    Safe p'.registry ∧ (Survives p' ↔ p.Harmless m) := by
  unfold Process.step at hstep
  split at hstep
  · cases hstep
  cases m with
  | connect =>
    obtain ⟨-, heq⟩ := Option.ite_none_right_eq_some.mp hstep
    obtain rfl := Option.some.inj heq
    exact (h.congr rfl rfl).and_iff trivial
  | send client bytes =>
    obtain ⟨connection, -, hstep⟩ := Option.bind_eq_some_iff.mp hstep
    split at hstep
    · cases hstep
    · obtain rfl := Option.some.inj hstep
      exact (h.congr rfl rfl).and_iff trivial
  | hangUp client =>
    obtain ⟨connection, -, rfl⟩ := Option.map_eq_some_iff.mp hstep
    exact (h.congr rfl rfl).and_iff trivial
  | admin fails count => exact h.adminLoop hstep
  | main fails entries => exact (h.main hstep).and_iff trivial
  | registry a => exact h.runRegistry hstep

end Serving

/-- In every run of the server, whatever its clients do and however far `main` has come, no
step of `AdminLoop` has ended the process exactly while every answer is written to a client
that has not hung up, or after `SIGPIPE` is ignored, and `ReloadTable` gets no null
index. -/
theorem adminLoop_survives_iff (W : World) (path : String) (moves : List Move) (p : Process)
    (hrun : Runs.exec (Process.step W path) (.init path) moves = some p) :
    Runs.Guarded (Process.step W path) Process.Harmless (.init path) moves ↔
      ∀ before, before <+: moves →
        ∀ q, Runs.exec (Process.step W path) (.init path) before = some q → Survives q :=
  Runs.guarded_iff (I := Serving)
    (fun _ _ _ h hok hstep => ⟨(h.step hstep).1, (h.step hstep).2.mpr hok⟩)
    (fun _ h => h.survives) (fun _ _ _ h hstep hgood => (h.step hstep).2.mp hgood) hrun .init

/-! ## Probes -/

/-- `AdminLoop` up to its first `accept`. -/
def listenFirst : List Move := List.replicate 4 (.admin false 0)

/-- A client connects and hangs up, and `AdminLoop` takes its turn. -/
def probe : List Move :=
  [.connect, .hangUp 0, .admin false 0, .admin false 0, .admin false 0]

/-- A probe of a server that has set up its RPC server. -/
theorem probe_of_running : ∃ p : Process,
    Runs.exec (Process.step switchedOnce "/run/admin.sock") (.init "/run/admin.sock")
        (listenFirst ++ [.main false [], .registry (.call 0 none), .main false [],
          .main false []] ++ probe) = some p ∧
      p.admin = .close 0 ∧ Survives p :=
  ⟨_, rfl, rfl, (adminLoop_survives_iff switchedOnce "/run/admin.sock"
    (listenFirst ++ [.main false [], .registry (.call 0 none), .main false [],
      .main false []] ++ probe) _ rfl).mp (by decide) _ List.prefix_rfl _ rfl⟩

/-- The same probe of a server that still loads its tables. -/
theorem probe_of_loading : ∃ p : Process,
    Runs.exec (Process.step switchedOnce "/run/admin.sock") (.init "/run/admin.sock")
        (listenFirst ++ [.main false ["t"], .registry (.call 0 none)] ++ probe) = some p ∧
      p.phase = .scanning ∧ ¬ Survives p :=
  ⟨_, rfl, rfl, fun h => h rfl⟩

end YikvServer.Admin
