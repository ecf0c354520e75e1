import YikvServer.Registry.Simulation
import YikvServer.Registry.Calls

/-!
# Safety of the registry

The head of a table always holds a slot whose key is open, the other key belongs to the
reload under way, and a handle pins the live slot or the one that a reload is waiting
for. So no key is closed under a handle.
-/
namespace YikvServer.Registry

open YikvServer.Theory

/-! ## One table -/

/-- What `LoadTable` knows at each statement. -/
def LoadPc.Fits (n : String) (db : Bool → Option KVIndex) : LoadPc → Prop
  | .check | .openIndex => True
  | .canonical | .build _ => ∃ kv, db false = some kv ∧ kv.key = n
  | .insert slot => db false = some slot.kv ∧ slot.kv.key = n

/-- What `ReloadTable` knows at each statement. -/
def ReloadPc.Fits (n : String) (db : Bool → Option KVIndex) (head : TableHead) : ReloadPc → Prop
  | .read => True
  | .canonical live | .link live _ | .closeNext live _ => head.stagingIsLive = live
  | .openNext live _ => head.stagingIsLive = live ∧ db (!live) = none
  | .build live _ => head.stagingIsLive = live ∧
      ∃ kv, db (!live) = some kv ∧ kv.key = dbName n !live
  | .swap live slot => head.stagingIsLive = live ∧
      db (!live) = some slot.kv ∧ slot.kv.key = dbName n !live
  | .stop live old | .drain live old => head.stagingIsLive = !live ∧
      ∃ slot, old = some slot ∧ db live = some slot.kv ∧ slot.kv.key = dbName n live
  | .closePrev live | .unlinkPrev live => head.stagingIsLive = !live

structure Table.Safe (n : String) (v : Table) : Prop where
  live : ∀ head, v.head = some head → ∃ slot, head.slot = some slot ∧
    v.db head.stagingIsLive = some slot.kv ∧ slot.kv.key = dbName n head.stagingIsLive
  frame : ∀ f, v.frame = some f → ∃ head, v.head = some head ∧ f.pc.Fits n v.db head
  load : ∀ f, v.load = some f → f.pc ≠ .check → v.head = none ∧ f.pc.Fits n v.db
  /-- The key of a table that is not registered is closed until `LoadTable` opens it. -/
  closed : v.head = none → (∀ f, v.load = some f → f.pc = .check ∨ f.pc = .openIndex) →
    v.db false = none

/-- The slots of this table that handles may pin. -/
def Table.Pins (v : Table) (slot : TableSlot) : Prop :=
  (∃ head, v.head = some head ∧ head.slot = some slot) ∨
    ∃ f live, v.frame = some f ∧ (f.pc = .stop live (some slot) ∨ f.pc = .drain live (some slot))

section Steps
variable {W : World} {s s' : State} {n : String} {a : Action} {v v' : Table}

theorem Table.Safe.frame_none (h : v.Safe n) (hhead : v.head = none) : v.frame = none := by
  cases hframe : v.frame with
  | none => rfl
  | some f =>
    obtain ⟨head, hsome, -⟩ := h.frame f hframe
    rw [hhead] at hsome
    cases hsome

theorem Table.Safe.frame_isSome (h : v.Safe n) {f : ReloadFrame} (hframe : v.frame = some f) :
    v.head.isSome := by
  obtain ⟨head, hhead, -⟩ := h.frame f hframe
  exact Option.isSome_iff_exists.mpr ⟨head, hhead⟩

/-- On a registered table the load under way has only to look. -/
theorem Table.Safe.load_check (h : v.Safe n) (hhead : v.head.isSome) {f : LoadFrame}
    (hload : v.load = some f) : f.pc = .check := by
  by_contra hpc
  rw [(h.load f hload hpc).1] at hhead
  cases hhead

theorem Table.Safe.registered {head : TableHead} (hhead : v.head = some head)
    (hlive : ∃ slot, head.slot = some slot ∧ v.db head.stagingIsLive = some slot.kv ∧
      slot.kv.key = dbName n head.stagingIsLive)
    (hframe : ∀ f, v.frame = some f → f.pc.Fits n v.db head)
    (hload : ∀ f, v.load = some f → f.pc = .check) : v.Safe n where
  live head' hhead' := Option.some.inj (hhead.symm.trans hhead') ▸ hlive
  frame f hf := ⟨head, hhead, hframe f hf⟩
  load f hf hpc := absurd (hload f hf) hpc
  closed hnone := by
    rw [hhead] at hnone
    cases hnone

theorem Table.Safe.unregistered (hhead : v.head = none) (hframe : v.frame = none)
    (hload : ∀ f, v.load = some f → f.pc ≠ .check → f.pc.Fits n v.db)
    (hclosed : (∀ f, v.load = some f → f.pc = .check ∨ f.pc = .openIndex) → v.db false = none) :
    v.Safe n where
  live head hsome := by
    rw [hhead] at hsome
    cases hsome
  frame f hf := by
    rw [hframe] at hf
    cases hf
  load f hf hpc := ⟨hhead, hload f hf hpc⟩
  closed _ := hclosed

@[simp] theorem setDb_db_self (staging : Bool) (kv : Option KVIndex) :
    (v.setDb staging kv).db staging = kv := Function.update_self _ _ _

@[simp] theorem setDb_db_not (staging : Bool) (kv : Option KVIndex) :
    (v.setDb (!staging) kv).db staging = v.db staging :=
  Function.update_of_ne (by cases staging <;> decide) _ _

theorem openDb_closed {staging : Bool} (h : v.db staging = none) (kv : KVIndex) :
    v.openDb staging kv = v.setDb staging (some kv) := by
  rw [Table.openDb, h]
  rfl

/-- The `OpenIndex` of `LoadTable` finds the key of its table closed. -/
theorem Table.Safe.opens (h : v.Safe n) {f : LoadFrame} (hload : v.load = some f)
    (hpc : f.pc = .openIndex) (kv : KVIndex) :
    v.head = none ∧ v.openDb false kv = v.setDb false (some kv) := by
  have hhead := (h.load f hload (by simp [hpc])).1
  have hclosed : v.db false = none := h.closed hhead fun g hg =>
    Option.some.inj (hload.symm.trans hg) ▸ Or.inr hpc
  exact ⟨hhead, openDb_closed hclosed kv⟩

theorem table_startKafka_eq (v : Table) (slot : TableSlot) :
    ∃ consumers, v.startKafka slot = { v with consumers := consumers } := by
  unfold Table.startKafka
  split
  · exact ⟨_, rfl⟩
  · exact ⟨v.consumers, rfl⟩

theorem table_stopKafka_eq (v : Table) (old : Option TableSlot) :
    ∃ consumers, old.elim v v.stopKafka = { v with consumers := consumers } := by
  cases old with
  | none => exact ⟨v.consumers, rfl⟩
  | some slot =>
    simp only [Option.elim_some, Table.stopKafka]
    split
    · exact ⟨_, rfl⟩
    · exact ⟨v.consumers, rfl⟩

/-- The load under way goes on, on a table that is not registered. -/
theorem Table.Safe.loading (h : v.Safe n) (hhead : v.head = none) {f : LoadFrame}
    {db : Bool → Option KVIndex} {consumers : List TableSlot} (hfits : f.pc.Fits n db)
    (hclosed : f.pc = .check ∨ f.pc = .openIndex → db false = none) :
    Table.Safe n { v with db := db, consumers := consumers, load := some f } :=
  .unregistered hhead (h.frame_none hhead) (fun _ hg _ => Option.some.inj hg ▸ hfits)
    fun hall => hclosed (hall f rfl)

/-- The reload under way goes on, and keeps the live key as it is. -/
theorem Table.Safe.reloading (h : v.Safe n) {head : TableHead} (hhead : v.head = some head)
    {f : ReloadFrame} {db : Bool → Option KVIndex} {link : Option Dir}
    {consumers : List TableSlot} (hlive : db head.stagingIsLive = v.db head.stagingIsLive)
    (hfits : f.pc.Fits n db head) :
    Table.Safe n { v with db := db, link := link, consumers := consumers, frame := some f } :=
  .registered hhead (by simpa only [hlive] using h.live head hhead)
    (fun _ hg => Option.some.inj hg ▸ hfits)
    fun _ hload => h.load_check (by simp [hhead]) hload

/-- The reload under way ends. -/
theorem Table.Safe.idle (h : v.Safe n) {head : TableHead} (hhead : v.head = some head)
    {db : Bool → Option KVIndex} {link : Option Dir}
    (hlive : db head.stagingIsLive = v.db head.stagingIsLive) :
    Table.Safe n { v with db := db, link := link, frame := none } :=
  .registered hhead (by simpa only [hlive] using h.live head hhead) (fun _ hg => nomatch hg)
    fun _ hload => h.load_check (by simp [hhead]) hload

theorem Table.Safe.step (h : v.Safe n) (hstep : Table.Step W s n a v v') : v'.Safe n := by
  cases hstep with
  | same => exact h
  | loadBegins f hname hpc hcall hfree =>
    refine ⟨h.live, h.frame, fun g hg hne => ?_, fun hhead _ => h.closed hhead fun g hg => ?_⟩
    · exact absurd (Option.some.inj hg ▸ hpc) hne
    · rw [hfree] at hg
      cases hg
  | loadEnds f hload hpc =>
    refine ⟨h.live, h.frame, fun g hg => (nomatch hg), fun hhead _ => h.closed hhead fun g hg => ?_⟩
    exact Option.some.inj (hload.symm.trans hg) ▸ hpc
  | loadChecked f hload hpc hhead =>
    refine h.loading hhead trivial fun _ => h.closed hhead fun g hg => ?_
    exact Option.some.inj (hload.symm.trans hg) ▸ Or.inl hpc
  | loadOpens f hload hpc =>
    obtain ⟨hhead, hopen⟩ := h.opens hload hpc _
    rw [hopen]
    exact h.loading hhead ⟨_, setDb_db_self false _, rfl⟩ (by simp)
  | loadUndone f hload hpc =>
    have hhead := (h.load f hload (by rcases hpc with hpc | ⟨dir, hpc⟩ <;> simp [hpc])).1
    exact .unregistered hhead (h.frame_none hhead) (fun _ hg => nomatch hg)
      fun _ => setDb_db_self (v := v) false none
  | loadResolves f hload hpc =>
    obtain ⟨hhead, hfits⟩ := h.load f hload (by simp [hpc])
    rw [hpc] at hfits
    exact h.loading hhead hfits (by simp)
  | loadBuilds f dir kv slot hload hpc hopen hslot =>
    obtain ⟨hhead, hfits⟩ := h.load f hload (by simp [hpc])
    rw [hpc] at hfits
    obtain ⟨kv', hkv', hkey⟩ := hfits
    obtain rfl := Option.some.inj (hopen.symm.trans hkv')
    obtain ⟨consumers, he⟩ := table_startKafka_eq v slot
    rw [he, hslot]
    exact h.loading hhead ⟨hopen, hkey⟩ (by simp)
  | loadInserts f slot hload hpc hhead =>
    have hfits := (h.load f hload (by simp [hpc])).2
    rw [hpc] at hfits
    refine .registered rfl ⟨slot, rfl, hfits⟩ (fun g hg => ?_) (fun _ hg => nomatch hg)
    rw [h.frame_none hhead] at hg
    cases hg
  | reloadBegins since hcall hfree hsome =>
    obtain ⟨head, hhead⟩ := Option.isSome_iff_exists.mp hsome
    exact h.reloading hhead rfl trivial
  | throws f link hframe hpc =>
    obtain ⟨head, hhead, -⟩ := h.frame f hframe
    exact h.idle hhead rfl
  | buildThrows f live dir link hframe hpc =>
    obtain ⟨head, hhead, hfits⟩ := h.frame f hframe
    rw [hpc] at hfits
    obtain ⟨rfl, -⟩ := hfits
    exact h.idle hhead (setDb_db_not _ none)
  | reads f head hframe hpc hhead =>
    exact h.reloading hhead rfl rfl
  | resolves f live hframe hpc =>
    obtain ⟨head, hhead, hfits⟩ := h.frame f hframe
    rw [hpc] at hfits
    exact h.reloading hhead rfl hfits
  | links f live dir link hframe hpc hlink =>
    obtain ⟨head, hhead, hfits⟩ := h.frame f hframe
    rw [hpc] at hfits
    exact h.reloading hhead rfl hfits
  | closesNext f live dir hframe hpc =>
    obtain ⟨head, hhead, hfits⟩ := h.frame f hframe
    rw [hpc] at hfits
    obtain rfl := hfits
    exact h.reloading hhead (setDb_db_not _ none) ⟨rfl, setDb_db_self _ none⟩
  | opensNext f live dir hframe hpc =>
    obtain ⟨head, hhead, hfits⟩ := h.frame f hframe
    rw [hpc] at hfits
    obtain ⟨rfl, hclosed⟩ := hfits
    rw [openDb_closed hclosed]
    exact h.reloading hhead (setDb_db_not _ _) ⟨rfl, _, setDb_db_self _ _, rfl⟩
  | builds f live dir kv slot hframe hpc hopen hslot =>
    obtain ⟨head, hhead, hfits⟩ := h.frame f hframe
    rw [hpc] at hfits
    obtain ⟨hlive, kv', hkv', hkey⟩ := hfits
    obtain rfl := Option.some.inj (hopen.symm.trans hkv')
    obtain ⟨consumers, he⟩ := table_startKafka_eq v slot
    rw [he, hslot]
    exact h.reloading hhead rfl ⟨hlive, hopen, hkey⟩
  | swaps f live slot head hframe hpc hhead =>
    obtain ⟨head', hhead', hfits⟩ := h.frame f hframe
    obtain rfl := Option.some.inj (hhead.symm.trans hhead')
    rw [hpc] at hfits
    obtain ⟨rfl, hopen, hkey⟩ := hfits
    refine .registered rfl ⟨slot, rfl, hopen, hkey⟩ (fun g hg => Option.some.inj hg ▸ ?_)
      fun _ hload => h.load_check (by simp [hhead]) hload
    exact ⟨rfl, h.live head hhead⟩
  | stops f live old hframe hpc =>
    obtain ⟨head, hhead, hfits⟩ := h.frame f hframe
    rw [hpc] at hfits
    obtain ⟨consumers, he⟩ := table_stopKafka_eq v old
    rw [he]
    exact h.reloading hhead rfl hfits
  | drains f live old hframe hpc hfree =>
    obtain ⟨head, hhead, hfits⟩ := h.frame f hframe
    rw [hpc] at hfits
    exact h.reloading hhead rfl hfits.1
  | closesPrev f live hframe hpc =>
    obtain ⟨head, hhead, hfits⟩ := h.frame f hframe
    rw [hpc] at hfits
    refine h.reloading hhead ?_ hfits
    rw [show head.stagingIsLive = !live from hfits]
    exact Function.update_of_ne (by cases live <;> decide) _ _
  | returns f live link hframe hpc =>
    obtain ⟨head, hhead, -⟩ := h.frame f hframe
    exact h.idle hhead rfl

@[simp] theorem table_startKafka_head (slot : TableSlot) : (v.startKafka slot).head = v.head := by
  obtain ⟨consumers, he⟩ := table_startKafka_eq v slot
  rw [he]

@[simp] theorem table_startKafka_load (slot : TableSlot) : (v.startKafka slot).load = v.load := by
  obtain ⟨consumers, he⟩ := table_startKafka_eq v slot
  rw [he]

@[simp] theorem table_startKafka_frame (slot : TableSlot) :
    (v.startKafka slot).frame = v.frame := by
  obtain ⟨consumers, he⟩ := table_startKafka_eq v slot
  rw [he]

@[simp] theorem table_stopKafka_head (old : Option TableSlot) :
    (old.elim v v.stopKafka).head = v.head := by
  obtain ⟨consumers, he⟩ := table_stopKafka_eq v old
  rw [he]

@[simp] theorem table_stopKafka_load (old : Option TableSlot) :
    (old.elim v v.stopKafka).load = v.load := by
  obtain ⟨consumers, he⟩ := table_stopKafka_eq v old
  rw [he]

@[simp] theorem table_openDb_load (staging : Bool) (kv : KVIndex) :
    (v.openDb staging kv).load = v.load := by
  unfold Table.openDb
  split <;> rfl

@[simp] theorem table_openDb_head (staging : Bool) (kv : KVIndex) :
    (v.openDb staging kv).head = v.head := by
  unfold Table.openDb
  split <;> rfl

@[simp] theorem table_openDb_frame (staging : Bool) (kv : KVIndex) :
    (v.openDb staging kv).frame = v.frame := by
  unfold Table.openDb
  split <;> rfl

/-- A pinned slot stays pinned: the reload that would let it go waits for its handles. -/
theorem Table.Pins.step {slot : TableSlot} (hpins : v.Pins slot) (hslot : slot ∈ s.handles)
    (hstep : Table.Step W s n a v v') : v'.Pins slot := by
  rcases hpins with ⟨head, hhead, hlive⟩ | ⟨f, live, hframe, hwaits⟩
  · have hkeep : v'.head = v.head → v'.Pins slot := fun he => Or.inl ⟨head, he.trans hhead, hlive⟩
    cases hstep with
    | loadInserts g new hload hpc hnone =>
      rw [hhead] at hnone
      cases hnone
    | swaps g live new head' hframe hpc hhead' =>
      obtain rfl := Option.some.inj (hhead.symm.trans hhead')
      exact Or.inr ⟨_, live, rfl, Or.inl (by rw [hlive])⟩
    | _ => exact hkeep (by simp [Table.setDb])
  · have hkeep : v'.frame = v.frame → v'.Pins slot :=
      fun he => Or.inr ⟨f, live, he.trans hframe, hwaits⟩
    have hnot : ∀ g, v.frame = some g →
        (∀ live, g.pc ≠ .stop live (some slot) ∧ g.pc ≠ .drain live (some slot)) → False := by
      intro g hg hpc
      obtain rfl := Option.some.inj (hframe.symm.trans hg)
      exact hwaits.elim (hpc live).1 (hpc live).2
    cases hstep with
    | same => exact hkeep rfl
    | loadBegins => exact hkeep rfl
    | loadEnds => exact hkeep rfl
    | loadChecked => exact hkeep rfl
    | loadOpens => exact hkeep (by simp)
    | loadUndone => exact hkeep rfl
    | loadResolves => exact hkeep rfl
    | loadBuilds => exact hkeep (by simp)
    | loadInserts => exact hkeep rfl
    | reloadBegins since hcall hfree =>
      rw [hframe] at hfree
      cases hfree
    | stops g live' old hg hpc =>
      obtain rfl := Option.some.inj (hframe.symm.trans hg)
      rcases hwaits with hwaits | hwaits
      · obtain ⟨-, rfl⟩ := ReloadPc.stop.inj (hpc.symm.trans hwaits)
        exact Or.inr ⟨_, live', rfl, Or.inr rfl⟩
      · rw [hwaits] at hpc
        cases hpc
    | drains g live' old hg hpc hfree =>
      obtain rfl := Option.some.inj (hframe.symm.trans hg)
      rcases hwaits with hwaits | hwaits
      · rw [hwaits] at hpc
        cases hpc
      · obtain ⟨-, hold⟩ := ReloadPc.drain.inj (hpc.symm.trans hwaits)
        obtain rfl := Option.some.inj hold
        exact absurd hslot hfree
    | throws g link hg hpc =>
      refine (hnot g hg fun live => ⟨fun he => ?_, fun he => ?_⟩).elim
      · rw [he] at hpc
        cases hpc
      · rw [he] at hpc
        cases hpc
    | reads g _ hg hpc => exact (hnot g hg (by simp [hpc])).elim
    | buildThrows g _ _ _ hg hpc => exact (hnot g hg (by simp [hpc])).elim
    | resolves g _ hg hpc => exact (hnot g hg (by simp [hpc])).elim
    | links g _ _ _ hg hpc => exact (hnot g hg (by simp [hpc])).elim
    | closesNext g _ _ hg hpc => exact (hnot g hg (by simp [hpc])).elim
    | opensNext g _ _ hg hpc => exact (hnot g hg (by simp [hpc])).elim
    | builds g _ _ _ _ hg hpc => exact (hnot g hg (by simp [hpc])).elim
    | swaps g _ _ _ hg hpc => exact (hnot g hg (by simp [hpc])).elim
    | closesPrev g _ hg hpc => exact (hnot g hg (by simp [hpc])).elim
    | returns g _ _ hg hpc => exact (hnot g hg (by simp [hpc])).elim

/-! ## Every run -/

/-- `Acquire` is no step of any table. -/
theorem Table.Step.of_acquire {m : String} (hstep : Table.Step W s n (.acquire m) v v') :
    v' = v := by
  cases hstep
  rfl

structure Safe (s : State) : Prop where
  named : Named s
  table : ∀ n, IsTable n → (s.table n).Safe n
  pinned : ∀ slot ∈ s.handles, ∃ n, IsTable n ∧ (s.table n).Pins slot

theorem Safe.init : Safe .init where
  named := .init
  table _ _ := .unregistered rfl rfl (fun _ hf => nomatch hf) fun _ => rfl
  pinned _ hslot := nomatch hslot

theorem Safe.step (h : Safe s) (hstep : step W s a = some s') : Safe s' := by
  have htable : ∀ n, IsTable n → Table.Step W s n a (s.table n) (s'.table n) :=
    fun n hn => step_table h.named hn hstep
  refine ⟨h.named.step hstep, fun n hn => (h.table n hn).step (htable n hn), fun slot hslot => ?_⟩
  rcases (step_bookkeeping h.named hstep).handles slot hslot with hold | ⟨n, rfl, hacquire⟩
  · obtain ⟨n, hn, hpins⟩ := h.pinned slot hold
    exact ⟨n, hn, hpins.step hold (htable n hn)⟩
  · obtain ⟨head, hhead, hlive⟩ := Option.bind_eq_some_iff.mp hacquire
    have hn : IsTable n := h.named.head n (by simp [hhead])
    refine ⟨n, hn, ?_⟩
    rw [(htable n hn).of_acquire]
    exact Or.inl ⟨head, hhead, hlive⟩

theorem Safe.run {actions : List Action} (h : Safe s)
    (hrun : Runs.exec (Registry.step W) s actions = some s') : Safe s' :=
  Runs.exec_invariant (P := Safe) (fun _ _ _ hs hstep => hs.step hstep) hrun h

/-! ## Heads are never lost -/

theorem Table.Step.head_isSome (hstep : Table.Step W s n a v v') (h : v.head.isSome) :
    v'.head.isSome := by
  cases hstep with
  | loadInserts => rfl
  | swaps => rfl
  | _ => simpa [Table.setDb] using h

theorem Safe.acquire_isSome (h : Safe s) : (acquire s n).isSome ↔ (s.heads n).isSome := by
  unfold acquire
  cases hhead : s.heads n with
  | none => simp
  | some head =>
    have hn : IsTable n := h.named.head n (by simp [hhead])
    obtain ⟨slot, hslot, -⟩ := (h.table n hn).live head hhead
    simp [hslot]

theorem Safe.acquire_step (h : Safe s) (hstep : Registry.step W s a = some s')
    (hacquire : (acquire s n).isSome) : (acquire s' n).isSome := by
  have hhead := h.acquire_isSome.mp hacquire
  have htable := step_table h.named (h.named.head n hhead) hstep
  exact (h.step hstep).acquire_isSome.mpr (htable.head_isSome hhead)

/-! ## A mapping that is gone stays gone -/

/-- The mapping is numbered, and it is not there. -/
def Gone (kv : KVIndex) (s : State) : Prop := kv.opening < s.openings ∧ s.db kv.key ≠ some kv

theorem Gone.step {kv : KVIndex} (h : Gone kv s)
    (hdb : Renumbers s.db s.openings s'.db s'.openings) :
    Gone kv s' := by
  refine ⟨h.1.trans_le hdb.1, fun hopen => ?_⟩
  rcases hdb.2 kv.key with hsame | hclosed | ⟨dir, hnew, -⟩
  · exact h.2 (hsame ▸ hopen)
  · rw [hclosed] at hopen
    cases hopen
  · have hopening : s.openings = kv.opening :=
      congrArg KVIndex.opening (Option.some.inj (hnew.symm.trans hopen))
    exact absurd h.1 (by omega)

/-- Every open mapping has a number given out before. -/
def Numbered (s : State) : Prop := ∀ key kv, s.db key = some kv → kv.opening < s.openings

theorem Numbered.step (h : Numbered s) (hdb : Renumbers s.db s.openings s'.db s'.openings) :
    Numbered s' := by
  intro key kv hopen
  rcases hdb.2 key with hsame | hclosed | ⟨dir, hnew, hlt⟩
  · exact (h key kv (hsame ▸ hopen)).trans_le hdb.1
  · rw [hclosed] at hopen
    cases hopen
  · obtain rfl := Option.some.inj (hnew.symm.trans hopen)
    exact hlt

/-! ## The invariant of the registry -/

/-- Registered tables are served, from open keys, and no key is taken from a handle. -/
structure Served (s : State) : Prop where
  registered : ∀ n head, s.heads n = some head →
    ∃ slot, head.slot = some slot ∧ acquire s n = some slot
  liveOpen : ∀ n head slot, s.heads n = some head → head.slot = some slot →
    s.db (dbName n head.stagingIsLive) = some slot.kv
  pinnedOpen : ∀ slot ∈ s.handles, s.db slot.kv.key = some slot.kv

theorem Safe.served (h : Safe s) : Served s := by
  have htable : ∀ n head, s.heads n = some head → (s.table n).Safe n := fun n head hhead =>
    h.table n (h.named.head n (by simp [hhead]))
  refine ⟨fun n head hhead => ?_, fun n head slot hhead hslot => ?_, fun slot hslot => ?_⟩
  · obtain ⟨slot, hslot, -⟩ := (htable n head hhead).live head hhead
    exact ⟨slot, hslot, by simp [acquire, hhead, hslot]⟩
  · obtain ⟨slot', hslot', hopen, -⟩ := (htable n head hhead).live head hhead
    obtain rfl := Option.some.inj (hslot.symm.trans hslot')
    exact hopen
  · obtain ⟨n, hn, hpins⟩ := h.pinned slot hslot
    rcases hpins with ⟨head, hhead, hlive⟩ | ⟨f, live, hframe, hwaits⟩
    · obtain ⟨slot', hslot', hopen, hkey⟩ := (h.table n hn).live head hhead
      obtain rfl := Option.some.inj (hlive.symm.trans hslot')
      exact hkey ▸ hopen
    · obtain ⟨head, -, hfits⟩ := (h.table n hn).frame f hframe
      have hold : ∃ slot', some slot = some slot' ∧ (s.table n).db live = some slot'.kv ∧
          slot'.kv.key = dbName n live := by
        rcases hwaits with hwaits | hwaits <;> rw [hwaits] at hfits <;> exact hfits.2
      obtain ⟨slot', he, hopen, hkey⟩ := hold
      obtain rfl := Option.some.inj he
      exact hkey ▸ hopen

/-- In every state that a run reaches, registered tables are served from open keys; from
there on a table that could be acquired still can be, and the key of a slot that is
pinned in the end has been neither closed nor opened again in between. -/
theorem registry_safe (W : World) (actions : List Action) (s : State)
    (hrun : Runs.exec (step W) .init actions = some s) :
    Served s ∧ ∀ mid t later u, Runs.exec (step W) s mid = some t →
      Runs.exec (step W) t later = some u →
        (∀ n, (acquire s n).isSome → (acquire t n).isSome) ∧
        ∀ slot ∈ u.handles, s.db slot.kv.key = some slot.kv → t.db slot.kv.key = some slot.kv := by
  have hsafe : Safe s := Safe.init.run hrun
  have hnumbered : Safe s ∧ Numbered s :=
    Runs.exec_invariant (P := fun s => Safe s ∧ Numbered s)
      (fun _ _ _ h hstep => ⟨h.1.step hstep, h.2.step (step_bookkeeping h.1.named hstep).db⟩)
      hrun ⟨.init, fun _ _ hopen => nomatch hopen⟩
  refine ⟨hsafe.served, fun mid t later u hmid hlater => ⟨fun n hacquire => ?_, ?_⟩⟩
  · have hkeep : Safe t ∧ (acquire t n).isSome :=
      Runs.exec_invariant (P := fun s => Safe s ∧ (acquire s n).isSome)
        (fun _ _ _ h hstep => ⟨h.1.step hstep, h.1.acquire_step hstep h.2⟩) hmid ⟨hsafe, hacquire⟩
    exact hkeep.2
  · intro slot hslot hopen
    have hsafeT : Safe t := hsafe.run hmid
    have hpinned : u.db slot.kv.key = some slot.kv :=
      (hsafeT.run hlater).served.pinnedOpen slot hslot
    have hcount : Safe t ∧ s.openings ≤ t.openings :=
      Runs.exec_invariant (P := fun t => Safe t ∧ s.openings ≤ t.openings)
        (fun _ _ _ h hstep =>
          ⟨h.1.step hstep, h.2.trans (step_bookkeeping h.1.named hstep).db.1⟩) hmid ⟨hsafe, le_rfl⟩
    by_contra hgone
    have hlost : Safe u ∧ Gone slot.kv u :=
      Runs.exec_invariant (P := fun t => Safe t ∧ Gone slot.kv t)
        (fun _ _ _ h hstep => ⟨h.1.step hstep, h.2.step (step_bookkeeping h.1.named hstep).db⟩)
        hlater ⟨hsafeT, (hnumbered.2 _ _ hopen).trans_le hcount.2, hgone⟩
    exact hlost.2.2 hpinned

end Steps
/-- `active` of every table is switched from build 1 to build 2 at time 1. -/
def switchedOnce : World where
  dbPath := "/db"
  resolve t path := (if t = 0 then "/builds/1/" else "/builds/2/") ++ path
  kafka _ _ := true

/-- The startup scan of one table `t`. -/
def scanOfT : List Action :=
  [.scanAndLoad ["t"], .call 0 none, .call 0 none, .load none, .load none, .load none, .load none,
    .load none]

/-- A reload of `t` up to its drain. -/
def reloadOfT : List Action :=
  [.reloadTable "t", .call 0 none, .call 0 none, .call 0 none, .reload "t" none, .reload "t" none,
    .reload "t" none, .reload "t" none, .reload "t" none, .reload "t" none, .reload "t" none,
    .reload "t" none]

/-- A request keeps the old mapping of `t` open while the reload waits for it. -/
theorem served_while_draining : ∃ s,
    Runs.exec (step switchedOnce) .init (scanOfT ++ [.acquire "t", .tick] ++ reloadOfT) = some s ∧
      step switchedOnce s (.reload "t" none) = none ∧ s.handles.map (·.kv.dir) = ["/builds/1/t"] ∧
      Served s :=
  ⟨_, rfl, rfl, rfl,
    (registry_safe switchedOnce (scanOfT ++ [.acquire "t", .tick] ++ reloadOfT) _ rfl).1⟩

end YikvServer.Registry
