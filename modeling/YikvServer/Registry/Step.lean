import YikvServer.Registry.State
import YikvServer.Theory.Runs

/-!
# The functions of `TableRegistry`

Each function below runs the current statement of its frame. A statement that throws
releases the locks it holds and answers the caller with the text of the exception.
-/
namespace YikvServer.Registry

open YikvServer.Theory

/-! ## DB and consumers -/

/-- What `db_path_ / key` leads to: a link of `ReloadTable`, or the table's own entry. -/
def State.target (W : World) (s : State) (key : String) : Dir :=
  (s.links key).getD (W.resolve s.clock key)

/-- `DB::OpenIndex`: nothing happens when the key is already open. -/
def State.openIndex (W : World) (s : State) (key : String) : State :=
  if (s.db key).isSome then s
  else
    { s with
      db := Function.update s.db key (some ⟨s.openings, key, s.target W key⟩)
      openings := s.openings + 1 }

def State.closeIndex (s : State) (key : String) : State :=
  { s with db := Function.update s.db key none }

def State.startKafka (s : State) (table : String) (slot : TableSlot) : State :=
  if slot.kafka then
    { s with consumers := Function.update s.consumers table (slot :: s.consumers table) }
  else s

def State.stopKafka (s : State) (table : String) (slot : TableSlot) : State :=
  if slot.kafka then
    { s with consumers := Function.update s.consumers table ((s.consumers table).erase slot) }
  else s

theorem openIndex_eq (W : World) (s : State) (key : String) : ∃ db openings,
    s.openIndex W key = { s with db := db, openings := openings } := by
  unfold State.openIndex
  split
  · exact ⟨s.db, s.openings, rfl⟩
  · exact ⟨_, _, rfl⟩

theorem startKafka_eq (s : State) (table : String) (slot : TableSlot) : ∃ consumers,
    s.startKafka table slot = { s with consumers := consumers } := by
  unfold State.startKafka
  split
  · exact ⟨_, rfl⟩
  · exact ⟨s.consumers, rfl⟩

theorem stopKafka_eq (s : State) (table : String) (slot : TableSlot) : ∃ consumers,
    s.stopKafka table slot = { s with consumers := consumers } := by
  unfold State.stopKafka
  split
  · exact ⟨_, rfl⟩
  · exact ⟨s.consumers, rfl⟩

@[simp] theorem openIndex_heads (W : World) (s : State) (key : String) :
    (s.openIndex W key).heads = s.heads := by
  obtain ⟨db, openings, he⟩ := openIndex_eq W s key
  rw [he]

@[simp] theorem startKafka_heads (s : State) (table : String) (slot : TableSlot) :
    (s.startKafka table slot).heads = s.heads := by
  obtain ⟨consumers, he⟩ := startKafka_eq s table slot
  rw [he]

@[simp] theorem stopKafka_heads (s : State) (table : String) (slot : TableSlot) :
    (s.stopKafka table slot).heads = s.heads := by
  obtain ⟨consumers, he⟩ := stopKafka_eq s table slot
  rw [he]

/-- How `BuildSlotAfterOpen` ends. -/
inductive Built where
  | crash
  | null
  | slot (slot : TableSlot)

/-- `kv->schema()` comes before the test of `kv`, so a null index is dereferenced; a
null schema gives a null slot. -/
def buildSlotAfterOpen (W : World) (s : State) (dbIndexName : String) (tableConfigDir : Dir) :
    Option Fault → Built
  | some .noIndex => .crash
  | fault =>
    match s.db dbIndexName with
    | none => .crash
    | some kv =>
      if fault.isSome then .null else .slot ⟨kv, tableConfigDir, W.kafka s.clock tableConfigDir⟩

/-! ## `LoadTable` -/

def State.answer (s : State) (table : String) (since : Nat) (result : Except String Unit) : State :=
  { s with answers := ⟨table, since, result⟩ :: s.answers }

def State.setLoad (s : State) (frame : LoadFrame) : State := { s with load := some frame }

def State.setHead (s : State) (table : String) (head : TableHead) : State :=
  { s with heads := Function.update s.heads table (some head) }

/-- `LoadTable` returns: the scan goes on, `ReloadTable` returns or throws. -/
def State.loadReturns (s : State) (f : LoadFrame) (result : Bool) : State :=
  match f.caller with
  | .scan rest => { s with load := none, calls := .scan rest :: s.calls }
  | .hotOpen since =>
    { s with load := none }.answer f.tableDir since
      (if result then .ok ()
        else .error ("ReloadTable: failed to open new table: " ++ f.tableDir))

def loadTable (W : World) (s : State) (f : LoadFrame) (fault : Option Fault) : State :=
  match f.pc with
  | .check =>
    if Loadable f.name then
      if (s.heads f.name).isSome then s.loadReturns f true
      else s.setLoad { f with pc := .openIndex }
    else s.loadReturns f false
  | .openIndex =>
    match fault with
    | some _ => s.loadReturns f false
    | none => (s.openIndex W f.name).setLoad { f with pc := .canonical }
  | .canonical =>
    match fault with
    | some _ => (s.closeIndex f.name).loadReturns f false
    | none => s.setLoad { f with pc := .build (W.resolve s.clock f.tableDir) }
  | .build cfgDir =>
    match buildSlotAfterOpen W s f.name cfgDir fault with
    | .crash => { s with crashed := true }
    | .null => (s.closeIndex f.name).loadReturns f false
    | .slot slot => (s.startKafka f.name slot).setLoad { f with pc := .insert slot }
  | .insert slot =>
    if (s.heads f.name).isSome then
      ((s.stopKafka f.name slot).closeIndex f.name).loadReturns f true
    else (s.setHead f.name ⟨some slot, false⟩).loadReturns f true

/-! ## `Acquire` and `ReloadTable` -/

def acquire (s : State) (table : String) : Option TableSlot :=
  (s.heads table).bind TableHead.slot

def State.setReload (s : State) (table : String) (frame : Option ReloadFrame) : State :=
  { s with reload := Function.update s.reload table frame }

def State.setLink (s : State) (key : String) (target : Option Dir) : State :=
  { s with links := Function.update s.links key target }

/-- `throw` inside `reload_serial`. -/
def State.throws (s : State) (table : String) (f : ReloadFrame) (what : String) : State :=
  (s.setReload table none).answer table f.since (.error what)

/-- `if (next_db != table_name) fs::remove(db_path_ / next_db, ec)`. Removing a link is
taken to succeed: `ec` is at most logged, and no link is read before it is made anew. -/
def State.unlinkUnless (s : State) (key table : String) : State :=
  if key = table then s else s.setLink key none

@[simp] theorem unlinkUnless_heads (s : State) (key table : String) :
    (s.unlinkUnless key table).heads = s.heads := by
  unfold State.unlinkUnless
  split <;> rfl

/-- `ReloadTable` from the `lock_guard` of `reload_serial` on. -/
def reloadTable (W : World) (s : State) (table : String) (f : ReloadFrame)
    (fault : Option Fault) : Option State :=
  match f.pc with
  | .read =>
    (s.heads table).map fun head =>
      if head.slot.isNone then s.throws table f ("ReloadTable: empty slot: " ++ table)
      else s.setReload table (some { f with pc := .canonical head.stagingIsLive })
  | .canonical live =>
    match fault with
    | some e => some (s.throws table f
        ("ReloadTable: weakly_canonical(" ++ W.path table ++ "): " ++ e.what))
    | none => some (s.setReload table (some { f with pc := .link live (W.resolve s.clock table) }))
  | .link live dir =>
    let nextDb := dbName table !live
    if nextDb = table then some (s.setReload table (some { f with pc := .closeNext live dir }))
    else
      match fault with
      | some e => some ((s.setLink nextDb none).throws table f
          ("ReloadTable: create_symlink " ++ W.path nextDb ++ ": " ++ e.what))
      | none => some ((s.setLink nextDb (some dir)).setReload table
          (some { f with pc := .closeNext live dir }))
  | .closeNext live dir =>
    some ((s.closeIndex (dbName table !live)).setReload table
      (some { f with pc := .openNext live dir }))
  | .openNext live dir =>
    let nextDb := dbName table !live
    match fault with
    | some e => some ((s.unlinkUnless nextDb table).throws table f e.what)
    | none => some ((s.openIndex W nextDb).setReload table (some { f with pc := .build live dir }))
  | .build live dir =>
    let nextDb := dbName table !live
    match buildSlotAfterOpen W s nextDb dir fault with
    | .crash => some { s with crashed := true }
    | .null => some (((s.closeIndex nextDb).unlinkUnless nextDb table).throws table f
        ("ReloadTable: rebuild slot failed: " ++ table))
    | .slot slot =>
      some ((s.startKafka table slot).setReload table (some { f with pc := .swap live slot }))
  | .swap live newSlot =>
    (s.heads table).map fun head =>
      (s.setHead table ⟨some newSlot, !live⟩).setReload table
        (some { f with pc := .stop live head.slot })
  | .stop live oldSp =>
    some ((oldSp.elim s fun old => s.stopKafka table old).setReload table
      (some { f with pc := .drain live oldSp }))
  | .drain live oldSp =>
    -- `use_count` is 1 when no handle pins the slot; a null `old_sp` counts 0 for ever.
    oldSp.bind fun old =>
      if old ∈ s.handles then none
      else some (s.setReload table (some { f with pc := .closePrev live }))
  | .closePrev live =>
    some ((s.closeIndex (dbName table live)).setReload table
      (some { f with pc := .unlinkPrev live }))
  | .unlinkPrev live =>
    some (((s.unlinkUnless (dbName table live) table).setReload table none).answer
      table f.since (.ok ()))

/-! ## Calls without a lock -/

def State.setCall (s : State) (i : Nat) (call : Call) : State :=
  { s with calls := s.calls.set i call }

def State.endCall (s : State) (i : Nat) : State := { s with calls := s.calls.eraseIdx i }

/-- `ScanAndLoad` between two entries, and `ReloadTable` up to its locks. A fault is an
entry or a table that is no directory. -/
def waitingCall (W : World) (s : State) (i : Nat) (fault : Option Fault) : Call → Option State
  | .scan [] => some (s.endCall i)
  | .scan (leaf :: rest) =>
    if fault.isSome ∨ isReservedReloadStagingDirName leaf = true then
      some (s.setCall i (.scan rest))
    else some (s.setCall i (.load leaf (.scan rest)))
  | .find table since =>
    if (s.heads table).isSome then some (s.setCall i (.lookup table since))
    else if isReservedReloadStagingDirName table = true then
      some ((s.endCall i).answer table since
        (.error ("ReloadTable: reserved name suffix: " ++ table)))
    else some (s.setCall i (.isDirectory table since))
  | .isDirectory table since =>
    if fault.isSome then
      some ((s.endCall i).answer table since
        (.error ("ReloadTable: not a directory: " ++ W.path table)))
    else some (s.setCall i (.load table (.hotOpen since)))
  | .load tableDir caller =>
    if s.load.isSome then none
    else some ((s.endCall i).setLoad ⟨tableDir, caller, .check⟩)
  | .lookup table since =>
    if (s.heads table).isSome then some (s.setCall i (.serial table since))
    else some ((s.endCall i).answer table since
      (.error ("ReloadTable: race lost table: " ++ table)))
  | .serial table since =>
    if (s.reload table).isSome then none
    else some ((s.endCall i).setReload table (some ⟨since, .read⟩))

/-! ## The transition system -/

def step (W : World) (s : State) (a : Action) : Option State :=
  if s.crashed then none
  else
    match a with
    | .tick => some { s with clock := s.clock + 1 }
    | .acquire table =>
      (acquire s table).map fun slot => { s with handles := slot :: s.handles }
    | .release handle => some { s with handles := s.handles.eraseIdx handle }
    | .scanAndLoad entries => some { s with calls := .scan entries :: s.calls }
    | .reloadTable table => some { s with calls := .find table s.clock :: s.calls }
    | .call i fault => (s.calls[i]?).bind (waitingCall W s i fault)
    | .load fault => s.load.map fun f => loadTable W s f fault
    | .reload table fault => (s.reload table).bind fun f => reloadTable W s table f fault

/-! ## One statement of `ReloadTable` -/

/-- What a statement can do to the state, whatever text it throws. -/
inductive ReloadStep (W : World) (s : State) (n : String) (f : ReloadFrame) :
    Option Fault → State → Prop where
  | empty {fault : Option Fault} (what : String) (hpc : f.pc = .read) :
    ReloadStep W s n f fault (s.throws n f what)
  | reads {fault : Option Fault} (head : TableHead) (hpc : f.pc = .read)
      (hhead : s.heads n = some head) :
    ReloadStep W s n f fault
      (s.setReload n (some { f with pc := .canonical head.stagingIsLive }))
  | unresolved (e : Fault) (what : String) (live : Bool) (hpc : f.pc = .canonical live) :
    ReloadStep W s n f (some e) (s.throws n f what)
  | resolves (live : Bool) (hpc : f.pc = .canonical live) :
    ReloadStep W s n f none
      (s.setReload n (some { f with pc := .link live (W.resolve s.clock n) }))
  | keepsLink {fault : Option Fault} (live : Bool) (dir : Dir) (hpc : f.pc = .link live dir)
      (hkey : dbName n (!live) = n) :
    ReloadStep W s n f fault (s.setReload n (some { f with pc := .closeNext live dir }))
  | unlinked (e : Fault) (what : String) (dir : Dir) (hpc : f.pc = .link false dir) :
    ReloadStep W s n f (some e) ((s.setLink (reloadStagingDbName n) none).throws n f what)
  | links (dir : Dir) (hpc : f.pc = .link false dir) :
    ReloadStep W s n f none ((s.setLink (reloadStagingDbName n) (some dir)).setReload n
      (some { f with pc := .closeNext false dir }))
  | closesNext {fault : Option Fault} (live : Bool) (dir : Dir) (hpc : f.pc = .closeNext live dir) :
    ReloadStep W s n f fault ((s.closeIndex (dbName n !live)).setReload n
      (some { f with pc := .openNext live dir }))
  | unopened (e : Fault) (what : String) (live : Bool) (dir : Dir)
      (hpc : f.pc = .openNext live dir) :
    ReloadStep W s n f (some e) ((s.unlinkUnless (dbName n !live) n).throws n f what)
  | opensNext (live : Bool) (dir : Dir) (hpc : f.pc = .openNext live dir) :
    ReloadStep W s n f none
      ((s.openIndex W (dbName n !live)).setReload n (some { f with pc := .build live dir }))
  | crashes {fault : Option Fault} (live : Bool) (dir : Dir) (hpc : f.pc = .build live dir)
      (hbuilt : buildSlotAfterOpen W s (dbName n !live) dir fault = .crash) :
    ReloadStep W s n f fault { s with crashed := true }
  | unbuilt {fault : Option Fault} (what : String) (live : Bool) (dir : Dir)
      (hpc : f.pc = .build live dir)
      (hbuilt : buildSlotAfterOpen W s (dbName n !live) dir fault = .null) :
    ReloadStep W s n f fault
      (((s.closeIndex (dbName n !live)).unlinkUnless (dbName n !live) n).throws n f what)
  | builds {fault : Option Fault} (live : Bool) (dir : Dir) (slot : TableSlot)
      (hpc : f.pc = .build live dir)
      (hbuilt : buildSlotAfterOpen W s (dbName n !live) dir fault = .slot slot) :
    ReloadStep W s n f fault
      ((s.startKafka n slot).setReload n (some { f with pc := .swap live slot }))
  | swaps {fault : Option Fault} (live : Bool) (slot : TableSlot) (head : TableHead)
      (hpc : f.pc = .swap live slot) (hhead : s.heads n = some head) :
    ReloadStep W s n f fault ((s.setHead n ⟨some slot, !live⟩).setReload n
      (some { f with pc := .stop live head.slot }))
  | stops {fault : Option Fault} (live : Bool) (oldSp : Option TableSlot)
      (hpc : f.pc = .stop live oldSp) :
    ReloadStep W s n f fault ((oldSp.elim s fun old => s.stopKafka n old).setReload n
      (some { f with pc := .drain live oldSp }))
  | drains {fault : Option Fault} (live : Bool) (old : TableSlot)
      (hpc : f.pc = .drain live (some old)) (hfree : old ∉ s.handles) :
    ReloadStep W s n f fault (s.setReload n (some { f with pc := .closePrev live }))
  | closesPrev {fault : Option Fault} (live : Bool) (hpc : f.pc = .closePrev live) :
    ReloadStep W s n f fault ((s.closeIndex (dbName n live)).setReload n
      (some { f with pc := .unlinkPrev live }))
  | returns {fault : Option Fault} (live : Bool) (hpc : f.pc = .unlinkPrev live) :
    ReloadStep W s n f fault
      (((s.unlinkUnless (dbName n live) n).setReload n none).answer n f.since (.ok ()))

theorem reloadStep {W : World} {s s' : State} {n : String} {f : ReloadFrame}
    {fault : Option Fault} (h : reloadTable W s n f fault = some s') :
    ReloadStep W s n f fault s' := by
  unfold reloadTable at h
  cases hpc : f.pc with
  | read =>
    simp only [hpc] at h
    obtain ⟨head, hhead, rfl⟩ := Option.map_eq_some_iff.mp h
    split
    · exact .empty _ hpc
    · exact .reads head hpc hhead
  | canonical live =>
    simp only [hpc] at h
    cases fault with
    | some e => exact Option.some.inj h ▸ .unresolved e _ live hpc
    | none => exact Option.some.inj h ▸ .resolves live hpc
  | link live dir =>
    simp only [hpc] at h
    split at h
    · exact Option.some.inj h ▸ .keepsLink live dir hpc ‹_›
    · obtain rfl : live = false := by
        cases live with
        | false => rfl
        | true => exact absurd rfl ‹_›
      cases fault with
      | some e => exact Option.some.inj h ▸ .unlinked e _ dir hpc
      | none => exact Option.some.inj h ▸ .links dir hpc
  | closeNext live dir =>
    simp only [hpc] at h
    exact Option.some.inj h ▸ .closesNext live dir hpc
  | openNext live dir =>
    simp only [hpc] at h
    cases fault with
    | some e => exact Option.some.inj h ▸ .unopened e _ live dir hpc
    | none => exact Option.some.inj h ▸ .opensNext live dir hpc
  | build live dir =>
    simp only [hpc] at h
    split at h
    · exact Option.some.inj h ▸ .crashes live dir hpc ‹_›
    · exact Option.some.inj h ▸ .unbuilt _ live dir hpc ‹_›
    · exact Option.some.inj h ▸ .builds live dir _ hpc ‹_›
  | swap live newSlot =>
    simp only [hpc] at h
    obtain ⟨head, hhead, rfl⟩ := Option.map_eq_some_iff.mp h
    exact .swaps live newSlot head hpc hhead
  | stop live oldSp =>
    simp only [hpc] at h
    exact Option.some.inj h ▸ .stops live oldSp hpc
  | drain live oldSp =>
    simp only [hpc] at h
    obtain ⟨old, rfl, hdrain⟩ := Option.bind_eq_some_iff.mp h
    split at hdrain
    · cases hdrain
    · exact Option.some.inj hdrain ▸ .drains live old hpc ‹_›
  | closePrev live =>
    simp only [hpc] at h
    exact Option.some.inj h ▸ .closesPrev live hpc
  | unlinkPrev live =>
    simp only [hpc] at h
    exact Option.some.inj h ▸ .returns live hpc

/-! ## One statement of a call without a lock -/

/-- What a waiting call can do to the state, whatever text it throws. -/
inductive CallStep (s : State) (i : Nat) : Call → State → Prop where
  | ends : CallStep s i (.scan []) (s.endCall i)
  | skips (leaf : String) (rest : List String) :
    CallStep s i (.scan (leaf :: rest)) (s.setCall i (.scan rest))
  | scans (leaf : String) (rest : List String) :
    CallStep s i (.scan (leaf :: rest)) (s.setCall i (.load leaf (.scan rest)))
  | finds (table : String) (since : Nat) :
    CallStep s i (.find table since) (s.setCall i (.lookup table since))
  | hotOpens (table : String) (since : Nat) (hnone : s.heads table = none) :
    CallStep s i (.find table since) (s.setCall i (.isDirectory table since))
  | isDirectory (table : String) (since : Nat) :
    CallStep s i (.isDirectory table since) (s.setCall i (.load table (.hotOpen since)))
  | loads (tableDir : String) (caller : Caller) (hfree : s.load = none) :
    CallStep s i (.load tableDir caller) ((s.endCall i).setLoad ⟨tableDir, caller, .check⟩)
  | looksUp (table : String) (since : Nat) (hhead : (s.heads table).isSome) :
    CallStep s i (.lookup table since) (s.setCall i (.serial table since))
  | locks (table : String) (since : Nat) (hfree : s.reload table = none) :
    CallStep s i (.serial table since) ((s.endCall i).setReload table (some ⟨since, .read⟩))
  | throws (call : Call) (table : String) (since : Nat) (what : String) :
    CallStep s i call ((s.endCall i).answer table since (.error what))

theorem callStep {W : World} {s s' : State} {i : Nat} {call : Call} {fault : Option Fault}
    (h : waitingCall W s i fault call = some s') : CallStep s i call s' := by
  cases call with
  | scan rest =>
    cases rest with
    | nil => exact Option.some.inj h ▸ .ends
    | cons leaf rest =>
      simp only [waitingCall] at h
      split at h
      · exact Option.some.inj h ▸ .skips leaf rest
      · exact Option.some.inj h ▸ .scans leaf rest
  | find table since =>
    simp only [waitingCall] at h
    split at h
    · exact Option.some.inj h ▸ .finds table since
    · split at h
      · exact Option.some.inj h ▸ .throws _ table since _
      · exact Option.some.inj h ▸ .hotOpens table since (Option.not_isSome_iff_eq_none.mp ‹_›)
  | isDirectory table since =>
    simp only [waitingCall] at h
    split at h
    · exact Option.some.inj h ▸ .throws _ table since _
    · exact Option.some.inj h ▸ .isDirectory table since
  | load tableDir caller =>
    simp only [waitingCall] at h
    split at h
    · cases h
    · exact Option.some.inj h ▸ .loads tableDir caller (Option.not_isSome_iff_eq_none.mp ‹_›)
  | lookup table since =>
    simp only [waitingCall] at h
    split at h
    · exact Option.some.inj h ▸ .looksUp table since ‹_›
    · exact Option.some.inj h ▸ .throws _ table since _
  | serial table since =>
    simp only [waitingCall] at h
    split at h
    · cases h
    · exact Option.some.inj h ▸ .locks table since (Option.not_isSome_iff_eq_none.mp ‹_›)

end YikvServer.Registry
