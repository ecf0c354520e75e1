import YikvServer.Registry.Step

/-!
# One table of the registry

What the registry holds for one table is a small machine of its own: its head, the
frames that work on it, and its two DB keys, told apart by `staging`. Every action of
the registry is a step of each table's machine, and leaves every table alone that the
action is not about.
-/
namespace YikvServer.Registry

open YikvServer.Theory

structure Table where
  head : Option TableHead
  /-- The `LoadTable` under way, if it is about this table. -/
  load : Option LoadFrame
  frame : Option ReloadFrame
  db : Bool → Option KVIndex
  /-- Where the link under the staging key leads. -/
  link : Option Dir
  consumers : List TableSlot

def State.table (s : State) (n : String) : Table where
  head := s.heads n
  load := s.load.filter fun f => f.name = n
  frame := s.reload n
  db staging := s.db (dbName n staging)
  link := s.links (reloadStagingDbName n)
  consumers := s.consumers n

def Table.setDb (v : Table) (staging : Bool) (kv : Option KVIndex) : Table :=
  { v with db := Function.update v.db staging kv }

/-- `OpenIndex` on the key: nothing happens when it is open. -/
def Table.openDb (v : Table) (staging : Bool) (kv : KVIndex) : Table :=
  if (v.db staging).isSome then v else v.setDb staging (some kv)

def Table.startKafka (v : Table) (slot : TableSlot) : Table :=
  if slot.kafka then { v with consumers := slot :: v.consumers } else v

def Table.stopKafka (v : Table) (slot : TableSlot) : Table :=
  if slot.kafka then { v with consumers := v.consumers.erase slot } else v

/-- The statements that can throw, `BuildSlotAfterOpen` apart. -/
def ReloadPc.mayThrow : ReloadPc → Bool
  | .read | .canonical .. | .link .. | .openNext .. => true
  | _ => false

/-- What one action does to table `n`. -/
inductive Table.Step (W : World) (s : State) (n : String) : Action → Table → Table → Prop
  | same (a v) : Step W s n a v v
  | loadBegins {i fault v} (f : LoadFrame) (hname : f.name = n) (hpc : f.pc = .check)
      (hcall : .load f.tableDir f.caller ∈ s.calls) (hfree : v.load = none) :
      Step W s n (.call i fault) v { v with load := some f }
  | loadEnds {fault v} (f : LoadFrame) (hload : v.load = some f)
      (hpc : f.pc = .check ∨ f.pc = .openIndex) :
      Step W s n (.load fault) v { v with load := none }
  | loadChecked {fault v} (f : LoadFrame) (hload : v.load = some f) (hpc : f.pc = .check)
      (hhead : v.head = none) :
      Step W s n (.load fault) v { v with load := some { f with pc := .openIndex } }
  | loadOpens {fault v} (f : LoadFrame) (hload : v.load = some f) (hpc : f.pc = .openIndex) :
      Step W s n (.load fault) v
        { v.openDb false ⟨s.openings, n, W.resolve s.clock n⟩ with
          load := some { f with pc := .canonical } }
  | loadUndone {fault v} (f : LoadFrame) (hload : v.load = some f)
      (hpc : f.pc = .canonical ∨ ∃ dir, f.pc = .build dir) :
      Step W s n (.load fault) v { v.setDb false none with load := none }
  | loadResolves {fault v} (f : LoadFrame) (hload : v.load = some f) (hpc : f.pc = .canonical) :
      Step W s n (.load fault) v
        { v with load := some { f with pc := .build (W.resolve s.clock f.tableDir) } }
  | loadBuilds {fault v} (f : LoadFrame) (dir : Dir) (kv : KVIndex) (slot : TableSlot)
      (hload : v.load = some f) (hpc : f.pc = .build dir) (hopen : v.db false = some kv)
      (hslot : slot = ⟨kv, dir, W.kafka s.clock dir⟩) :
      Step W s n (.load fault) v
        { v.startKafka slot with load := some { f with pc := .insert slot } }
  | loadInserts {fault v} (f : LoadFrame) (slot : TableSlot) (hload : v.load = some f)
      (hpc : f.pc = .insert slot) (hhead : v.head = none) :
      Step W s n (.load fault) v { v with head := some ⟨some slot, false⟩, load := none }
  | reloadBegins {i fault v} (since : Nat) (hcall : .serial n since ∈ s.calls)
      (hfree : v.frame = none) (hhead : v.head.isSome) :
      Step W s n (.call i fault) v { v with frame := some ⟨since, .read⟩ }
  | throws {fault v} (f : ReloadFrame) (link : Option Dir) (hframe : v.frame = some f)
      (hpc : f.pc.mayThrow = true) :
      Step W s n (.reload n fault) v { v with frame := none, link := link }
  | buildThrows {fault v} (f : ReloadFrame) (live : Bool) (dir : Dir) (link : Option Dir)
      (hframe : v.frame = some f) (hpc : f.pc = .build live dir) :
      Step W s n (.reload n fault) v { v.setDb (!live) none with frame := none, link := link }
  | reads {fault v} (f : ReloadFrame) (head : TableHead) (hframe : v.frame = some f)
      (hpc : f.pc = .read) (hhead : v.head = some head) :
      Step W s n (.reload n fault) v
        { v with frame := some { f with pc := .canonical head.stagingIsLive } }
  | resolves {fault v} (f : ReloadFrame) (live : Bool) (hframe : v.frame = some f)
      (hpc : f.pc = .canonical live) :
      Step W s n (.reload n fault) v
        { v with frame := some { f with pc := .link live (W.resolve s.clock n) } }
  | links {fault v} (f : ReloadFrame) (live : Bool) (dir : Dir) (link : Option Dir)
      (hframe : v.frame = some f) (hpc : f.pc = .link live dir)
      (hlink : live = false → link = some dir) :
      Step W s n (.reload n fault) v
        { v with frame := some { f with pc := .closeNext live dir }, link := link }
  | closesNext {fault v} (f : ReloadFrame) (live : Bool) (dir : Dir) (hframe : v.frame = some f)
      (hpc : f.pc = .closeNext live dir) :
      Step W s n (.reload n fault) v
        { v.setDb (!live) none with frame := some { f with pc := .openNext live dir } }
  | opensNext {fault v} (f : ReloadFrame) (live : Bool) (dir : Dir) (hframe : v.frame = some f)
      (hpc : f.pc = .openNext live dir) :
      Step W s n (.reload n fault) v
        { v.openDb (!live) ⟨s.openings, dbName n !live, if live then W.resolve s.clock n
            else v.link.getD (W.resolve s.clock (reloadStagingDbName n))⟩ with
          frame := some { f with pc := .build live dir } }
  | builds {fault v} (f : ReloadFrame) (live : Bool) (dir : Dir) (kv : KVIndex) (slot : TableSlot)
      (hframe : v.frame = some f) (hpc : f.pc = .build live dir) (hopen : v.db (!live) = some kv)
      (hslot : slot = ⟨kv, dir, W.kafka s.clock dir⟩) :
      Step W s n (.reload n fault) v
        { v.startKafka slot with frame := some { f with pc := .swap live slot } }
  | swaps {fault v} (f : ReloadFrame) (live : Bool) (slot : TableSlot) (head : TableHead)
      (hframe : v.frame = some f) (hpc : f.pc = .swap live slot) (hhead : v.head = some head) :
      Step W s n (.reload n fault) v
        { v with
          head := some ⟨some slot, !live⟩
          frame := some { f with pc := .stop live head.slot } }
  | stops {fault v} (f : ReloadFrame) (live : Bool) (old : Option TableSlot)
      (hframe : v.frame = some f) (hpc : f.pc = .stop live old) :
      Step W s n (.reload n fault) v
        { old.elim v v.stopKafka with frame := some { f with pc := .drain live old } }
  | drains {fault v} (f : ReloadFrame) (live : Bool) (old : TableSlot) (hframe : v.frame = some f)
      (hpc : f.pc = .drain live (some old)) (hfree : old ∉ s.handles) :
      Step W s n (.reload n fault) v { v with frame := some { f with pc := .closePrev live } }
  | closesPrev {fault v} (f : ReloadFrame) (live : Bool) (hframe : v.frame = some f)
      (hpc : f.pc = .closePrev live) :
      Step W s n (.reload n fault) v
        { v.setDb live none with frame := some { f with pc := .unlinkPrev live } }
  | returns {fault v} (f : ReloadFrame) (live : Bool) (link : Option Dir)
      (hframe : v.frame = some f) (hpc : f.pc = .unlinkPrev live) :
      Step W s n (.reload n fault) v { v with frame := none, link := link }

/-! ## What each operation does to a table -/

section Operations
variable {W : World} {s : State} {n m : String}

theorem table_setReload (frame : Option ReloadFrame) : (s.setReload m frame).table n =
    if n = m then { s.table n with frame := frame } else s.table n := by
  by_cases h : n = m
  · subst h
    simp [State.table, State.setReload]
  · simp [State.table, State.setReload, h]

theorem table_setLink (link : Option Dir) :
    (s.setLink (reloadStagingDbName m) link).table n =
      if n = m then { s.table n with link := link } else s.table n := by
  by_cases h : n = m
  · subst h
    simp [State.table, State.setLink]
  · have hkey : reloadStagingDbName n ≠ reloadStagingDbName m := fun he => h (by
      simpa [reloadStagingDbName] using he)
    simp [State.table, State.setLink, h, hkey]

theorem table_setDb (hn : IsTable n) (hm : IsTable m) {staging : Bool} {kv : Option KVIndex} :
    State.table { s with db := Function.update s.db (dbName m staging) kv } n =
      if n = m then (s.table n).setDb staging kv else s.table n := by
  have hdb : (fun b => Function.update s.db (dbName m staging) kv (dbName n b)) =
      if n = m then Function.update (fun b => s.db (dbName n b)) staging kv
      else fun b => s.db (dbName n b) := by
    funext b
    by_cases h : n = m
    · subst h
      by_cases hb : b = staging
      · subst hb
        simp
      · have hkey : dbName n b ≠ dbName n staging := fun he => hb ((dbName_inj hn hn).mp he).2
        simp [hb, hkey]
    · have hkey : dbName n b ≠ dbName m staging := fun he => h ((dbName_inj hn hm).mp he).1
      simp [h, hkey]
  by_cases h : n = m
  · rw [if_pos h] at hdb ⊢
    simp only [State.table, Table.setDb, hdb]
  · rw [if_neg h] at hdb ⊢
    simp only [State.table, hdb]

theorem table_closeIndex (hn : IsTable n) (hm : IsTable m) (staging : Bool) :
    (s.closeIndex (dbName m staging)).table n =
      if n = m then (s.table n).setDb staging none else s.table n :=
  table_setDb hn hm

theorem table_openIndex (hn : IsTable n) (hm : IsTable m) (staging : Bool) :
    (s.openIndex W (dbName m staging)).table n =
      if n = m then (s.table n).openDb staging
        ⟨s.openings, dbName m staging, s.target W (dbName m staging)⟩
      else s.table n := by
  unfold State.openIndex Table.openDb
  by_cases hopen : (s.db (dbName m staging)).isSome
  · rw [if_pos hopen]
    by_cases h : n = m
    · subst h
      rw [if_pos rfl]
      exact (if_pos hopen).symm
    · rw [if_neg h]
  · rw [if_neg hopen]
    by_cases h : n = m
    · subst h
      rw [if_pos rfl]
      exact ((table_setDb hn hn).trans (if_pos rfl)).trans (if_neg hopen).symm
    · rw [if_neg h]
      exact (table_setDb hn hm).trans (if_neg h)

theorem table_startKafka (slot : TableSlot) : (s.startKafka m slot).table n =
    if n = m then (s.table n).startKafka slot else s.table n := by
  unfold State.startKafka Table.startKafka
  by_cases h : n = m
  · subst h
    cases slot.kafka <;> simp [State.table]
  · cases slot.kafka <;> simp [State.table, h]

theorem table_stopKafka (slot : TableSlot) : (s.stopKafka m slot).table n =
    if n = m then (s.table n).stopKafka slot else s.table n := by
  unfold State.stopKafka Table.stopKafka
  by_cases h : n = m
  · subst h
    cases slot.kafka <;> simp [State.table]
  · cases slot.kafka <;> simp [State.table, h]

theorem table_loadReturns (f : LoadFrame) (result : Bool) :
    (s.loadReturns f result).table n = { s.table n with load := none } := by
  unfold State.loadReturns
  cases f.caller <;> rfl

theorem table_setHead (head : TableHead) : (s.setHead m head).table n =
    if n = m then { s.table n with head := some head } else s.table n := by
  by_cases h : n = m
  · subst h
    simp [State.table, State.setHead]
  · simp [State.table, State.setHead, h]

theorem table_setLoad (f : LoadFrame) : (s.setLoad f).table n =
    { s.table n with load := if f.name = n then some f else none } := by
  by_cases h : f.name = n <;> simp [State.table, State.setLoad, h]

@[simp] theorem table_answer (table : String) (since : Nat) (result : Except String Unit) :
    (s.answer table since result).table n = s.table n := rfl

@[simp] theorem table_setCall (i : Nat) (call : Call) :
    (s.setCall i call).table n = s.table n := rfl

@[simp] theorem table_endCall (i : Nat) : (s.endCall i).table n = s.table n := rfl

end Operations

end YikvServer.Registry
