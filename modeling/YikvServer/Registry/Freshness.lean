import YikvServer.Registry.SingleConsumer

/-!
# A reload that succeeds is fresh

A `ReloadTable` that finds its table registered resolves the path after it began. One
that does not goes through `LoadTable`, which returns true without a look at the path
when the table has been registered meanwhile.
-/
namespace YikvServer.Registry

open YikvServer.Theory

/-- `db_path_ / n` has led to the directory since the given moment. -/
def Fresh (W : World) (clock : Nat) (n : String) (since : Nat) (dir : Dir) : Prop :=
  ∃ t, t ≤ clock ∧ since ≤ t ∧ W.resolve t n = dir

instance (W : World) (clock : Nat) (n : String) (since : Nat) (dir : Dir) :
    Decidable (Fresh W clock n since dir) :=
  inferInstanceAs (Decidable (∃ t, t ≤ clock ∧ since ≤ t ∧ W.resolve t n = dir))

def Caller.since : Caller → Option Nat
  | .hotOpen since => some since
  | .scan _ => none

/-- The name of a reload has no `/`; and when `LoadTable`, called for a reload, finds the
table registered, its slot was opened where the path has led since the reload began. -/
def Routed (W : World) (s : State) : Action → Prop
  | .reloadTable n => '/' ∉ n.toList
  | .load _ => ∀ f ∈ s.load, f.pc = .check → ∀ since ∈ f.caller.since, ∀ head ∈ s.heads f.name,
      ∀ slot ∈ head.slot, Fresh W s.clock f.tableDir since slot.kv.dir
  | _ => True

instance (W : World) (s : State) : (a : Action) → Decidable (Routed W s a)
  | .reloadTable n => inferInstanceAs (Decidable ('/' ∉ n.toList))
  | .load _ => inferInstanceAs (Decidable (∀ f ∈ s.load, f.pc = .check →
      ∀ since ∈ f.caller.since, ∀ head ∈ s.heads f.name, ∀ slot ∈ head.slot,
        Fresh W s.clock f.tableDir since slot.kv.dir))
  | .tick | .acquire _ | .release _ | .scanAndLoad _ | .call _ _ | .reload _ _ => isTrue trivial

/-- Every reload that returned has left a table that can be acquired, with an index opened
where the path has led since the reload began. -/
def FreshReloads (W : World) (s : State) : Prop :=
  ∀ n since, ⟨n, since, .ok ()⟩ ∈ s.answers →
    ∃ slot, acquire s n = some slot ∧ Fresh W s.clock n since slot.kv.dir

/-! ## One table -/

def Table.HeadFresh (W : World) (clock : Nat) (n : String) (since : Nat) (v : Table) : Prop :=
  ∀ head slot, v.head = some head → head.slot = some slot → Fresh W clock n since slot.kv.dir

def LoadPc.Fresh (W : World) (clock : Nat) (n : String) (since : Nat) (v : Table) : LoadPc → Prop
  | .canonical | .build _ => ∀ kv, v.db false = some kv → Registry.Fresh W clock n since kv.dir
  | .insert slot => Registry.Fresh W clock n since slot.kv.dir
  | _ => True

def ReloadPc.Fresh (W : World) (clock : Nat) (n : String) (since : Nat) (v : Table) :
    ReloadPc → Prop
  | .read | .canonical _ => True
  | .link _ dir => Registry.Fresh W clock n since dir
  | .closeNext live dir | .openNext live dir =>
    Registry.Fresh W clock n since dir ∧ (live = false → v.link = some dir)
  | .build live _ => ∀ kv, v.db (!live) = some kv → Registry.Fresh W clock n since kv.dir
  | .swap _ slot => Registry.Fresh W clock n since slot.kv.dir
  | _ => v.HeadFresh W clock n since

/-- The reload under way has resolved nothing, or has done so since the given moment. -/
def Table.FrameFresh (W : World) (clock : Nat) (n : String) (since : Nat) (v : Table) : Prop :=
  ∀ f, v.frame = some f → f.pc.Fresh W clock n since v

/-- The load under way, if it is one for a reload begun at that moment, opened since. -/
def Table.LoadFresh (W : World) (clock : Nat) (n : String) (since : Nat) (v : Table) : Prop :=
  ∀ f, v.load = some f → f.caller = .hotOpen since → f.pc.Fresh W clock n since v

section Steps
variable {W : World} {s s' : State} {n : String} {a : Action} {v v' : Table} {since clock : Nat}
  {dir : Dir}

theorem Fresh.mono {later : Nat} (h : Fresh W clock n since dir) (hle : clock ≤ later) :
    Fresh W later n since dir := by
  obtain ⟨t, ht, hsince, hdir⟩ := h
  exact ⟨t, ht.trans hle, hsince, hdir⟩

theorem Fresh.now (hsince : since ≤ s.clock) : Fresh W s.clock n since (W.resolve s.clock n) :=
  ⟨s.clock, le_rfl, hsince, rfl⟩

theorem Table.HeadFresh.mono {later : Nat} (h : v.HeadFresh W clock n since) (hle : clock ≤ later) :
    v.HeadFresh W later n since :=
  fun head slot hhead hslot => (h head slot hhead hslot).mono hle

theorem Table.LoadFresh.mono {later : Nat} (h : v.LoadFresh W clock n since) (hle : clock ≤ later) :
    v.LoadFresh W later n since := by
  intro f hf hcaller
  have hpc := h f hf hcaller
  cases hcase : f.pc <;> rw [hcase] at hpc
  · trivial
  · trivial
  · exact fun kv hkv => (hpc kv hkv).mono hle
  · exact fun kv hkv => (hpc kv hkv).mono hle
  · exact Registry.Fresh.mono hpc hle

theorem Table.FrameFresh.mono {later : Nat} (h : v.FrameFresh W clock n since)
    (hle : clock ≤ later) : v.FrameFresh W later n since := by
  intro f hf
  have hpc := h f hf
  cases hcase : f.pc <;> rw [hcase] at hpc
  · trivial
  · trivial
  · exact Registry.Fresh.mono hpc hle
  · exact ⟨hpc.1.mono hle, hpc.2⟩
  · exact ⟨hpc.1.mono hle, hpc.2⟩
  · exact fun kv hkv => (hpc kv hkv).mono hle
  · exact Registry.Fresh.mono hpc hle
  all_goals exact Table.HeadFresh.mono hpc hle

/-- Only a swap changes a head. -/
theorem Table.HeadFresh.step (hhead : v.head.isSome) (h : v.HeadFresh W s.clock n since)
    (hframe : v.FrameFresh W s.clock n since) (hstep : Table.Step W s n a v v') :
    v'.HeadFresh W s.clock n since := by
  have hkeep : v'.head = v.head → v'.HeadFresh W s.clock n since := by
    intro hsame head slot hsome
    exact h head slot (hsame ▸ hsome)
  cases hstep with
  | loadInserts f slot hload hpc hnone =>
    rw [hnone] at hhead
    cases hhead
  | swaps f live slot head hf hpc hsome =>
    have hfresh := hframe f hf
    rw [hpc] at hfresh
    intro head' slot' hhead' hslot'
    obtain rfl := Option.some.inj hhead'
    obtain rfl := Option.some.inj hslot'
    exact hfresh
  | _ => exact hkeep (by simp [Table.setDb])

/-- A load goes on, on a table that is not registered. -/
theorem Table.FrameFresh.idle (hsafe : v.Safe n) (hhead : v.head = none)
    (hsame : v'.frame = v.frame) : v'.FrameFresh W clock n since := by
  intro f hf
  rw [hsame, hsafe.frame_none hhead] at hf
  cases hf

theorem Table.FrameFresh.keep (h : v.FrameFresh W clock n since) (hframe : v'.frame = v.frame)
    (hdb : v'.db = v.db) (hlink : v'.link = v.link) (hhead : v'.head = v.head) :
    v'.FrameFresh W clock n since := by
  intro f hf
  have hpc := h f (hframe ▸ hf)
  cases hcase : f.pc <;> rw [hcase] at hpc
  · trivial
  · trivial
  all_goals simpa only [ReloadPc.Fresh, Table.HeadFresh, hdb, hlink, hhead] using hpc

theorem Table.FrameFresh.step (hsafe : v.Safe n) (hsince : since ≤ s.clock)
    (h : v.FrameFresh W s.clock n since) (hstep : Table.Step W s n a v v') :
    v'.FrameFresh W s.clock n since := by
  cases hstep with
  | same => exact h
  | loadBegins => exact h.keep rfl rfl rfl rfl
  | loadEnds => exact h.keep rfl rfl rfl rfl
  | loadChecked => exact h.keep rfl rfl rfl rfl
  | loadResolves => exact h.keep rfl rfl rfl rfl
  | loadOpens f hload hpc => exact .idle hsafe (hsafe.load f hload (by simp [hpc])).1 (by simp)
  | loadUndone f hload hpc =>
    have hhead := (hsafe.load f hload (by rcases hpc with hpc | ⟨dir, hpc⟩ <;> simp [hpc])).1
    exact .idle hsafe hhead rfl
  | loadBuilds f dir kv slot hload hpc =>
    exact .idle hsafe (hsafe.load f hload (by simp [hpc])).1 (by simp)
  | loadInserts f slot hload hpc hhead => exact .idle hsafe hhead rfl
  | throws => exact fun _ hg => nomatch hg
  | buildThrows => exact fun _ hg => nomatch hg
  | returns => exact fun _ hg => nomatch hg
  | reloadBegins => exact fun g hg => by rw [← Option.some.inj hg]; trivial
  | reads => exact fun g hg => by rw [← Option.some.inj hg]; trivial
  | resolves =>
    intro g hg
    rw [← Option.some.inj hg]
    exact Registry.Fresh.now hsince
  | links f live dir link hframe hpc hlink =>
    have hfresh := h f hframe
    rw [hpc] at hfresh
    intro g hg
    rw [← Option.some.inj hg]
    exact ⟨hfresh, hlink⟩
  | closesNext f live dir hframe hpc =>
    have hfresh := h f hframe
    rw [hpc] at hfresh
    intro g hg
    rw [← Option.some.inj hg]
    exact hfresh
  | opensNext f live dir hframe hpc =>
    obtain ⟨head, hhead, hfits⟩ := hsafe.frame f hframe
    have hfresh := h f hframe
    rw [hpc] at hfresh hfits
    rw [openDb_closed hfits.2]
    intro g hg
    rw [← Option.some.inj hg]
    intro kv hkv
    obtain rfl := Option.some.inj ((setDb_db_self (v := v) (!live) _).symm.trans hkv)
    cases live with
    | false =>
      show Registry.Fresh W s.clock n since (v.link.getD _)
      rw [hfresh.2 rfl]
      exact hfresh.1
    | true => exact Registry.Fresh.now hsince
  | builds f live dir kv slot hframe hpc hopen hslot =>
    have hfresh := h f hframe
    rw [hpc] at hfresh
    intro g hg
    rw [← Option.some.inj hg, hslot]
    exact hfresh kv hopen
  | swaps f live slot head hframe hpc hhead =>
    have hfresh := h f hframe
    rw [hpc] at hfresh
    intro g hg
    rw [← Option.some.inj hg]
    intro head' slot' hhead' hslot'
    obtain rfl := Option.some.inj hhead'
    obtain rfl := Option.some.inj hslot'
    exact hfresh
  | stops f live old hframe hpc =>
    have hfresh := h f hframe
    rw [hpc] at hfresh
    intro g hg
    rw [← Option.some.inj hg]
    intro head slot hhead
    exact hfresh head slot (by simpa using hhead)
  | drains f live old hframe hpc =>
    have hfresh := h f hframe
    rw [hpc] at hfresh
    intro g hg
    rw [← Option.some.inj hg]
    exact hfresh
  | closesPrev f live hframe hpc =>
    have hfresh := h f hframe
    rw [hpc] at hfresh
    intro g hg
    rw [← Option.some.inj hg]
    exact hfresh

theorem Table.LoadFresh.of_registered (hsafe : v.Safe n) (hhead : v.head.isSome)
    (hsame : v'.load = v.load) : v'.LoadFresh W clock n since := by
  intro f hf _
  rw [hsafe.load_check hhead (hsame ▸ hf)]
  trivial

theorem Table.LoadFresh.step (hsafe : v.Safe n) (hsince : since ≤ s.clock)
    (h : v.LoadFresh W s.clock n since) (hstep : Table.Step W s n a v v') :
    v'.LoadFresh W s.clock n since := by
  cases hstep with
  | same => exact h
  | loadBegins f hname hpc =>
    intro g hg _
    rw [← Option.some.inj hg, hpc]
    trivial
  | loadEnds => exact fun _ hg => nomatch hg
  | loadUndone => exact fun _ hg => nomatch hg
  | loadInserts => exact fun _ hg => nomatch hg
  | loadChecked =>
    intro g hg _
    rw [← Option.some.inj hg]
    trivial
  | loadOpens f hload hpc =>
    obtain ⟨-, hopen⟩ := hsafe.opens hload hpc _
    rw [hopen]
    intro g hg _
    rw [← Option.some.inj hg]
    intro kv hkv
    obtain rfl := Option.some.inj ((setDb_db_self (v := v) false _).symm.trans hkv)
    exact Registry.Fresh.now hsince
  | loadResolves f hload hpc =>
    intro g hg hcaller
    rw [← Option.some.inj hg] at hcaller ⊢
    have hfresh := h f hload hcaller
    rw [hpc] at hfresh
    exact hfresh
  | loadBuilds f dir kv slot hload hpc hopen hslot =>
    intro g hg hcaller
    rw [← Option.some.inj hg] at hcaller ⊢
    have hfresh := h f hload hcaller
    rw [hpc] at hfresh
    rw [hslot]
    exact hfresh kv hopen
  | reloadBegins since hcall hfree hsome => exact .of_registered hsafe hsome rfl
  | reads f head hframe => exact .of_registered hsafe (hsafe.frame_isSome hframe) rfl
  | swaps f live slot head hframe => exact .of_registered hsafe (hsafe.frame_isSome hframe) rfl
  | throws f link hframe => exact .of_registered hsafe (hsafe.frame_isSome hframe) rfl
  | buildThrows f live dir link hframe => exact .of_registered hsafe (hsafe.frame_isSome hframe) rfl
  | resolves f live hframe => exact .of_registered hsafe (hsafe.frame_isSome hframe) rfl
  | links f live dir link hframe => exact .of_registered hsafe (hsafe.frame_isSome hframe) rfl
  | closesNext f live dir hframe => exact .of_registered hsafe (hsafe.frame_isSome hframe) rfl
  | opensNext f live dir hframe => exact .of_registered hsafe (hsafe.frame_isSome hframe) (by simp)
  | builds f live dir kv slot hframe =>
    exact .of_registered hsafe (hsafe.frame_isSome hframe) (by simp)
  | stops f live old hframe => exact .of_registered hsafe (hsafe.frame_isSome hframe) (by simp)
  | drains f live old hframe => exact .of_registered hsafe (hsafe.frame_isSome hframe) rfl
  | closesPrev f live hframe => exact .of_registered hsafe (hsafe.frame_isSome hframe) rfl
  | returns f live link hframe => exact .of_registered hsafe (hsafe.frame_isSome hframe) rfl

/-! ## Every run -/

/-- What is known of a call of `ReloadTable` that waits. -/
def Call.Begun (clock : Nat) : Call → Prop
  | .find n since | .isDirectory n since | .lookup n since | .serial n since
  | .load n (.hotOpen since) => since ≤ clock ∧ '/' ∉ n.toList
  | _ => True

/-- A reload that has found its table unregistered and has not returned. -/
def Opening (s : State) (n : String) (since : Nat) : Prop :=
  .isDirectory n since ∈ s.calls ∨ .load n (.hotOpen since) ∈ s.calls ∨
    ∃ f, s.load = some f ∧ f.tableDir = n ∧ f.caller = .hotOpen since

/-- A reload that has returned. -/
structure Returned (W : World) (s : State) (n : String) (since : Nat) : Prop where
  begun : since ≤ s.clock
  table : IsTable n
  registered : (s.heads n).isSome
  head : (s.table n).HeadFresh W s.clock n since
  frame : (s.table n).FrameFresh W s.clock n since

structure Timely (W : World) (s : State) : Prop where
  safe : Safe s
  calls : ∀ c ∈ s.calls, c.Begun s.clock
  opening : ∀ n since, Opening s n since → since ≤ s.clock ∧ '/' ∉ n.toList ∧
    (IsTable n → (s.table n).FrameFresh W s.clock n since)
  load : ∀ f since, s.load = some f → f.caller = .hotOpen since → IsTable f.tableDir →
    (s.table f.tableDir).LoadFresh W s.clock f.tableDir since
  frame : ∀ n f, s.reload n = some f → f.since ≤ s.clock ∧
    (s.table n).FrameFresh W s.clock n f.since
  answers : ∀ n since, ⟨n, since, .ok ()⟩ ∈ s.answers → Returned W s n since

theorem Timely.init : Timely W .init where
  safe := .init
  calls _ hc := nomatch hc
  opening n since h := by
    rcases h with h | h | ⟨f, h, -⟩ <;> cases h
  load _ _ h := nomatch h
  frame _ _ h := nomatch h
  answers _ _ h := nomatch h

theorem Call.Begun.mono {c : Call} {later : Nat} (h : c.Begun clock) (hle : clock ≤ later) :
    c.Begun later := by
  cases c with
  | scan => trivial
  | load dir caller =>
    cases caller with
    | scan => trivial
    | hotOpen since => exact ⟨h.1.trans hle, h.2⟩
  | _ => exact ⟨h.1.trans hle, h.2⟩

/-- A reload that has returned stays fresh: later swaps resolve later. -/
theorem Returned.step (hs : Safe s) (h : Returned W s n since) (hstep : step W s a = some s') :
    Returned W s' n since := by
  have htable := step_table hs.named h.table hstep
  have hclock := (step_bookkeeping hs.named hstep).clock
  exact {
    begun := h.begun.trans hclock
    table := h.table
    registered := htable.head_isSome h.registered
    head := (h.head.step h.registered h.frame htable).mono hclock
    frame := (h.frame.step (hs.table n h.table) h.begun htable).mono hclock }

theorem Timely.frameFresh_step (h : Timely W s) (hn : IsTable n) (hsince : since ≤ s.clock)
    (hfresh : (s.table n).FrameFresh W s.clock n since) (hstep : step W s a = some s') :
    (s'.table n).FrameFresh W s'.clock n since :=
  (hfresh.step (h.safe.table n hn) hsince (step_table h.safe.named hn hstep)).mono
    (step_bookkeeping h.safe.named hstep).clock

/-- The calls of `ReloadTable` that an allowed action makes wait have begun, on a name
without `/`. -/
theorem Timely.begun (h : Timely W s) (hok : Routed W s a) {c : Call} (hc : c.Follows s a) :
    c.Begun s.clock := by
  cases hc with
  | scan => trivial
  | loadEntry => trivial
  | find n => exact ⟨le_rfl, hok⟩
  | lookup hmem => exact h.calls (.find _ _) hmem
  | isDirectory hmem => exact h.calls (.find _ _) hmem
  | hotOpen hmem => exact h.calls (.isDirectory _ _) hmem
  | serial hmem => exact h.calls (.lookup _ _) hmem

theorem Table.Step.frame_since {f : ReloadFrame} (hstep : Table.Step W s n a v v')
    (hf : v'.frame = some f) : (∃ g, v.frame = some g ∧ g.since = f.since) ∨
      Call.serial n f.since ∈ s.calls ∧ v.frame = none := by
  cases hstep with
  | reloadBegins since hcall hfree =>
    rw [← Option.some.inj hf]
    exact Or.inr ⟨hcall, hfree⟩
  | same => exact Or.inl ⟨f, hf, rfl⟩
  | throws => cases hf
  | buildThrows => cases hf
  | returns => cases hf
  | _ => first
    | exact Or.inl ⟨f, by simpa [Table.setDb] using hf, rfl⟩
    | exact Or.inl ⟨_, by assumption, by rw [← Option.some.inj hf]⟩

/-- A reload that returns has left its table fresh. -/
theorem Timely.returns (h : Timely W s) (hok : Routed W s a) (hreturns : Returns s s' n since a)
    (hstep : step W s a = some s') : Returned W s' n since := by
  have hname : ∀ f : LoadFrame, s.load = some f → f.tableDir = n → f.caller = .hotOpen since →
      f.name = n := by
    intro f hf hdir hcaller
    obtain ⟨-, hslash, -⟩ := h.opening n since (Or.inr (Or.inr ⟨f, hf, hdir, hcaller⟩))
    rw [LoadFrame.name, hdir, filename_eq_self hslash]
  cases hreturns with
  | early f hload hdir hcaller hpc hhead hsame =>
    have hfn := hname f hload hdir hcaller
    have hn : IsTable n := hfn ▸ h.safe.named.head _ hhead
    obtain ⟨hsince, -, hfresh⟩ := h.opening n since (Or.inr (Or.inr ⟨f, hload, hdir, hcaller⟩))
    have hreturned : Returned W s n since := by
      refine ⟨hsince, hn, hfn ▸ hhead, fun head slot hsome hslot => ?_, hfresh hn⟩
      exact hdir ▸ hok f hload hpc since (by rw [hcaller]; rfl) head (hfn ▸ hsome) slot hslot
    exact hreturned.step h.safe hstep
  | inserted f slot hload hdir hcaller hpc hhead =>
    have hfn := hname f hload hdir hcaller
    have hn : IsTable n := hfn ▸ (h.safe.named.load f hload (by simp [hpc])).1
    obtain ⟨hsince, -, hfresh⟩ := h.opening n since (Or.inr (Or.inr ⟨f, hload, hdir, hcaller⟩))
    have hclock := (step_bookkeeping h.safe.named hstep).clock
    have hslotFresh : Fresh W s.clock n since slot.kv.dir := by
      have hl := h.load f since hload hcaller (hdir ▸ hn) f (table_load_eq_some.mpr ⟨hload, by
        rw [hfn, hdir]⟩) hcaller
      rw [hpc, hdir] at hl
      exact hl
    refine ⟨hsince.trans hclock, hn, by rw [← hfn, hhead]; rfl, fun head slot' hsome hslot => ?_,
      h.frameFresh_step hn hsince (hfresh hn) hstep⟩
    rw [hfn] at hhead
    obtain rfl := Option.some.inj (hhead.symm.trans hsome)
    obtain rfl := Option.some.inj hslot
    exact hslotFresh.mono hclock
  | reloaded f live hframe hsince hpc hsame =>
    obtain ⟨hbegun, hfresh⟩ := h.frame n f hframe
    have hregistered := h.safe.named.frame n (by simp [hframe])
    rw [hsince] at hbegun hfresh
    have hhead := hfresh f hframe
    rw [hpc] at hhead
    have hreturned : Returned W s n since :=
      ⟨hbegun, h.safe.named.head n hregistered, hregistered, hhead, hfresh⟩
    exact hreturned.step h.safe hstep

theorem Timely.step (h : Timely W s) (hok : Routed W s a) (hstep : step W s a = some s') :
    Timely W s' := by
  have hbook := step_bookkeeping h.safe.named hstep
  have hcalls : ∀ c ∈ s'.calls, c.Begun s.clock := fun c hc =>
    (hbook.calls c hc).elim (h.calls c) (h.begun hok)
  -- Whoever is opening now was so before, or has just found the table unregistered.
  have hopening : ∀ n since, Opening s' n since → since ≤ s.clock ∧ '/' ∉ n.toList ∧
      (IsTable n → (s.table n).FrameFresh W s.clock n since) := by
    rintro n since (hmem | hmem | ⟨f, hf, rfl, hcaller⟩)
    · rcases hbook.calls _ hmem with hold | hnew
      · exact h.opening n since (Or.inl hold)
      · cases hnew with
        | isDirectory hfind hnone =>
          obtain ⟨hsince, hslash⟩ := h.calls _ hfind
          exact ⟨hsince, hslash, fun hn => .idle (h.safe.table n hn) hnone rfl⟩
    · rcases hbook.calls _ hmem with hold | hnew
      · exact h.opening n since (Or.inr (Or.inl hold))
      · cases hnew with
        | hotOpen hdir => exact h.opening n since (Or.inl hdir)
    · rcases hbook.load f hf with ⟨g, hg, hdir, hsame⟩ | ⟨-, hmem⟩
      · exact h.opening _ since (Or.inr (Or.inr ⟨g, hg, hdir, hsame.trans hcaller⟩))
      · exact h.opening _ since (Or.inr (Or.inl (hcaller ▸ hmem)))
  refine ⟨h.safe.step hstep, fun c hc => (hcalls c hc).mono hbook.clock, fun n since hopen => ?_,
    fun f since hf hcaller hn => ?_, fun n f hf => ?_, fun n since hmem => ?_⟩
  · obtain ⟨hsince, hslash, hfresh⟩ := hopening n since hopen
    exact ⟨hsince.trans hbook.clock, hslash, fun hn =>
      h.frameFresh_step hn hsince (hfresh hn) hstep⟩
  · have hsince := (hopening _ since (Or.inr (Or.inr ⟨f, hf, rfl, hcaller⟩))).1
    have hload : (s.table f.tableDir).LoadFresh W s.clock f.tableDir since := by
      rcases hbook.load f hf with ⟨g, hg, hdir, hsame⟩ | ⟨hnone, -⟩
      · rw [← hdir]
        exact h.load g since hg (hsame.trans hcaller) (hdir ▸ hn)
      · intro g hg
        rw [(table_load_eq_some.mp hg).1] at hnone
        cases hnone
    have htable := step_table h.safe.named hn hstep
    exact (hload.step (h.safe.table _ hn) hsince htable).mono hbook.clock
  · have hnamed := h.safe.named.step hstep
    have hn : IsTable n := hnamed.head n (hnamed.frame n (by simp [hf]))
    have hbegun : f.since ≤ s.clock ∧ (s.table n).FrameFresh W s.clock n f.since := by
      rcases (step_table h.safe.named hn hstep).frame_since hf with
        ⟨g, hg, hsince⟩ | ⟨hmem, hfree⟩
      · exact hsince ▸ h.frame n g hg
      · refine ⟨(h.calls _ hmem).1, fun g hg => ?_⟩
        rw [hfree] at hg
        cases hg
    exact ⟨hbegun.1.trans hbook.clock, h.frameFresh_step hn hbegun.1 hbegun.2 hstep⟩
  · rcases hbook.answers n since hmem with hold | hnew
    · exact (h.answers n since hold).step h.safe hstep
    · exact h.returns hok hnew hstep

/-- In every run of reloads on names without `/` in which no `LoadTable` called for a reload
finds its table registered from a directory switched away before, every reload that returns
is fresh. -/
theorem reload_fresh (W : World) (actions : List Action) (s : State)
    (hok : Runs.Guarded (step W) (Routed W) .init actions)
    (hrun : Runs.exec (step W) .init actions = some s) : FreshReloads W s := by
  have htimely : Timely W s :=
    Runs.guarded_invariant (P := Timely W) (fun _ _ _ h hok hstep => h.step hok hstep) hok hrun
      .init
  intro n since hmem
  have hreturned := htimely.answers n since hmem
  obtain ⟨head, hhead⟩ := Option.isSome_iff_exists.mp hreturned.registered
  obtain ⟨slot, hslot, hacquire⟩ := htimely.safe.served.registered n head hhead
  exact ⟨slot, hacquire, hreturned.head head slot hhead hslot⟩

end Steps
/-- The end of a reload of `t`, and the first open of a table `u` by a reload. -/
def returnOfT : List Action := [.reload "t" none, .reload "t" none, .reload "t" none]

def hotOpenOf (n : String) : List Action :=
  [.reloadTable n, .call 0 none, .call 0 none, .call 0 none, .load none, .load none, .load none,
    .load none, .load none]

theorem reloads_after_switch : ∃ s,
    Runs.Guarded (step switchedOnce) (Routed switchedOnce) .init
      (scanOfT ++ [.tick] ++ reloadOfT ++ returnOfT ++ hotOpenOf "u") ∧
    Runs.exec (step switchedOnce) .init
      (scanOfT ++ [.tick] ++ reloadOfT ++ returnOfT ++ hotOpenOf "u") = some s ∧
      s.answers.map (fun r => (r.table, r.since)) = [("u", 1), ("t", 1)] ∧
      FreshReloads switchedOnce s :=
  have hok : Runs.Guarded (step switchedOnce) (Routed switchedOnce) .init
      (scanOfT ++ [.tick] ++ reloadOfT ++ returnOfT ++ hotOpenOf "u") := by decide
  ⟨_, hok, rfl, rfl, reload_fresh switchedOnce
    (scanOfT ++ [.tick] ++ reloadOfT ++ returnOfT ++ hotOpenOf "u") _ hok rfl⟩

/-- The scan has opened `t`; the switch, and a reload that finds `t` unregistered; then the
scan registers what it opened, and the reload returns. -/
def scanDuringReload : List Action :=
  [.scanAndLoad ["t"], .call 0 none, .call 0 none, .load none, .load none, .tick,
    .reloadTable "t", .call 0 none, .call 0 none, .load none, .load none, .load none,
    .call 1 none, .load none]

/-- Both orders of answering `ok` too early: build 1 is served after the reload for
build 2, and a name with a `/` is registered under its last component. -/
theorem reload_stale_or_unrouted :
    (∃ s, Runs.exec (step switchedOnce) .init scanDuringReload = some s ∧
      s.answers = [⟨"t", 1, .ok ()⟩] ∧ (acquire s "t").map (·.kv.dir) = some "/builds/1/t" ∧
      ¬ FreshReloads switchedOnce s) ∧
    ∃ s, Runs.exec (step switchedOnce) .init (hotOpenOf "sub/t") = some s ∧
      s.answers = [⟨"sub/t", 0, .ok ()⟩] ∧ acquire s "sub/t" = none ∧
      ¬ FreshReloads switchedOnce s := by
  refine ⟨⟨_, rfl, rfl, rfl, fun h => ?_⟩, ⟨_, rfl, rfl, rfl, fun h => ?_⟩⟩
  · obtain ⟨slot, hslot, t, hle, hge, hdir⟩ := h "t" 1 (List.mem_singleton.mpr rfl)
    obtain rfl := Option.some.inj hslot
    obtain rfl : t = 1 := Nat.le_antisymm hle hge
    exact absurd hdir (by decide)
  · obtain ⟨slot, hslot, -⟩ := h "sub/t" 0 (List.mem_singleton.mpr rfl)
    cases hslot

end YikvServer.Registry
