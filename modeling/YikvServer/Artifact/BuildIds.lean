import YikvServer.Artifact.RoundTrip
import YikvServer.Theory.DecimalText

/-!
# Automatic build ids

Pushes of one table without `--build-id`, one after another, from an empty store. The id of
a push is the second at which its source was taken up, with the number of retries when the
id of that second is taken. Such ids grow, and the latest build is the build pushed last,
while every id is either the first of its second or one of nine retries in that second:
a push that retries into the next second takes an id that the next id of that second is
less than, and `-10` comes before `-9`.
-/
namespace YikvServer.Artifact

open YikvServer.Theory YikvServer.Theory.FileTree YikvServer.Theory.DecimalText

/-- A reading of the local clock, in a year of four digits. -/
@[ext] structure LocalTime where
  stamp : Nat
  lower : 10 ^ 13 ≤ stamp
  upper : stamp < 10 ^ 14

/-- An id of that second, with a suffix or without. -/
def OfSecond (now : LocalTime) (b : String) : Prop := (toString now.stamp).toList <+: b.toList

instance (now : LocalTime) (b : String) : Decidable (OfSecond now b) :=
  inferInstanceAs (Decidable (_ <+: _))

variable {now later : LocalTime} {i j k : Nat} {b : String}

/-! ## The order of the ids -/

theorem toList_timestampId (n k : Nat) : (timestampId n k).toList =
    Nat.toDigits 10 n ++ if k = 0 then [] else '-' :: Nat.toDigits 10 k := by
  by_cases hk : k = 0
  · simp [timestampId, hk]
  · simp [timestampId, hk]

theorem length_stamp (now : LocalTime) : (Nat.toDigits 10 now.stamp).length = 14 :=
  length_toDigits now.lower now.upper

theorem timestampId_lt_later (h : now.stamp < later.stamp) :
    timestampId now.stamp j < timestampId later.stamp k := by
  show (timestampId now.stamp j).toList < (timestampId later.stamp k).toList
  rw [toList_timestampId, toList_timestampId]
  exact toDigits_append_lt h ((length_stamp now).trans (length_stamp later).symm)

theorem timestampId_lt_suffixed (n : Nat) (hk : k ≠ 0) : timestampId n 0 < timestampId n k := by
  show (timestampId n 0).toList < (timestampId n k).toList
  rw [toList_timestampId, toList_timestampId, if_pos rfl, if_neg hk]
  exact List.append_left_lt (List.nil_lt_cons _ _)

/-- Suffixes of as many digits are ordered as the numbers of retries are. -/
theorem timestampId_lt_retry (n : Nat) (hj : j ≠ 0) (hjk : j < k)
    (hlen : (Nat.toDigits 10 j).length = (Nat.toDigits 10 k).length) :
    timestampId n j < timestampId n k := by
  show (timestampId n j).toList < (timestampId n k).toList
  rw [toList_timestampId, toList_timestampId, if_neg hj, if_neg (by omega)]
  refine List.append_left_lt (List.cons_lt_cons_iff.mpr (Or.inr ⟨rfl, ?_⟩))
  have hdigits : Nat.toDigits 10 j ++ [] < Nat.toDigits 10 k ++ [] := toDigits_append_lt hjk hlen
  simpa only [List.append_nil] using hdigits

/-- Up to nine retries the ids of one second grow. -/
theorem timestampId_lt_of_lt (n : Nat) (hjk : j < k) (hk : k ≤ 9) :
    timestampId n j < timestampId n k := by
  by_cases hj : j = 0
  · subst hj
    exact timestampId_lt_suffixed n (by omega)
  · refine timestampId_lt_retry n hj hjk ?_
    rw [Nat.toDigits_of_lt_base (by omega), Nat.toDigits_of_lt_base (by omega)]
    rfl

/-- The tenth retry comes before the ninth. -/
theorem timestampId_ten_lt (n : Nat) : timestampId n 10 < timestampId n 9 := by
  show (timestampId n 10).toList < (timestampId n 9).toList
  rw [toList_timestampId, toList_timestampId]
  exact List.append_left_lt (by decide)

theorem ofSecond_iff : OfSecond now (timestampId later.stamp k) ↔ now.stamp = later.stamp := by
  have hnow : (toString now.stamp).toList = Nat.toDigits 10 now.stamp := by simp
  unfold OfSecond
  rw [hnow, toList_timestampId]
  constructor
  · intro h
    have hlen : (Nat.toDigits 10 now.stamp).length = (Nat.toDigits 10 later.stamp).length :=
      (length_stamp now).trans (length_stamp later).symm
    have hsame : Nat.toDigits 10 now.stamp = Nat.toDigits 10 later.stamp := by
      obtain ⟨tail, htail⟩ := h
      exact (List.append_inj htail hlen).1
    calc now.stamp = value (Nat.toDigits 10 now.stamp) := (value_toDigits _).symm
      _ = value (Nat.toDigits 10 later.stamp) := by rw [hsame]
      _ = later.stamp := value_toDigits _
  · intro h
    rw [h]
    exact List.prefix_append _ _

theorem suffix_inj (n : Nat) (h : timestampId n j = timestampId n k) : j = k := by
  have hlist := congrArg String.toList h
  rw [toList_timestampId, toList_timestampId] at hlist
  have htail := List.append_cancel_left hlist
  by_cases hj : j = 0 <;> by_cases hk : k = 0
  · rw [hj, hk]
  · rw [if_pos hj, if_neg hk] at htail
    cases htail
  · rw [if_neg hj, if_pos hk] at htail
    cases htail
  · rw [if_neg hj, if_neg hk] at htail
    have hdigits := congrArg value (List.cons.inj htail).2
    rwa [value_toDigits, value_toDigits] at hdigits

theorem timestampId_inj :
    timestampId now.stamp j = timestampId later.stamp k ↔ now = later ∧ j = k := by
  constructor
  · intro h
    have hsecond : OfSecond now (timestampId later.stamp k) := h ▸ ofSecond_iff.mpr rfl
    obtain rfl := LocalTime.ext (ofSecond_iff.mp hsecond)
    exact ⟨rfl, suffix_inj _ h⟩
  · rintro ⟨rfl, rfl⟩
    rfl

/-! ## Pushes one after another -/

section Pushing
variable {β : Type} {P : Provider β}

/-- The store, the last reading of the clock, the push that is running or that ran last,
and the ids that were allocated, the newest first. -/
structure Pushing (P : Provider β) where
  store : Store β
  clock : Nat
  current : Option (PushRun P)
  ids : List String

inductive PushMove (β : Type) where
  | start (source : SourceTree β)
  | go (now : LocalTime) (choice : List Path)

def PushPc.isDone {St : Type} : PushPc St → Bool
  | .done _ => true
  | _ => false

/-- `allocated build_id=`. -/
def PushPc.allocated {St : Type} : PushPc St → List String
  | .isDir b => [b]
  | _ => []

def Pushing.init : Pushing P := ⟨∅, 0, none, []⟩

def Pushing.step (s : Pushing P) : PushMove β → Option (Pushing P)
  | .start source =>
    if (s.current.map fun run => run.pc.isDone).getD true then
      some { s with current := some ⟨none, source, .resolve 0⟩ }
    else none
  | .go now choice =>
    if s.clock ≤ now.stamp then
      s.current.bind fun run =>
        (pushStep P run.buildId now.stamp (some run.source.tree) s.store choice run.pc).map
          fun (effect, pc) =>
            { store := effect.onStore s.store
              clock := now.stamp
              current := some { run with pc }
              ids := pc.allocated ++ s.ids }
    else none

/-- The id just allocated is not in the store, it is greater than all earlier ones, and a
pull without `--build-id` takes the push completed last. -/
structure FreshIds (s : Pushing P) : Prop where
  increasing : s.ids.Pairwise (· > ·)
  fresh : ∀ run b, s.current = some run → run.pc = .isDir b → b ∉ s.store
  latest : ∀ run b, s.current = some run → run.pc = .done b →
    (explicitId none).or s.store.keys.max? = some b

/-- There is a file somewhere below. -/
def HasFile (t : DirTree β) : Prop := ∃ p ∈ t.keys, isDir (some t) p = false

instance (t : DirTree β) : Decidable (HasFile t) := inferInstanceAs (Decidable (∃ p ∈ _, _))

/-- An id is taken after one to nine retries, or in a second that the store has no id of;
and what is pushed to an object store has a file. -/
def PushRun.Apart (store : Store β) (now : LocalTime) (run : PushRun P) : Prop :=
  match run.pc with
  | .resolve retries => P.isLocal = true ∧ timestampId now.stamp retries ∈ store ∨
      1 ≤ retries ∧ retries ≤ 9 ∨ ∀ b ∈ store.keys, ¬ OfSecond now b
  | .print _ => P.isLocal = true ∨ HasFile run.source.tree
  | _ => True

instance (store : Store β) (now : LocalTime) (run : PushRun P) : Decidable (run.Apart store now) := by
  unfold PushRun.Apart
  split <;> infer_instance

def Pushing.Apart (s : Pushing P) : PushMove β → Prop
  | .start _ => True
  | .go now _ => ∀ run ∈ s.current, run.Apart s.store now

instance (s : Pushing P) : (m : PushMove β) → Decidable (s.Apart m)
  | .start _ => isTrue trivial
  | .go now _ => inferInstanceAs (Decidable (∀ run ∈ s.current, run.Apart s.store now))

/-- An object store lists a prefix when an object lies below it. -/
def Provider.ListsFiles : Provider β → Prop
  | .localDir => True
  | .s3Compatible rclone => ∀ (t : DirTree β) (objects : Option (DirTree β)),
    rclone.up.Copies (some t) none objects → (objects ≠ none ↔ HasFile t)

/-- The copier of files lists what it has uploaded. -/
theorem fileRclone_listsFiles : (Provider.s3Compatible fileRclone : Provider β).ListsFiles := by
  intro t objects hcopies
  obtain ⟨-, rfl⟩ := (onceCopier_copies uploaded_keeps).mp hcopies
  unfold uploaded
  split
  · next hnone =>
    refine iff_of_false (fun h => h rfl) ?_
    rintro ⟨p, hkey, hfile⟩
    have hmem : p ∈ filePaths (some t) := List.mem_filter.mpr ⟨hkey, decide_eq_true hfile⟩
    rw [hnone] at hmem
    cases hmem
  · next hsome =>
    refine iff_of_true (Option.some_ne_none _) ?_
    obtain ⟨p, hmem⟩ := List.exists_mem_of_ne_nil _ hsome
    obtain ⟨hkey, hfile⟩ := List.mem_filter.mp hmem
    exact ⟨p, hkey, of_decide_eq_true hfile⟩

/-! ## Invariant -/

/-- One id was taken before another. -/
def Earlier (a b : LocalTime × Nat) : Prop :=
  a.1.stamp < b.1.stamp ∨ a.1 = b.1 ∧ a.2 < b.2 ∧ b.2 ≤ 9

/-- The seconds and suffixes of the ids, the newest first. A second that has its plain id
has its suffixes without a gap. -/
structure Taken (clock : Nat) (ids : List String) (taken : List (LocalTime × Nat)) : Prop where
  named : ids = taken.map fun id => timestampId id.1.stamp id.2
  ordered : taken.Pairwise fun a b => Earlier b a
  past : ∀ id ∈ taken, id.1.stamp ≤ clock
  filled : ∀ t k, (t, k) ∈ taken → (t, 0) ∈ taken → ∀ j ≤ k, (t, j) ∈ taken

/-- All builds but the one that is being pushed are in the store. -/
structure Held (store : Store β) (ids : List String) (b : String) : Prop where
  newest : ids.head? = some b
  others : ∀ other, other ≠ b → (other ∈ store ↔ other ∈ ids)

/-- Where the push that is running stands. -/
def Stage (clock : Nat) (store : Store β) (ids : List String) (taken : List (LocalTime × Nat))
    (source : SourceTree β) : PushPc P.up.St → Prop
  | .resolve retries => (∀ b, b ∈ store ↔ b ∈ ids) ∧
    (retries = 0 ∨ P.isLocal = true ∧ ∃ first : LocalTime, first.stamp ≤ clock ∧
      (∀ id ∈ taken, id.1.stamp ≤ first.stamp) ∧ ∀ j < retries, (first, j) ∈ taken)
  | .isDir b => Held store ids b ∧ b ∉ store
  | .check b => Held store ids b ∧ b ∉ store
  | .remove _ => False
  | .scan b => Held store ids b ∧ b ∉ store
  | .make b _ => Held store ids b ∧ b ∉ store ∧ P.isLocal = true
  | .copy b st => Held store ids b ∧ (P.isLocal = true ∧ b ∈ store ∨
    P.isLocal = false ∧ P.up.Copying (some source.tree) none (store.lookup b) st)
  | .print b => Held store ids b ∧ (b ∈ store ↔ P.isLocal = true ∨ HasFile source.tree)
  | .done b => ids.head? = some b ∧ ∀ b, b ∈ store ↔ b ∈ ids
  | .failed => True

/-- What holds in a run of pushes. -/
structure InOrder (s : Pushing P) : Prop where
  taken : ∃ taken, Taken s.clock s.ids taken ∧
    ∀ run, s.current = some run → run.buildId = none ∧
      Stage s.clock s.store s.ids taken run.source run.pc
  idle : s.current = none → ∀ b, b ∈ s.store ↔ b ∈ s.ids

namespace Taken
variable {clock : Nat} {ids : List String} {taken : List (LocalTime × Nat)} {t : LocalTime}

theorem mem_iff (h : Taken clock ids taken) : timestampId t.stamp k ∈ ids ↔ (t, k) ∈ taken := by
  rw [h.named, List.mem_map]
  constructor
  · rintro ⟨⟨later, j⟩, hmem, he⟩
    obtain ⟨rfl, rfl⟩ := timestampId_inj.mp he
    exact hmem
  · exact fun hmem => ⟨(t, k), hmem, rfl⟩

theorem exists_of_mem (h : Taken clock ids taken) (hb : b ∈ ids) :
    ∃ t k, (t, k) ∈ taken ∧ b = timestampId t.stamp k := by
  rw [h.named] at hb
  obtain ⟨⟨t, k⟩, hmem, rfl⟩ := List.mem_map.mp hb
  exact ⟨t, k, hmem, rfl⟩

theorem increasing (h : Taken clock ids taken) : ids.Pairwise (· > ·) := by
  rw [h.named]
  refine List.pairwise_map.mpr (h.ordered.imp fun {a b} hab => ?_)
  obtain ⟨t, k⟩ := a
  obtain ⟨t', j⟩ := b
  rcases hab with hlt | ⟨rfl, hjk, hk⟩
  · exact timestampId_lt_later hlt
  · exact timestampId_lt_of_lt _ hjk hk

/-- Behind the plain id of a second come at most nine more. -/
theorem suffix_le (h : Taken clock ids taken) (h0 : (t, 0) ∈ taken) (hk : (t, k) ∈ taken) :
    k ≤ 9 := by
  by_contra hlarge
  have hne : (t, k) ≠ (t, 0) := fun he => by
    have : k = 0 := congrArg Prod.snd he
    omega
  have hsymm : Std.Symm fun a b : LocalTime × Nat => Earlier a b ∨ Earlier b a :=
    ⟨fun _ _ => Or.symm⟩
  have hpairwise : taken.Pairwise fun a b => Earlier a b ∨ Earlier b a := h.ordered.imp Or.inr
  rcases hpairwise.forall hk h0 hne with (hlt | ⟨-, hlt, -⟩) | (hlt | ⟨-, -, hle⟩)
  · exact lt_irrefl _ hlt
  · exact absurd hlt (Nat.not_lt_zero _)
  · exact lt_irrefl _ hlt
  · exact hlarge hle

theorem mono (h : Taken clock ids taken) {clock' : Nat} (hclock : clock ≤ clock') :
    Taken clock' ids taken :=
  { h with past := fun id hid => (h.past id hid).trans hclock }

/-- An id of a second that has none yet. -/
theorem cons_fresh (h : Taken clock ids taken) (hclock : clock ≤ now.stamp)
    (hnone : ∀ id ∈ taken, id.1 ≠ now) :
    Taken now.stamp (timestampId now.stamp k :: ids) ((now, k) :: taken) where
  named := by rw [h.named]; rfl
  ordered := by
    refine List.pairwise_cons.mpr ⟨fun id hid => Or.inl ?_, h.ordered⟩
    refine lt_of_le_of_ne ((h.past id hid).trans hclock) fun he => ?_
    exact hnone id hid (LocalTime.ext he)
  past id hid := by
    rcases List.mem_cons.mp hid with rfl | hid
    · exact le_refl _
    · exact (h.past id hid).trans hclock
  filled t j hj h0 i hi := by
    rcases List.mem_cons.mp hj with he | hj
    · obtain ⟨rfl, rfl⟩ := Prod.mk.inj he
      rcases List.mem_cons.mp h0 with he | h0
      · obtain rfl : 0 = j := congrArg Prod.snd he
        rw [Nat.le_zero.mp hi]
        exact List.mem_cons_self
      · have hne : t ≠ t := hnone _ h0
        exact absurd rfl hne
    · have hne : t ≠ now := hnone _ hj
      rcases List.mem_cons.mp h0 with he | h0
      · exact absurd (congrArg Prod.fst he) hne
      · exact List.mem_cons_of_mem _ (h.filled t j hj h0 i hi)

/-- The next id of a second that has all before it. -/
theorem cons_retry (h : Taken clock ids taken) (hclock : clock ≤ now.stamp)
    (hbefore : ∀ j < k, (now, j) ∈ taken) (hpos : 0 < k) (hle : k ≤ 9)
    (hfree : (now, k) ∉ taken) :
    Taken now.stamp (timestampId now.stamp k :: ids) ((now, k) :: taken) where
  named := by rw [h.named]; rfl
  ordered := by
    refine List.pairwise_cons.mpr ⟨fun id hid => ?_, h.ordered⟩
    obtain ⟨t, j⟩ := id
    rcases Nat.lt_or_eq_of_le ((h.past _ hid).trans hclock) with hlt | he
    · exact Or.inl hlt
    · obtain rfl := LocalTime.ext he
      refine Or.inr ⟨rfl, ?_, hle⟩
      by_contra hge
      exact hfree (h.filled t j hid (hbefore 0 hpos) k (not_lt.mp hge))
  past id hid := by
    rcases List.mem_cons.mp hid with rfl | hid
    · exact le_refl _
    · exact (h.past id hid).trans hclock
  filled t j hj h0 i hi := by
    rcases List.mem_cons.mp hj with he | hj
    · obtain ⟨rfl, rfl⟩ := Prod.mk.inj he
      rcases Nat.lt_or_eq_of_le hi with hlt | rfl
      · exact List.mem_cons_of_mem _ (hbefore i hlt)
      · exact List.mem_cons_self
    · have h0 : (t, 0) ∈ taken := by
        rcases List.mem_cons.mp h0 with he | h0
        · obtain rfl : 0 = k := congrArg Prod.snd he
          exact absurd hpos (lt_irrefl _)
        · exact h0
      exact List.mem_cons_of_mem _ (h.filled t j hj h0 i hi)

end Taken

namespace Stage
variable {clock : Nat} {store : Store β} {ids : List String} {taken : List (LocalTime × Nat)}
  {source : SourceTree β} {retries : Nat} {pc pc' : PushPc P.up.St} {effect : Effect β}
  {choice : List Path}

/-- The id that is taken is new, and greater than all others. -/
theorem allocate (h : Stage clock store ids taken source (.resolve retries : PushPc P.up.St))
    (htaken : Taken clock ids taken) (hclock : clock ≤ now.stamp)
    (hfree : ¬ (P.isLocal = true ∧ timestampId now.stamp retries ∈ store))
    (hok : 1 ≤ retries ∧ retries ≤ 9 ∨ ∀ b ∈ store.keys, ¬ OfSecond now b) :
    Taken now.stamp (timestampId now.stamp retries :: ids) ((now, retries) :: taken) ∧
      timestampId now.stamp retries ∉ store := by
  obtain ⟨hstore, hloop⟩ := h
  have hfirst : (∀ id ∈ taken, id.1 ≠ now) →
      Taken now.stamp (timestampId now.stamp retries :: ids) ((now, retries) :: taken) ∧
        timestampId now.stamp retries ∉ store := by
    intro hnone
    refine ⟨htaken.cons_fresh hclock hnone, fun hmem => ?_⟩
    exact hnone _ (htaken.mem_iff.mp ((hstore _).mp hmem)) rfl
  rcases hok with ⟨hpos, hle⟩ | hsecond
  · rcases hloop with rfl | ⟨hlocal, first, hfirstClock, hmax, hbefore⟩
    · exact absurd hpos (by decide)
    · have hnot : timestampId now.stamp retries ∉ store := fun hmem => hfree ⟨hlocal, hmem⟩
      by_cases he : first = now
      · subst he
        refine ⟨htaken.cons_retry hclock hbefore hpos hle fun hmem => ?_, hnot⟩
        exact hnot ((hstore _).mpr (htaken.mem_iff.mpr hmem))
      · refine hfirst fun id hid hnow => he (LocalTime.ext ?_)
        have hle := hmax id hid
        rw [hnow] at hle
        exact le_antisymm (hfirstClock.trans hclock) hle
  · refine hfirst fun id hid hnow => ?_
    obtain ⟨t, k⟩ := id
    obtain rfl : t = now := hnow
    have hmem : timestampId t.stamp k ∈ store := (hstore _).mpr (htaken.mem_iff.mpr hid)
    exact hsecond _ (AList.mem_keys.mp hmem) (ofSecond_iff.mpr rfl)

/-- Where the id is taken the loop goes on. -/
theorem retry (h : Stage clock store ids taken source (.resolve retries : PushPc P.up.St))
    (htaken : Taken clock ids taken) (hclock : clock ≤ now.stamp) (hlocal : P.isLocal = true)
    (hmem : timestampId now.stamp retries ∈ store) :
    Stage now.stamp store ids taken source
      (.resolve (if retries + 1 > 99 then 0 else retries + 1) : PushPc P.up.St) := by
  obtain ⟨hstore, hloop⟩ := h
  have hnow : (now, retries) ∈ taken := htaken.mem_iff.mp ((hstore _).mp hmem)
  refine ⟨hstore, ?_⟩
  split
  · exact Or.inl rfl
  · refine Or.inr ⟨hlocal, now, le_refl _, fun id hid => (htaken.past id hid).trans hclock, ?_⟩
    intro j hj
    rcases Nat.lt_or_eq_of_le (Nat.le_of_lt_succ hj) with hlt | rfl
    · rcases hloop with rfl | ⟨-, first, hfirst, hmax, hbefore⟩
      · exact absurd hlt (Nat.not_lt_zero _)
      · obtain rfl : first = now :=
          LocalTime.ext (le_antisymm (hfirst.trans hclock) (hmax _ hnow))
        exact hbefore j hlt
    · exact hnow

end Stage

namespace Held
variable {store : Store β} {ids : List String}

/-- What is done under the name of the build that is being pushed. -/
theorem onStore {effect : Effect β} (h : Held store ids b)
    (hwrites : ∀ other, other ≠ b → ¬ effect.writes other) : Held (effect.onStore store) ids b where
  newest := h.newest
  others other hother := by
    rw [← h.others other hother, ← AList.lookup_isSome, ← AList.lookup_isSome,
      Effect.lookup_onStore (hwrites other hother)]

theorem all (h : Held store ids b) (hb : b ∈ store) (other : String) :
    other ∈ store ↔ other ∈ ids := by
  by_cases hother : other = b
  · subst hother
    exact iff_of_true hb (List.mem_of_mem_head? h.newest)
  · exact h.others other hother

end Held

theorem listed_iff (hP : P.ListsFiles) (hremote : P.isLocal = false)
    {t : DirTree β} {objects : Option (DirTree β)} (h : P.up.Copies (some t) none objects) :
    objects ≠ none ↔ HasFile t := by
  cases P with
  | localDir => cases hremote
  | s3Compatible rclone => exact hP t objects h

/-- After its id is allocated a push brings its build into the store and nothing else. -/
theorem Stage.turn {clock : Nat} {store : Store β} {ids : List String}
    {taken : List (LocalTime × Nat)} {source : SourceTree β} {pc pc' : PushPc P.up.St}
    {effect : Effect β} {choice : List Path} (hP : P.ListsFiles)
    (h : Stage clock store ids taken source pc) (hpc : ∀ retries, pc ≠ .resolve retries)
    (hprint : ∀ b, pc = .print b → P.isLocal = true ∨ HasFile source.tree)
    (hstep : pushStep P none now.stamp (some source.tree) store choice pc = some (effect, pc')) :
    pc'.allocated = [] ∧ Stage now.stamp (effect.onStore store) ids taken source pc' := by
  cases pc with
  | resolve retries => exact absurd rfl (hpc retries)
  | isDir b =>
    obtain ⟨rfl, rfl⟩ := Prod.mk.inj (Option.some.inj hstep)
    rw [if_pos (show FileTree.isDir (some source.tree) [] = true from rfl)]
    split
    · exact ⟨rfl, h⟩
    · exact ⟨rfl, h⟩
  | check b =>
    obtain ⟨rfl, rfl⟩ := Prod.mk.inj (Option.some.inj hstep)
    rw [if_neg h.2]
    exact ⟨rfl, h⟩
  | remove b => exact h.elim
  | scan b =>
    obtain ⟨st, hst, heq⟩ := Option.map_eq_some_iff.mp hstep
    obtain ⟨rfl, rfl⟩ := Prod.mk.inj heq
    cases hlocal : P.isLocal with
    | true => exact ⟨rfl, h.1, h.2, hlocal⟩
    | false =>
      refine ⟨rfl, h.1, Or.inr ⟨hlocal, ?_⟩⟩
      rw [show (Effect.quiet : Effect β).onStore store = store from rfl,
        AList.lookup_eq_none.mpr h.2]
      exact .refl hst
  | make b st =>
    obtain ⟨hheld, hnot, hlocal⟩ := h
    simp only [pushStep, if_neg hnot, Option.some.injEq, Prod.mk.injEq] at hstep
    obtain ⟨rfl, rfl⟩ := hstep
    refine ⟨rfl, hheld.onStore fun other hother => hother, Or.inl ⟨hlocal, ?_⟩⟩
    exact AList.lookup_isSome.mp (by rw [lookup_write]; rfl)
  | copy b st =>
    obtain ⟨hheld, hcopy⟩ := h
    rcases copyStep_eq_some hstep with ⟨hend, rfl, rfl⟩ | ⟨rfl, rfl⟩ | ⟨t, st', hmove, rfl, rfl⟩
    · refine ⟨rfl, hheld.onStore fun other hother => hother, ?_⟩
      rcases hcopy with ⟨hlocal, hb⟩ | ⟨hremote, hcopying⟩
      · exact iff_of_true hb (Or.inl hlocal)
      · rw [← AList.lookup_isSome, Option.isSome_iff_ne_none, hremote]
        exact (listed_iff hP hremote ⟨st, hcopying, hend⟩).trans (by simp)
    · exact ⟨rfl, trivial⟩
    · refine ⟨rfl, hheld.onStore fun other hother => hother, ?_⟩
      rw [lookup_write]
      rcases hcopy with ⟨hlocal, hb⟩ | ⟨hremote, hcopying⟩
      · obtain ⟨u, hu⟩ := Option.isSome_iff_exists.mp (AList.lookup_isSome.mpr hb)
        rw [hu] at hmove
        obtain ⟨v, rfl⟩ := P.up.keeps hmove
        exact Or.inl ⟨hlocal, AList.lookup_isSome.mp (by rw [lookup_write]; rfl)⟩
      · exact Or.inr ⟨hremote, hcopying.step hmove⟩
  | print b =>
    obtain ⟨rfl, rfl⟩ := Prod.mk.inj (Option.some.inj hstep)
    exact ⟨rfl, h.1.newest, h.1.all (h.2.mpr (hprint b rfl))⟩
  | done b => cases hstep
  | failed => cases hstep

/-- One turn of `_allocate_build_id`. -/
theorem pushStep_resolve {n retries : Nat} {src : Option (DirTree β)} {store : Store β}
    {choice : List Path} {effect : Effect β} {pc : PushPc P.up.St}
    (h : pushStep P none n src store choice (.resolve retries) = some (effect, pc)) :
    effect = .quiet ∧
      (P.isLocal = true ∧ timestampId n retries ∈ store ∧
          pc = .resolve (if retries + 1 > 99 then 0 else retries + 1) ∨
        ¬ (P.isLocal = true ∧ timestampId n retries ∈ store) ∧ pc = .isDir (timestampId n retries)) := by
  simp only [pushStep, pushId] at h
  split at h
  · next htaken =>
    obtain ⟨rfl, rfl⟩ := Prod.mk.inj (Option.some.inj h)
    exact ⟨rfl, Or.inl ⟨htaken.1, htaken.2, rfl⟩⟩
  · next hfree =>
    obtain ⟨rfl, rfl⟩ := Prod.mk.inj (Option.some.inj h)
    exact ⟨rfl, Or.inr ⟨hfree, rfl⟩⟩

variable {s s' : Pushing P} {m : PushMove β} {source : SourceTree β} {choice : List Path}

theorem step_start (h : s.step (.start source) = some s') :
    (s.current.map fun run => run.pc.isDone).getD true = true ∧
      s' = { s with current := some ⟨none, source, .resolve 0⟩ } := by
  obtain ⟨hdone, heq⟩ := Option.ite_none_right_eq_some.mp h
  exact ⟨hdone, (Option.some.inj heq).symm⟩

theorem step_go (h : s.step (.go now choice) = some s') :
    s.clock ≤ now.stamp ∧ ∃ run effect pc, s.current = some run ∧
      pushStep P run.buildId now.stamp (some run.source.tree) s.store choice run.pc =
        some (effect, pc) ∧
      s' = ⟨effect.onStore s.store, now.stamp, some { run with pc }, pc.allocated ++ s.ids⟩ := by
  obtain ⟨hclock, hturn⟩ := Option.ite_none_right_eq_some.mp h
  obtain ⟨run, hrun, hturn⟩ := Option.bind_eq_some_iff.mp hturn
  obtain ⟨⟨effect, pc⟩, hpush, rfl⟩ := Option.map_eq_some_iff.mp hturn
  exact ⟨hclock, run, effect, pc, hrun, hpush, rfl⟩

namespace InOrder

theorem init : InOrder (Pushing.init : Pushing P) where
  taken := ⟨[], ⟨rfl, .nil, fun _ hid => (List.not_mem_nil hid).elim,
    fun _ _ hid => (List.not_mem_nil hid).elim⟩, fun _ hrun => by cases hrun⟩
  idle _ b := iff_of_false (AList.notMem_empty b) List.not_mem_nil

theorem step (hP : P.ListsFiles) (h : InOrder s) (hok : s.Apart m) (hstep : s.step m = some s') :
    InOrder s' := by
  obtain ⟨taken, htaken, hcurrent⟩ := h.taken
  cases m with
  | start source =>
    obtain ⟨hdone, rfl⟩ := step_start hstep
    have hall : ∀ b, b ∈ s.store ↔ b ∈ s.ids := by
      cases hrun : s.current with
      | none => exact h.idle hrun
      | some run =>
        obtain ⟨-, hstage⟩ := hcurrent run hrun
        obtain ⟨buildId, source, pc⟩ := run
        rw [hrun] at hdone
        cases pc with
        | done b => exact hstage.2
        | _ => cases hdone
    refine ⟨⟨taken, htaken, fun run hrun => ?_⟩, fun hnone => by cases hnone⟩
    obtain rfl := Option.some.inj hrun
    exact ⟨rfl, hall, Or.inl rfl⟩
  | go now choice =>
    obtain ⟨hclock, run, effect, pc', hrun, hpush, rfl⟩ := step_go hstep
    obtain ⟨hid, hstage⟩ := hcurrent run hrun
    have hapart := hok run hrun
    obtain ⟨buildId, source, pc⟩ := run
    obtain rfl : buildId = none := hid
    refine ⟨?_, fun hnone => by cases hnone⟩
    by_cases hpc : ∃ retries, pc = .resolve retries
    · obtain ⟨retries, rfl⟩ := hpc
      obtain ⟨rfl, ⟨hlocal, hmem, rfl⟩ | ⟨hfree, rfl⟩⟩ := pushStep_resolve hpush
      · refine ⟨taken, htaken.mono hclock, fun run hrun => ?_⟩
        obtain rfl := Option.some.inj hrun
        exact ⟨rfl, hstage.retry htaken hclock hlocal hmem⟩
      · obtain ⟨hnew, hnot⟩ := hstage.allocate htaken hclock hfree (hapart.resolve_left hfree)
        refine ⟨_, hnew, fun run hrun => ?_⟩
        obtain rfl := Option.some.inj hrun
        refine ⟨rfl, ⟨rfl, fun other hother => ?_⟩, hnot⟩
        exact (hstage.1 other).trans (by simp [PushPc.allocated, hother])
    · have hprint : ∀ b, pc = .print b → P.isLocal = true ∨ HasFile source.tree := by
        rintro b rfl
        exact hapart
      obtain ⟨hnone, hstage'⟩ := Stage.turn hP hstage (not_exists.mp hpc) hprint hpush
      refine ⟨taken, ?_, fun run hrun => ?_⟩
      · show Taken now.stamp (pc'.allocated ++ s.ids) taken
        rw [hnone]
        exact htaken.mono hclock
      · obtain rfl := Option.some.inj hrun
        show _ ∧ Stage now.stamp _ (pc'.allocated ++ s.ids) taken source pc'
        rw [hnone]
        exact ⟨rfl, hstage'⟩

theorem freshIds (h : InOrder s) : FreshIds s := by
  obtain ⟨taken, htaken, hcurrent⟩ := h.taken
  constructor
  case increasing => exact htaken.increasing
  case fresh =>
    intro run b hrun hpc
    obtain ⟨-, hstage⟩ := hcurrent run hrun
    rw [hpc] at hstage
    exact hstage.2
  case latest =>
    intro run b hrun hpc
    obtain ⟨-, hstage⟩ := hcurrent run hrun
    rw [hpc] at hstage
    obtain ⟨hnewest, hall⟩ := hstage
    have hmem : b ∈ s.ids := List.mem_of_mem_head? hnewest
    refine List.max?_eq_some_iff.mpr ⟨(hall b).mpr hmem, fun other hother => ?_⟩
    obtain ⟨rest, hids⟩ := List.head?_eq_some_iff.mp hnewest
    have hincreasing := htaken.increasing
    rw [hids] at hincreasing
    have hother := (hall other).mp (AList.mem_keys.mpr hother)
    rw [hids] at hother
    rcases List.mem_cons.mp hother with rfl | hother
    · exact le_refl _
    · exact ((List.pairwise_cons.mp hincreasing).1 other hother).le

/-- Any other step leads to an id that is not new, or not the greatest. -/
theorem apart (h : InOrder s) (hstep : s.step m = some s') (hgood : FreshIds s') : s.Apart m := by
  obtain ⟨taken, htaken, hcurrent⟩ := h.taken
  cases m with
  | start source => trivial
  | go now choice =>
    obtain ⟨hclock, run, effect, pc', hrun, hpush, rfl⟩ := step_go hstep
    obtain ⟨hid, hstage⟩ := hcurrent run hrun
    obtain ⟨buildId, source, pc⟩ := run
    obtain rfl : buildId = none := hid
    intro run' hrun'
    obtain rfl := Option.some.inj (hrun.symm.trans hrun')
    cases pc with
    | resolve retries =>
      obtain ⟨rfl, ⟨hlocal, hmem, rfl⟩ | ⟨hfree, rfl⟩⟩ := pushStep_resolve hpush
      · exact Or.inl ⟨hlocal, hmem⟩
      · refine Or.inr ?_
        by_contra hbad
        push Not at hbad
        obtain ⟨hrange, other, hother, hsecond⟩ := hbad
        obtain ⟨hstore, hloop⟩ := hstage
        obtain ⟨t, k, hk, rfl⟩ :=
          htaken.exists_of_mem ((hstore other).mp (AList.mem_keys.mpr hother))
        obtain rfl := LocalTime.ext (ofSecond_iff.mp hsecond)
        have hgreatest : ∀ j, (now, j) ∈ taken →
            timestampId now.stamp j < timestampId now.stamp retries := fun j hj =>
          (List.pairwise_cons.mp hgood.increasing).1 _ (htaken.mem_iff.mpr hj)
        rcases Nat.eq_zero_or_pos retries with rfl | hpos
        · -- the plain id, after an id of the same second
          by_cases hk0 : k = 0
          · subst hk0
            exact lt_irrefl _ (hgreatest 0 hk)
          · exact lt_asymm (hgreatest k hk) (timestampId_lt_suffixed _ hk0)
        · -- more than nine retries, all in this second
          rcases hloop with rfl | ⟨-, first, hfirst, hmax, hbefore⟩
          · exact absurd hpos (lt_irrefl 0)
          obtain rfl : first = now :=
            LocalTime.ext (le_antisymm (hfirst.trans hclock) (hmax _ hk))
          have hlarge := hrange hpos
          have hlast := htaken.suffix_le (hbefore 0 hpos) (hbefore (retries - 1) (by omega))
          obtain rfl : retries = 10 := by omega
          exact lt_asymm (hgreatest 9 (hbefore 9 (by decide))) (timestampId_ten_lt _)
    | print b =>
      obtain ⟨rfl, rfl⟩ := Prod.mk.inj (Option.some.inj hpush)
      refine hstage.2.mp ?_
      have hmax := hgood.latest _ b rfl rfl
      exact AList.mem_keys.mpr (List.max?_mem hmax)
    | _ => trivial

end InOrder

/-- In every run of pushes of one table, whatever the clock shows, the ids are new and
increasing and the push completed last is the latest build exactly while every id is taken
after one to nine retries or in a second of which there is no id, and what is pushed to an
object store has a file. -/
theorem freshIds_iff (P : Provider β) (hP : P.ListsFiles) (moves : List (PushMove β))
    (s : Pushing P) (hrun : Runs.exec Pushing.step .init moves = some s) :
    Runs.Guarded Pushing.step Pushing.Apart (.init : Pushing P) moves ↔
      ∀ before, before <+: moves → ∀ t, Runs.exec Pushing.step (.init : Pushing P) before = some t →
        FreshIds t :=
  Runs.guarded_iff (I := InOrder) (fun _ _ _ h hok hstep => h.step hP hok hstep)
    (fun _ h => h.freshIds) (fun _ _ _ h hstep hgood => h.apart hstep hgood) hrun .init

end Pushing

/-! ## Runs of the local provider -/

/-- A second of one minute. -/
def midnight (second : Fin 60) : LocalTime where
  stamp := 20260101000000 + second
  lower := by omega
  upper := by omega

/-- A push of an empty directory that reads the clock at those seconds, until it has
exited. -/
def pushAt (readings : List (Fin 60)) (last : Fin 60) : List (PushMove Nat) :=
  .start ⟨∅, closed_flat fun _ hq => (List.not_mem_nil hq).elim⟩ ::
    readings.map (fun second => .go (midnight second) []) ++
      List.replicate 7 (.go (midnight last) [])

/-- Two pushes in one second. -/
theorem sameSecond_freshIds : ∃ s : Pushing (.localDir : Provider Nat),
    Runs.exec Pushing.step .init (pushAt [0] 0 ++ pushAt [0, 0] 0) = some s ∧
      s.ids = ["20260101000000-1", "20260101000000"] ∧ FreshIds s := by
  refine ⟨_, rfl, rfl, ?_⟩
  refine (freshIds_iff (.localDir : Provider Nat) trivial (pushAt [0] 0 ++ pushAt [0, 0] 0) _
    rfl).mp ?_ _ List.prefix_rfl _ rfl
  decide

/-- A push that retries into the next second is followed by one of that second: the third
id is less than the second, and the second build stays the latest. -/
theorem retried_into_next_second : ∃ s : Pushing (.localDir : Provider Nat),
    Runs.exec Pushing.step .init (pushAt [0] 0 ++ pushAt [0, 1] 1 ++ pushAt [1] 1) = some s ∧
      s.ids = ["20260101000001", "20260101000001-1", "20260101000000"] ∧
      s.store.keys.max? = some "20260101000001-1" ∧ ¬ FreshIds s := by
  refine ⟨_, rfl, rfl, rfl, fun h => ?_⟩
  have hlatest : some "20260101000001-1" = some "20260101000001" := h.latest _ _ rfl rfl
  exact absurd hlatest (by decide)

end YikvServer.Artifact
