import Mathlib.Data.List.DropRight
import Mathlib.Data.Option.Basic

/-!
# Table names and DB keys

A table owns two keys of the DB: its name and the name with the suffix `~reload`.
No table is named with that suffix, so different tables own different keys.
-/
namespace YikvServer.Registry

/-- `fs::path::filename`. -/
def filename (path : String) : String := String.ofList (path.toList.rtakeWhile (· != '/'))

def kReloadSuffix : String := "~reload"

def isReservedReloadStagingDirName (name : String) : Bool :=
  kReloadSuffix.toList.isSuffixOf name.toList

def reloadStagingDbName (logicalTable : String) : String := logicalTable ++ kReloadSuffix

/-- The key that a table has with the given `staging_is_live`. -/
def dbName (table : String) (staging : Bool) : String :=
  if staging then reloadStagingDbName table else table

/-- `LoadTable` gives up on any other name. -/
def Loadable (name : String) : Prop :=
  name ≠ "" ∧ name.toList.head? ≠ some '.' ∧ isReservedReloadStagingDirName name = false

instance (name : String) : Decidable (Loadable name) := by unfold Loadable; infer_instance

/-- The names that `heads_` can hold. -/
def IsTable (name : String) : Prop := filename name = name ∧ Loadable name

theorem filename_filename (path : String) : filename (filename path) = filename path := by
  simp [filename, List.rtakeWhile_idempotent]

theorem filename_eq_self {path : String} (h : '/' ∉ path.toList) : filename path = path := by
  have hall : path.toList.rtakeWhile (· != '/') = path.toList :=
    List.rtakeWhile_eq_self_iff.mpr fun c hc => bne_iff_ne.mpr fun he => h (he ▸ hc)
  rw [filename, hall, String.ofList_toList]

theorem isTable_filename {path : String} (h : Loadable (filename path)) :
    IsTable (filename path) := ⟨filename_filename path, h⟩

theorem IsTable.ne_staging {n m : String} (hn : IsTable n) : n ≠ reloadStagingDbName m := by
  intro h
  have hsuffix : isReservedReloadStagingDirName n = true := by
    rw [h, isReservedReloadStagingDirName, List.isSuffixOf_iff_suffix, reloadStagingDbName,
      String.toList_append]
    exact List.suffix_append _ _
  rw [hn.2.2.2] at hsuffix
  cases hsuffix

/-- Different tables, and the two sides of one table, have different keys. -/
theorem dbName_inj {n m : String} {a b : Bool} (hn : IsTable n) (hm : IsTable m) :
    dbName n a = dbName m b ↔ n = m ∧ a = b := by
  constructor
  · intro h
    cases a <;> cases b
    · exact ⟨h, rfl⟩
    · exact absurd h hn.ne_staging
    · exact absurd h.symm hm.ne_staging
    · exact ⟨by simpa [dbName, reloadStagingDbName] using h, rfl⟩
  · rintro ⟨rfl, rfl⟩
    rfl

end YikvServer.Registry
