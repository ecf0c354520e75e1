import Mathlib.Data.List.Nodup

/-!
# Schemas

The part of yikv's schema that the server reads. A loaded schema has unique field
names and unique field ids; both are fields of the structure. Field ids are
naturals; the casts to 16 bits stand where the code makes them.
-/
namespace YikvServer.Index

inductive DataType where
  | bool | int32 | int64 | float32 | float64 | string | bytes
  deriving DecidableEq, Repr

structure FieldDef where
  name : String
  fieldId : Nat
  type : DataType
  isArray : Bool
  deriving DecidableEq, Repr

structure Schema where
  fields : List FieldDef
  pk : String
  names : (fields.map FieldDef.name).Nodup
  ids : (fields.map FieldDef.fieldId).Nodup

namespace Schema

/-- `Schema::FindField`: the field of this name, or null. -/
def findField (schema : Schema) (name : String) : Option FieldDef :=
  schema.fields.find? fun fd => fd.name == name

/-- `Schema::FindFieldById`. -/
def findFieldById (schema : Schema) (id : Nat) : Option FieldDef :=
  schema.fields.find? fun fd => fd.fieldId == id

variable {schema : Schema} {fd fd' : FieldDef} {name : String}

theorem name_injective (h : fd ∈ schema.fields) (h' : fd' ∈ schema.fields)
    (hn : fd.name = fd'.name) : fd = fd' :=
  List.inj_on_of_nodup_map schema.names h h' hn

theorem id_injective (h : fd ∈ schema.fields) (h' : fd' ∈ schema.fields)
    (hn : fd.fieldId = fd'.fieldId) : fd = fd' :=
  List.inj_on_of_nodup_map schema.ids h h' hn

theorem findField_eq_some :
    schema.findField name = some fd ↔ fd ∈ schema.fields ∧ fd.name = name := by
  constructor
  · intro h
    exact ⟨List.mem_of_find?_eq_some h, by simpa using List.find?_some h⟩
  · rintro ⟨hmem, rfl⟩
    cases h : schema.findField fd.name with
    | none =>
      have hno := List.find?_eq_none.mp h fd hmem
      simp at hno
    | some fd' =>
      have hmem' : fd' ∈ schema.fields := List.mem_of_find?_eq_some h
      have hname : fd'.name = fd.name := by simpa using List.find?_some h
      rw [name_injective hmem' hmem hname]

theorem findFieldById_eq_some {id : Nat} :
    schema.findFieldById id = some fd ↔ fd ∈ schema.fields ∧ fd.fieldId = id := by
  constructor
  · intro h
    exact ⟨List.mem_of_find?_eq_some h, by simpa using List.find?_some h⟩
  · rintro ⟨hmem, rfl⟩
    cases h : schema.findFieldById fd.fieldId with
    | none =>
      have hno := List.find?_eq_none.mp h fd hmem
      simp at hno
    | some fd' =>
      have hmem' : fd' ∈ schema.fields := List.mem_of_find?_eq_some h
      have hid : fd'.fieldId = fd.fieldId := by simpa using List.find?_some h
      rw [id_injective hmem' hmem hid]

end Schema
end YikvServer.Index
