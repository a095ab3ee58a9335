import EventLog.Field.Layout

set_option autoImplicit false

/-! # Schema tables

A `Schema.Table` gives the display names of event types and, for each event type and version that
is registered, the fields of its payload in order. A pair of type and version can be registered
once.
-/

namespace EventLog.Schema

/-- Why a description of schemas does not make a table. -/
inductive Defect where
  /-- An event names a type that the table does not list. -/
  | unknownTypeName (name : String)
  /-- A type and version is registered twice. -/
  | duplicateSchema (key : EventKey)
  /-- A field has a layout of an unknown name. -/
  | unsupportedLayout (kind : String) (position : Nat) (key : EventKey)
  /-- A field has a wire integer of an unknown name. -/
  | unsupportedPrimitive (primitive : String) (position : Nat) (key : EventKey)
  /-- An integer field does not name its wire integer. -/
  | missingPrimitive (position : Nat) (key : EventKey)
  deriving DecidableEq, Repr

/-- Where a field stands: its position in the declaration of an event. -/
def fieldPlace (position : Nat) (key : EventKey) : String :=
  s!"field #{position} of event type {key.eventType} version {key.version}"

def Defect.message : Defect → String
  | unknownTypeName name => s!"Unknown event type name `{name}`"
  | duplicateSchema key =>
      s!"Schema for event type {key.eventType} version {key.version} is defined more than once"
  | unsupportedLayout kind position key =>
      s!"Unsupported field reader `{kind}` ({fieldPlace position key})"
  | unsupportedPrimitive primitive position key =>
      s!"Unsupported wire primitive `{primitive}` ({fieldPlace position key})"
  | missingPrimitive position key =>
      s!"`READ_TYPE` {fieldPlace position key} does not name a wire primitive"

/-- Type names by code, and the fields of the registered keys, of which each has one entry. -/
structure Table where
  typeNames : List String
  schemas : List (EventKey × List FieldSpec)
  nodup_keys : (schemas.map Prod.fst).Nodup

namespace Table

/-- The display name of a code that has none. -/
def unknownTypeName : String := "Unknown"

/-- The table of the given type names in which nothing is registered. -/
def ofTypeNames (typeNames : List String) : Table := ⟨typeNames, [], List.nodup_nil⟩

def keys (t : Table) : List EventKey := t.schemas.map Prod.fst

def size (t : Table) : Nat := t.schemas.length

def get? (t : Table) (key : EventKey) : Option (List FieldSpec) := t.schemas.lookup key

/-- A key without fields in a table is none of its keys. -/
theorem not_mem_keys_of_get? {t : Table} {key : EventKey} (h : t.get? key = none) : key ∉ t.keys := by
  intro hmem
  obtain ⟨entry, hentry, rfl⟩ := List.mem_map.mp hmem
  simpa using List.lookup_eq_none_iff.mp h entry hentry

/-- Registers the fields of a key that is not registered yet. -/
def insert (t : Table) (key : EventKey) (fields : List FieldSpec) : Except Defect Table :=
  match h : t.get? key with
  | some _ => .error (.duplicateSchema key)
  | none => .ok
      { typeNames := t.typeNames
        schemas := (key, fields) :: t.schemas
        nodup_keys := List.nodup_cons.mpr ⟨not_mem_keys_of_get? h, t.nodup_keys⟩ }

def typeName (t : Table) (code : UInt32) : String :=
  (t.typeNames[code.toNat]?).getD unknownTypeName

/-- The first code of a display name. -/
def typeCode? (t : Table) (name : String) : Option UInt32 :=
  match t.typeNames.findIdx? (· == name) with
  | some i => if i < UInt32.size then some (UInt32.ofNat i) else none
  | none => none

/-- The registered keys with their fields, by type and then by version. -/
def sorted (t : Table) : List (EventKey × List FieldSpec) :=
  t.schemas.mergeSort fun a b =>
    decide (a.1.eventType < b.1.eventType) ||
      (a.1.eventType == b.1.eventType && decide (a.1.version ≤ b.1.version))

end Table

end EventLog.Schema
