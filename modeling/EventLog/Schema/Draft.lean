import EventLog.Schema.Table

set_option autoImplicit false

/-! # Drafts of schema tables

A `TableDraft` is a description of schemas as it is written down: types by name or code, layouts
and wire integers by name. `TableDraft.toTable` checks it and makes the table, or reports the
first defect: events are taken in order, and of one event first its type name, then its fields in
order, then whether its key is already registered.
-/

namespace EventLog.Schema

/-- An event type, by code or by display name. -/
inductive TypeRef where
  | code (code : UInt32)
  | name (name : String)
  deriving DecidableEq, Repr

/-- A field as written down. -/
structure FieldDraft where
  kind : String
  name : String
  primitive : Option String
  deriving DecidableEq, Repr

/-- An event as written down. -/
structure EventDraft where
  eventType : TypeRef
  version : UInt16
  fields : List FieldDraft
  deriving DecidableEq, Repr

/-- A schema table as written down. -/
structure TableDraft where
  typeNames : List String
  events : List EventDraft
  deriving DecidableEq, Repr

/-- The layout that a kind name and the name of a wire integer stand for. A wire integer given
with another kind is ignored. -/
def layoutOf (kind : String) (primitive : Option String) (position : Nat) (key : EventKey) :
    Except Defect Layout :=
  if kind = "READ_UUID" then .ok .uuid
  else if kind = "READ_STRING" then .ok .string
  else if kind = "READ_NONEMPTY_STRING" then .ok .nonEmptyString
  else if kind = "READ_TYPE" then
    match primitive with
    | none => .error (.missingPrimitive position key)
    | some name =>
        match Primitive.ofWireName? name with
        | none => .error (.unsupportedPrimitive name position key)
        | some p => .ok (.integer p)
  else .error (.unsupportedLayout kind position key)

def FieldDraft.toSpec (f : FieldDraft) (position : Nat) (key : EventKey) :
    Except Defect FieldSpec := do
  let layout ← layoutOf f.kind f.primitive position key
  return { layout, name := f.name }

/-- The declared fields of drafts, of which the first stands at the given position. -/
def fieldSpecs (key : EventKey) : (position : Nat) → List FieldDraft →
    Except Defect (List FieldSpec)
  | _, [] => .ok []
  | position, f :: fs => do
      let spec ← f.toSpec position key
      let specs ← fieldSpecs key (position + 1) fs
      return spec :: specs

def TypeRef.code? (t : Table) : TypeRef → Except Defect UInt32
  | .code c => .ok c
  | .name n =>
      match t.typeCode? n with
      | some c => .ok c
      | none => .error (.unknownTypeName n)

def EventDraft.register (t : Table) (event : EventDraft) : Except Defect Table := do
  let code ← event.eventType.code? t
  let key : EventKey := ⟨code, event.version⟩
  let fields ← fieldSpecs key 0 event.fields
  -- Fields are judged before it is known whether the key is free.
  t.insert key fields

def registerAll (t : Table) : List EventDraft → Except Defect Table
  | [] => .ok t
  | event :: events => do
      let t ← event.register t
      registerAll t events

def TableDraft.toTable (draft : TableDraft) : Except Defect Table :=
  registerAll (.ofTypeNames draft.typeNames) draft.events

end EventLog.Schema
