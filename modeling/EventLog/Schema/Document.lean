import EventLog.Json.Reader
import EventLog.Schema.Draft

set_option autoImplicit false

/-! # Schema documents

A schema table is written down as a JSON object with the members `event_types` and `events`; an
event has `type`, `version` and `fields`, and a field has `reader`, `name` and `type`. Lists may
be left out and are then empty, and the wire integer of a field may be left out or null; members
of other names are skipped, and a member that is given twice is refused at its name.

Instead of an object each of the three may be an array of its members in that order, of which
the optional ones may be missing at the end.
-/

namespace EventLog.Schema

open Json (Problem Reads Token)

/-- Reads a table, event or field, as an object whose members change a state, or as an array. -/
def objectOrArray {σ α : Type} (start : σ) (member : σ → String → Reads σ)
    (finish : σ → Except Problem α) (elements : Reads α) : Reads α
  | [] => .error .unfinished
  | .opening .object :: rest => do
      let (s, rest) ← Json.members member start rest
      let x ← finish s
      return (x, rest)
  | .opening .array :: rest => do
      let (x, rest) ← elements rest
      let rest ← Json.closeArray rest
      return (x, rest)
  | t :: _ => .error (Json.unexpected t)

/-- Reads the value of a member that must not be given twice. -/
def once {α : Type} (given : Option α) (reader : Reads α) : Reads (Option α) := fun ts =>
  match given with
  | some _ => .error .mismatched
  | none => do
      let (x, ts) ← reader (← Json.colon ts)
      return (some x, ts)

def other {σ : Type} (s : σ) : Reads σ := fun ts => do
  let ts ← Json.skip (← Json.colon ts)
  return (s, ts)

def required {α : Type} (given : Option α) : Except Problem α :=
  match given with
  | some x => .ok x
  | none => .error .mismatched

/-! ## Fields -/

/-- The members of a field read so far. -/
structure FieldParts where
  kind : Option String := none
  name : Option String := none
  primitive : Option (Option String) := none

def FieldParts.finish (p : FieldParts) : Except Problem FieldDraft := do
  let kind ← required p.kind
  let name ← required p.name
  return { kind, name, primitive := p.primitive.getD none }

def fieldMember (p : FieldParts) (name : String) : Reads FieldParts := fun ts =>
  if name = "reader" then do
    let (kind, ts) ← once p.kind Json.readText ts
    return ({ p with kind }, ts)
  else if name = "name" then do
    let (name, ts) ← once p.name Json.readText ts
    return ({ p with name }, ts)
  else if name = "type" then do
    let (primitive, ts) ← once p.primitive Json.readText? ts
    return ({ p with primitive }, ts)
  else other p ts

def fieldElements : Reads FieldDraft := fun ts => do
  let (kind, ts) ← Json.element? true Json.readText ts
  let kind ← required kind
  let (name, ts) ← Json.element? false Json.readText ts
  let name ← required name
  let (primitive, ts) ← Json.element? false Json.readText? ts
  return ({ kind, name, primitive := primitive.getD none }, ts)

def readField : Reads FieldDraft :=
  objectOrArray {} fieldMember FieldParts.finish fieldElements

/-! ## Events -/

/-- The depth to which the type of an event may be nested: a table, its list of events and an
event enclose it. -/
def typeDepth : Nat := Json.maxDepth - 3

/-- Reads an event type: a code of 32 bits or a name. Any value is read to its end first. -/
def readTypeRef : Reads TypeRef := fun ts => do
  let (v, ts) ← Json.readValue typeDepth ts
  -- Only now is its kind looked at, so a fault inside the value comes first.
  match v with
  | .int n =>
      if 0 ≤ n ∧ n < UInt32.size then return (.code (UInt32.ofNat n.toNat), ts)
      else throw .mismatched
  | .string s => return (.name s, ts)
  | _ => throw .mismatched

def readVersion : Reads UInt16 := fun ts => do
  let (n, ts) ← Json.readNatural UInt16.size ts
  return (UInt16.ofNat n, ts)

/-- The members of an event read so far. -/
structure EventParts where
  eventType : Option TypeRef := none
  version : Option UInt16 := none
  fields : Option (List FieldDraft) := none

def EventParts.finish (p : EventParts) : Except Problem EventDraft := do
  let eventType ← required p.eventType
  let version ← required p.version
  return { eventType, version, fields := p.fields.getD [] }

def eventMember (p : EventParts) (name : String) : Reads EventParts := fun ts =>
  if name = "type" then do
    let (eventType, ts) ← once p.eventType readTypeRef ts
    return ({ p with eventType }, ts)
  else if name = "version" then do
    let (version, ts) ← once p.version readVersion ts
    return ({ p with version }, ts)
  else if name = "fields" then do
    let (fields, ts) ← once p.fields (Json.readList readField) ts
    return ({ p with fields }, ts)
  else other p ts

def eventElements : Reads EventDraft := fun ts => do
  let (eventType, ts) ← Json.element? true readTypeRef ts
  let eventType ← required eventType
  let (version, ts) ← Json.element? false readVersion ts
  let version ← required version
  let (fields, ts) ← Json.element? false (Json.readList readField) ts
  return ({ eventType, version, fields := fields.getD [] }, ts)

def readEvent : Reads EventDraft :=
  objectOrArray {} eventMember EventParts.finish eventElements

/-! ## Tables -/

/-- The members of a table read so far. -/
structure TableParts where
  typeNames : Option (List String) := none
  events : Option (List EventDraft) := none

def TableParts.finish (p : TableParts) : Except Problem TableDraft :=
  .ok { typeNames := p.typeNames.getD [], events := p.events.getD [] }

def tableMember (p : TableParts) (name : String) : Reads TableParts := fun ts =>
  if name = "event_types" then do
    let (typeNames, ts) ← once p.typeNames (Json.readList Json.readText) ts
    return ({ p with typeNames }, ts)
  else if name = "events" then do
    let (events, ts) ← once p.events (Json.readList readEvent) ts
    return ({ p with events }, ts)
  else other p ts

def tableElements : Reads TableDraft := fun ts => do
  let (typeNames, ts) ← Json.element? true (Json.readList Json.readText) ts
  let (events, ts) ← Json.element? false (Json.readList readEvent) ts
  return ({ typeNames := typeNames.getD [], events := events.getD [] }, ts)

def readTable : Reads TableDraft :=
  objectOrArray {} tableMember TableParts.finish tableElements

def TableDraft.parse (bytes : List UInt8) : Except Problem TableDraft :=
  Json.readAll readTable bytes

/-! ## Loading -/

/-- Why a schema table cannot be loaded. -/
inductive LoadError where
  /-- The document is not JSON of the right shape. -/
  | document (problem : Problem)
  /-- What the document describes does not make a table. -/
  | defect (defect : Defect)
  /-- The document cannot be read; `cause` is the sentence of the system. -/
  | unreadable (path cause : String)
  deriving DecidableEq, Repr

def problemText : Problem → String
  | .malformed => "the text is not JSON"
  | .mismatched => "the JSON value does not describe schemas"
  | .unfinished => "the text ends too early"

def LoadError.message : LoadError → String
  | document problem => "Failed to parse schema table: " ++ problemText problem
  | defect d => d.message
  | unreadable path cause => s!"Failed to read schema table from {path}: {cause}"

def Table.parse (bytes : List UInt8) : Except LoadError Table :=
  match TableDraft.parse bytes with
  | .error p => .error (.document p)
  | .ok draft =>
      match draft.toTable with
      | .error d => .error (.defect d)
      | .ok t => .ok t

/-- The table that a document describes which is given as a text: its UTF-8 bytes are read. -/
def Table.parseText (text : String) : Except LoadError Table :=
  Table.parse (Utf8.ofString text)

/-- The table in the file at `path`, whose contents are given, or the sentence that says why they
cannot be read. -/
def Table.load (path : String) : Except String (List UInt8) → Except LoadError Table
  | .error cause => .error (.unreadable path cause)
  | .ok bytes => Table.parse bytes

end EventLog.Schema
