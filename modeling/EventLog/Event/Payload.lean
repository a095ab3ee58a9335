import EventLog.Cursor
import EventLog.Notice
import EventLog.Schema.Table

set_option autoImplicit false

/-! # Event payloads

The fields of an event follow its context, in the order in which the schema table declares them
for its type and version, without anything between them.
-/

namespace EventLog.Payload

def readFields (before : Fields) : List FieldSpec → Cursor → Except Fault (Fields × Cursor)
  | [], c => .ok (before, c)
  | spec :: specs, c => do
      let (value, c) ← c.field spec.layout
      readFields (before.insert spec.key value) specs c

def readFrom (table : Schema.Table) (key : EventKey) (c : Cursor) :
    Except Fault (Fields × Cursor) :=
  match table.get? key with
  | none => .error (.unknownSchema key c.position)
  | some specs => readFields .empty specs c

/-- Reads the fields declared for a key at an offset of a payload that starts at position `base`
of the log; gives the fields and the number of bytes they took. -/
def read (table : Schema.Table) (key : EventKey) (payload : List UInt8) (offset base : Nat) :
    Except Fault (Fields × Nat) := do
  let c ← Cursor.at? payload offset base
  let (fields, next) ← readFrom table key c
  return (fields, next.position - c.position)

/-! ## Notices -/

/-- What is reported while fields are read, up to the first fault. -/
def fieldNotices : List FieldSpec → Cursor → List Notice
  | [], _ => []
  | spec :: specs, c =>
      .field c.position spec.layout ::
        match c.field spec.layout with
        | .ok (_, next) => fieldNotices specs next
        | .error _ => []

/-- What is reported while the fields declared for a key are read. -/
def notices (table : Schema.Table) (key : EventKey) (c : Cursor) : List Notice :=
  match table.get? key with
  | none => []
  | some specs => .fields c.position specs.length key :: fieldNotices specs c

end EventLog.Payload
