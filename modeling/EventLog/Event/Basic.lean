import EventLog.Event.Context
import EventLog.Event.Header
import EventLog.Event.Payload
import EventLog.Record.Frame

set_option autoImplicit false

/-! # Events

`Decoder.decode` makes an event of a record: it reads the header, the context and the fields of
the payload. A record that ends a batch gives no event. A strict decoder refuses bytes that are
left over after the last field.
-/

namespace EventLog

/-- A decoded event. -/
structure Event where
  eventType : UInt32
  /-- The display name of the event type. -/
  typeName : String
  version : UInt16
  contextVersion : UInt16
  context : Context
  data : Fields
  /-- The position of the event's record in the log. -/
  offset : Nat
  deriving DecidableEq

/-- How records are decoded: the schema table, and whether the fields have to fill the payload. -/
structure Decoder where
  table : Schema.Table
  strict : Bool

namespace Decoder

/-- Refuses the bytes that a cursor stands before, if there are any. -/
def atEnd (c : Cursor) : Except Fault Unit :=
  if c.rest.isEmpty then .ok () else .error (.trailingBytes c.rest.length c.position)

/-- Decodes what follows the header of a record. -/
def decodeBody (d : Decoder) (header : RecordHeader) (offset : Nat) (c : Cursor) :
    Except Fault Event := do
  let (context, c) ← Context.readVersion header.contextVersion c
  let (data, c) ← Payload.readFrom d.table header.key c
  -- Bytes that are left over matter only when every field was read.
  if d.strict then atEnd c
  return {
    eventType := header.eventType
    typeName := d.table.typeName header.eventType
    version := header.eventVersion
    contextVersion := header.contextVersion
    context
    data
    offset }

/-- The event of a record, if it carries one. -/
def decode (d : Decoder) (r : Record) : Except Fault (Option Event) := do
  let (header, c) ← RecordHeader.readFrom ⟨r.payloadOffset, r.payload⟩
  if header.isSentinel then return none
  let event ← d.decodeBody header r.offset c
  return some event

/-! ## Notices -/

/-- What is reported while the part of a record after its header is decoded. -/
def bodyNotices (d : Decoder) (header : RecordHeader) (c : Cursor) : List Notice :=
  Context.notices header.contextVersion c ++
    match Context.readVersion header.contextVersion c with
    | .ok (_, next) => Payload.notices d.table header.key next
    | .error _ => []

def notices (d : Decoder) (r : Record) : List Notice :=
  match RecordHeader.readFrom ⟨r.payloadOffset, r.payload⟩ with
  | .error _ => []
  | .ok (header, c) =>
      if header.isSentinel then [.sentinel r.offset] else d.bodyNotices header c

end Decoder

end EventLog
