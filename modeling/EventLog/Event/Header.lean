import EventLog.Cursor

set_option autoImplicit false

/-! # Record headers

The payload of every record starts with eight bytes: the event type in four, the version of the
event and the version of its context in two each. A record of type zero ends a batch of writes and
carries no event.
-/

namespace EventLog

/-- The start of a record's payload. -/
structure RecordHeader where
  eventType : UInt32
  eventVersion : UInt16
  contextVersion : UInt16
  deriving DecidableEq, Repr

namespace RecordHeader

def size : Nat := 8

/-- Whether the record ends a batch. -/
def isSentinel (h : RecordHeader) : Bool := h.eventType == 0

/-- The key under which the fields of the event are declared. -/
def key (h : RecordHeader) : EventKey := ⟨h.eventType, h.eventVersion⟩

def readFrom (c : Cursor) : Except Fault (RecordHeader × Cursor) := do
  let (eventType, c) ← c.number .eventType 4
  let (eventVersion, c) ← c.number .eventVersion 2
  let (contextVersion, c) ← c.number .contextVersion 2
  return (⟨UInt32.ofNat eventType, UInt16.ofNat eventVersion, UInt16.ofNat contextVersion⟩, c)

/-- Reads the header of a payload that starts at position `base` of the log. -/
def read (payload : List UInt8) (base : Nat) : Except Fault RecordHeader := do
  let (header, _) ← readFrom ⟨base, payload⟩
  return header

end RecordHeader

end EventLog
