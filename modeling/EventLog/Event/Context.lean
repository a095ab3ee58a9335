import EventLog.Calendar
import EventLog.Cursor
import EventLog.Notice

set_option autoImplicit false

/-! # Contexts

Every event says when, by whom and from where it was caused. A context of version 1, the only one,
has forty bytes: the time in seconds from the start of 1970, the user and the network address.
-/

namespace EventLog

/-- When, by whom and from where an event was caused. -/
structure Context where
  timestamp : Int64
  /-- The text of the timestamp as a calendar time. -/
  timestampText : String
  user : Uuid
  address : Address
  deriving DecidableEq

namespace Context

/-- The only version of contexts. -/
def version : UInt16 := 1

def size : Nat := 40

/-- Reads a context. A timestamp without calendar text is a fault before anything after it is
read. -/
def readFrom (c : Cursor) : Except Fault (Context × Cursor) := do
  let (n, afterTime) ← c.number .timestamp 8
  let timestamp := (UInt64.ofNat n).toInt64
  -- The range is checked before the user and the address are read.
  if !timestampSupported timestamp then throw (.invalidTimestamp timestamp c.position)
  let (user, afterUser) ← afterTime.uuid
  let (address, afterAddress) ← afterUser.address
  return ({ timestamp, timestampText := EventLog.timestampText timestamp, user, address },
    afterAddress)

def readVersion (version : UInt16) (c : Cursor) : Except Fault (Context × Cursor) :=
  if version = Context.version then readFrom c
  else .error (.unsupportedContextVersion version c.position)

/-- Reads a context of the given version at an offset of a payload that starts at position `base`
of the log. -/
def read (version : UInt16) (payload : List UInt8) (offset base : Nat) :
    Except Fault Context := do
  let c ← Cursor.at? payload offset base
  let (context, _) ← readVersion version c
  return context

/-- What is reported before a context of the given version is read. -/
def notices (version : UInt16) (c : Cursor) : List Notice :=
  if version = Context.version then [.context c.position] else []

end Context

end EventLog
