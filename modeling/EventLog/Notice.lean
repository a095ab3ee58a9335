import EventLog.Fault

set_option autoImplicit false

/-! # Notices

What the library reports while it works, for a reader who follows along: each `Notice` has a
severity and a text of one line, or of more where a path in it holds line ends. Notices have no
influence on results.
-/

namespace EventLog

/-- How much a notice matters, the least first. -/
inductive Severity where
  | trace
  | debug
  | info
  | warn
  deriving DecidableEq, Repr

namespace Severity

def rank : Severity → Nat
  | trace => 0
  | debug => 1
  | info => 2
  | warn => 3

def name : Severity → String
  | trace => "TRACE"
  | debug => "DEBUG"
  | info => "INFO"
  | warn => "WARN"

end Severity

/-- Something the library reports. -/
inductive Notice where
  /-- A log of `size` bytes is held in memory. -/
  | buffered (size : Nat)
  /-- The log of `size` bytes in the file at a path was opened. -/
  | opened (path : String) (size : Nat)
  /-- A stream of `size` bytes was read. -/
  | streamed (size : Nat)
  /-- The `index`th record has a complete payload. -/
  | record (offset index length : Nat) (checksum : UInt32)
  /-- The scan reached the end of the log. -/
  | endOfLog (records size : Nat)
  /-- The record at `offset` ends a batch. -/
  | sentinel (offset : Nat)
  /-- A context is about to be read. -/
  | context (offset : Nat)
  /-- The fields of an event are about to be read. -/
  | fields (offset count : Nat) (key : EventKey)
  /-- A field is about to be read. -/
  | field (offset : Nat) (layout : Layout)
  /-- All records were decoded. -/
  | decoded (events records : Nat)
  /-- An entry has a timestamp before 1970. -/
  | beforeEpoch (timestamp : Int64) (name : String)
  /-- An entry of an archive was written. -/
  | appended (name : String) (size : Nat)
  /-- An archive was written. -/
  | archived (events : Nat)
  /-- An entry of a directory tree was written to the file at a path. -/
  | stored (path : String)
  /-- A directory tree was written below a root. -/
  | storedAll (events : Nat) (root : String)
  deriving DecidableEq, Repr

namespace Notice

def severity : Notice → Severity
  | context .. | fields .. | field .. => .trace
  | buffered _ | record .. | sentinel _ | appended .. | stored _ => .debug
  | opened .. | streamed _ | endOfLog .. | decoded .. | archived _ | storedAll .. => .info
  | beforeEpoch .. => .warn

def place (offset : Nat) : String := "Offset `0x" ++ hexadecimal 8 offset ++ s!" ({offset})`"

def message : Notice → String
  | buffered size => s!"Using in-memory log of {size} bytes"
  | opened path size => s!"Opened {path} ({size} bytes)"
  | streamed size => s!"Read {size} bytes from stream"
  | record offset index length checksum =>
      place offset ++ s!" record #{index}: length {length}, checksum " ++
        Fault.checksumText checksum
  | endOfLog records size => s!"Reached end of log after {records} records ({size} bytes)"
  | sentinel offset => place offset ++ " skipping sentinel record"
  | context offset => place offset ++ " reading context v1"
  | fields offset count key => place offset ++ s!" reading {count} fields of " ++ key.text
  | field offset layout => place offset ++ " reading " ++ layout.kindName
  | decoded events records => s!"Decoded {events} events from {records} records"
  | beforeEpoch timestamp name =>
      s!"Timestamp {timestamp.toInt} of {name} predates the epoch, " ++
        "storing 0 as its modification time"
  | appended name size => s!"Appended {name} ({size} bytes)"
  | archived events => s!"Wrote {events} events to archive"
  | stored path => "Wrote " ++ path
  | storedAll events root => s!"Wrote {events} events under {root}"

def line (n : Notice) : String := n.severity.name ++ " " ++ n.message

def atLeast (s : Severity) (notices : List Notice) : List Notice :=
  notices.filter fun n => s.rank ≤ n.severity.rank

end Notice

end EventLog
