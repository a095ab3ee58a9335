import EventLog.Event.Iterator
import EventLog.Event.Render
import EventLog.Schema.Forum

set_option autoImplicit false

/-! # Logs

A `Log` is the contents of a log file with the settings under which it is read. It is opened from
a `Source`; its records and events are walked over from the start.
-/

namespace EventLog

/-- How a log is read. -/
structure Settings where
  /-- Whether stored checksums other than zero are checked. -/
  validateChecksums : Bool := true
  /-- Whether bytes left over after the fields of an event are refused. -/
  strictLength : Bool := false
  /-- Whether documents are indented. -/
  indent : Bool := true
  table : Schema.Table := Schema.Forum.table
  filter : Filter := .all

/-- Why the contents of a file cannot be had: the file cannot be opened, or an open file cannot be
read. Each has the sentence of the system. -/
inductive FileFault where
  | notOpened (cause : String)
  | notRead (cause : String)
  deriving DecidableEq, Repr

/-- A file that was opened and read: the path from the root to it, and its contents. -/
structure OpenedFile where
  path : String
  bytes : List UInt8
  deriving DecidableEq

/-- Where the contents of a log come from. -/
inductive Source where
  /-- Bytes in memory. -/
  | memory (bytes : List UInt8)
  /-- A stream, and the sentence about its failure if it fails after these bytes. -/
  | stream (bytes : List UInt8) (failure : Option String)
  /-- The file at a path. -/
  | file (path : String) (contents : Except FileFault OpenedFile)

/-- A log and the settings under which it is read. -/
structure Log where
  data : List UInt8
  settings : Settings

namespace Source

def contents : Source → Except LogError (List UInt8)
  | memory bytes => .ok bytes
  | stream bytes none => .ok bytes
  | stream _ (some cause) => .error (.io cause)
  | file _ (.ok opened) => .ok opened.bytes
  | file path (.error (.notOpened cause)) => .error (.openFailed path cause)
  | file _ (.error (.notRead cause)) => .error (.io cause)

def notices : Source → List Notice
  | memory bytes => [.buffered bytes.length]
  | stream bytes none => [.streamed bytes.length, .buffered bytes.length]
  | stream _ (some _) => []
  | file _ (.ok opened) => [.opened opened.path opened.bytes.length]
  | file _ (.error _) => []

end Source

namespace Log

def fromSource (source : Source) : Except LogError Log := do
  let data ← source.contents
  return { data, settings := {} }

def ofBytes (data : List UInt8) : Log := { data, settings := {} }

def withSettings (log : Log) (settings : Settings) : Log := { log with settings }

def records (log : Log) : Scanner := .start log.data log.settings.validateChecksums

def events (log : Log) : EventIterator :=
  { scanner := log.records
    decoder := { table := log.settings.table, strict := log.settings.strictLength }
    filter := log.settings.filter
    records := 0
    emitted := 0
    finished := false }

/-- The text of an event's document under the settings of the log. -/
def document (log : Log) (e : Event) : String := e.document log.settings.indent

end Log

end EventLog
