import EventLog.Archive.Entry
import EventLog.Archive.Sink
import EventLog.Archive.TarHeader
import EventLog.Event.Iterator

set_option autoImplicit false

/-! # Archives

`Archive.writeEvents` writes the events of a walk into a tar archive, one entry for each. It stops
at the first error, of the log or of the sink; the end of the archive is written in any case, as
far as the sink has room. A timestamp before 1970 is stored as zero.
-/

namespace EventLog

/-- An archive in the making: the sink and the number of complete entries. -/
structure Archive where
  sink : Sink
  written : Nat

/-- What writing gives: the result, the archive after it, and what was reported. -/
structure Archive.Outcome (α : Type) where
  result : Except LogError α
  archive : Archive
  notices : List Notice

namespace Archive

def start (sink : Sink) : Archive := { sink, written := 0 }

/-- The mode of an entry: all may read, the owner may write. -/
def entryMode : Nat := 0o644

def full : LogError := .io Sink.fullCause

def headerOf (index : Nat) (e : Event) : Tar.Header :=
  { name := Entry.name index e.eventType
    mode := entryMode
    size := (Entry.content e).length
    modified := e.context.timestamp.toInt.toNat }

/-- The pieces of the `index`th entry: header, contents and zeros. -/
def entryPieces (index : Nat) (e : Event) : List (List UInt8) :=
  let content := Entry.content e
  [(headerOf index e).bytes, content, Tar.zeros (Tar.fill content.length)]

def warnings (index : Nat) (e : Event) : List Notice :=
  if e.context.timestamp.toInt < 0 then
    [.beforeEpoch e.context.timestamp (Entry.name index e.eventType)]
  else []

/-- Writes an event; gives the name of its entry. -/
def write (a : Archive) (e : Event) : Outcome String :=
  let name := Entry.name a.written e.eventType
  match a.sink.writeAll (entryPieces a.written e) with
  | (sink, true) =>
      { result := .ok name
        archive := { sink, written := a.written + 1 }
        notices := warnings a.written e ++ [.appended name (Entry.content e).length] }
  | (sink, false) =>
      { result := .error full
        archive := { a with sink }
        notices := warnings a.written e }

def finish (a : Archive) : Outcome Unit :=
  match a.sink.write Tar.trailer with
  | (sink, true) => { result := .ok (), archive := { a with sink }, notices := [] }
  | (sink, false) => { result := .error full, archive := { a with sink }, notices := [] }

/-- Gives up after an error: the end of the archive is written all the same. -/
def abandon (a : Archive) (e : LogError) (notices : List Notice) : Outcome Nat :=
  { result := .error e, archive := a.finish.archive, notices }

/-- Ends an archive after the given notices; gives the number of its entries. -/
def complete (a : Archive) (notices : List Notice) : Outcome Nat :=
  match a.finish with
  | { result := .ok (), archive, notices := _ } =>
      { result := .ok archive.written
        archive
        notices := notices ++ [.archived archive.written] }
  | { result := .error e, archive, notices := _ } => { result := .error e, archive, notices }

/-- Writes the events that calls of an iterator gave; `before` are the notices before, the last
one first. -/
def writeCalls (a : Archive) (before : List Notice) :
    List (Step EventIterator LogError Event) → Outcome Nat
  | [] => a.complete before.reverse
  | call :: calls =>
      -- An error of the log and one of the sink both end the archive before the next call.
      match call.item with
      | none => a.complete (before.reverse ++ call.notices)
      | some (.error e) => a.abandon e (before.reverse ++ call.notices)
      | some (.ok event) =>
          match a.write event with
          | { result := .ok _, archive, notices } =>
              archive.writeCalls ((call.notices ++ notices).reverse ++ before) calls
          | { result := .error e, archive, notices } =>
              archive.abandon e (before.reverse ++ call.notices ++ notices)

/-- Writes the events of a walk into a sink; gives the number of entries. -/
def writeEvents (it : EventIterator) (sink : Sink) : Outcome Nat :=
  (start sink).writeCalls [] it.calls

end Archive

end EventLog
