import EventLog.Archive.Entry
import EventLog.Workspace.Basic
import EventLog.Workspace.Path

set_option autoImplicit false

/-! # Directory trees

`EntryTree.writeEvents` writes the events of a walk as files below a root directory, one entry for
each. It stops at the first error, of the log or of the file system, and leaves the files written
before. The date of a file is the timestamp of its event, also when it lies before 1970.
-/

namespace EventLog

/-- A directory tree in the making: its root and the number of complete entries. -/
structure EntryTree where
  root : String
  written : Nat
  deriving DecidableEq

namespace EntryTree

open Workspace (attempt)

variable {m : Type → Type} [Monad m] [Workspace m]

/-- A tree without entries; makes its root if it is missing. -/
def start (root : String) : ExceptT LogError m EntryTree := do
  attempt (Workspace.makeDirectories root)
  return { root, written := 0 }

/-- Writes an event; gives the name of its entry and the tree after it. -/
def write (t : EntryTree) (e : Event) : ExceptT LogError m (String × EntryTree) := do
  let name := Entry.name t.written e.eventType
  let path := Path.join t.root name
  attempt (Workspace.makeDirectories (Path.join t.root (Entry.directory t.written)))
  attempt (Workspace.createFile path)
  attempt (Workspace.appendFile path (Entry.content e))
  attempt (Workspace.setModified path e.context.timestamp)
  return (name, { t with written := t.written + 1 })

/-- Writes items up to the first error; gives the number of entries. -/
def writeItems (t : EntryTree) : List (Except LogError Event) → ExceptT LogError m Nat
  | [] => return t.written
  | .error e :: _ => throw e
  | .ok event :: items => do
      let (_, t) ← t.write event
      t.writeItems items

/-- Writes the events of a walk below a root; gives the number of entries. -/
def writeEvents (it : EventIterator) (root : String) : ExceptT LogError m Nat := do
  let t ← start root
  t.writeItems it.items

end EntryTree

end EventLog
