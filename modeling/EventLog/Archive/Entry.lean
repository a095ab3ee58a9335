import EventLog.Event.Render

set_option autoImplicit false

/-! # Entries

An event is stored as an entry of an archive or of a directory tree: its name is made of its
number and its type, grouped by ten thousand, its contents are the indented document of the event,
and its date is the timestamp of the event.
-/

namespace EventLog.Entry

def perDirectory : Nat := 10000

def directory (index : Nat) : String := decimal 4 (index / perDirectory)

def baseName (index : Nat) (eventType : UInt32) : String :=
  decimal 8 index ++ ".e" ++ decimal 1 eventType.toNat

/-- The name of the `index`th entry, relative to the root. -/
def name (index : Nat) (eventType : UInt32) : String :=
  directory index ++ "/" ++ baseName index eventType

def content (e : Event) : List UInt8 := e.documentBytes true

end EventLog.Entry
