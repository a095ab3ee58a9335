import EventLog.Log

set_option autoImplicit false

/-! # Workspaces

What the program needs of its surroundings: files and directories, standard input and output, and
a place for messages. A failure is reported by the sentence of the system.
-/

namespace EventLog

/-- The surroundings in which the program runs. -/
class Workspace (m : Type → Type) where
  /-- Whether a path names a directory. -/
  isDirectory : String → m Bool
  /-- Whether a path names anything. -/
  pathExists : String → m Bool
  /-- Whether two paths name the same file. -/
  sameFile : String → String → m Bool
  /-- The contents of a file. -/
  readFile : String → m (Except String (List UInt8))
  /-- The log file at a path. -/
  readLog : String → m (Except FileFault OpenedFile)
  /-- What standard input gives, and the failure that ends it if there is one. -/
  readInput : m (List UInt8 × Option String)
  /-- Makes a directory and those above it, as far as they are missing. -/
  makeDirectories : String → m (Except String Unit)
  /-- Makes an empty file, or empties the one there is. -/
  createFile : String → m (Except String Unit)
  /-- Adds bytes at the end of a file. -/
  appendFile : String → List UInt8 → m (Except String Unit)
  /-- Sets the time of a file's last modification, in seconds from the start of 1970. -/
  setModified : String → Int64 → m (Except String Unit)
  /-- Writes bytes to standard output. -/
  print : List UInt8 → m (Except String Unit)
  /-- Writes a message of one or more lines for the user. -/
  report : String → m Unit
  /-- Writes a notice for the user, among the messages. -/
  notice : Notice → m Unit

namespace Workspace

/-- A step in a workspace whose failure is an error of the log's input or output. -/
def attempt {m : Type → Type} [Monad m] {α : Type} (x : m (Except String α)) :
    ExceptT LogError m α :=
  ExceptT.mk do
    match ← x with
    | .ok a => return .ok a
    | .error cause => return .error (.io cause)

end Workspace

end EventLog
