import EventLog.Workspace.Basic
import EventLog.Workspace.FileTree

set_option autoImplicit false

/-! # A workspace as a value

A `World` is a file system with the standard streams, and a computation that changes a world is a
workspace. Where a path leads to a stream or a device, bytes are read from it or written to it in
place of a file.
-/

namespace EventLog

/-- What stands among the messages: bytes, or a notice on lines of its own. -/
inductive Message where
  | text (bytes : List UInt8)
  | notice (notice : Notice)

/-- A file system and the standard streams. -/
structure World where
  files : FileTree
  input : List UInt8 := []
  output : List UInt8 := []
  messages : Array Message := #[]

namespace World

def modifyFiles (f : FileTree → Except SystemFault FileTree) : StateM World (Except String Unit) :=
  fun w =>
    match f w.files with
    | .ok files => (.ok (), { w with files })
    | .error fault => (.error fault.message, w)

/-- The contents of a file, or of standard input if the path leads there; it can be read once. -/
def readFile (path : String) : StateM World (Except String (List UInt8)) := fun w =>
  match w.files.find path with
  | .ok (.stream .input) => (.ok w.input, { w with input := [] })
  | _ => ((w.files.read path).mapError SystemFault.message, w)

def print (bytes : List UInt8) : StateM World (Except String Unit) := fun w =>
  (.ok (), { w with output := w.output ++ bytes })

def addMessage (message : Message) : StateM World Unit :=
  modify fun w => { w with messages := w.messages.push message }

def report (message : String) : StateM World Unit :=
  addMessage (.text (Utf8.ofString (message ++ "\n")))

/-- Adds bytes at the end of a file, or writes them where the path leads to. -/
def appendFile (path : String) (bytes : List UInt8) : StateM World (Except String Unit) := fun w =>
  match w.files.find path with
  | .ok (.device .full) =>
      (if bytes.isEmpty then .ok () else .error SystemFault.noRoom.message, w)
  | .ok (.stream .output) => print bytes w
  -- Nothing ends the last line of such bytes before the message that comes next.
  | .ok (.stream .messages) => (addMessage (.text bytes)).map .ok w
  | _ =>
      modifyFiles (fun t => t.change path fun content modified => (content ++ bytes, modified)) w

instance : Workspace (StateM World) where
  isDirectory path := fun w => (w.files.isDirectory path, w)
  pathExists path := fun w => (w.files.pathExists path, w)
  sameFile path other := fun w => (w.files.sameFile path other, w)
  readFile := readFile
  readLog path := fun w => (w.files.readLog path, w)
  readInput := fun w => ((w.input, none), { w with input := [] })
  makeDirectories path := modifyFiles fun t => t.makeDirectories path
  createFile path := modifyFiles fun t => t.create path
  appendFile := appendFile
  setModified path seconds := modifyFiles fun t =>
    t.change path fun content _ => (content, some seconds)
  print := print
  report := report
  notice n := addMessage (.notice n)

end World

end EventLog
