import EventLog.CommandLine.Run

set_option autoImplicit false

/-! # The program

Runs the command line in the workspace of the process. Logs are read whole, whatever size the
system gives for them. The date of a file stays that of the write, since the system gives no way
to set it from here.
-/

namespace EventLog.Process

/-- The sentence of the system for the number of an error, where it is known. -/
def knownSentence? (number : UInt32) : Option String :=
  [(2, "No such file or directory"), (13, "Permission denied"), (17, "File exists"),
    (19, "No such device"), (20, "Not a directory"), (21, "Is a directory"),
    (22, "Invalid argument"), (28, "No space left on device"),
    (36, "File name too long")].lookup number

/-- The sentence of the system with the number of its error, which some steps give negated. -/
def numberedMessage (sentence : String) (number : UInt32) : String :=
  let size := if number < 0x80000000 then number else 0 - number
  s!"{(knownSentence? size).getD sentence} (os error {size})"

def systemMessage : IO.Error → String
  | .noFileOrDirectory _ number sentence | .alreadyExists _ number sentence
  | .permissionDenied _ number sentence | .inappropriateType _ number sentence
  | .invalidArgument _ number sentence | .resourceExhausted _ number sentence
  | .otherError number sentence => numberedMessage sentence number
  | e => toString e

def attempt {α : Type} (x : IO α) : IO (Except String α) := do
  try return .ok (← x)
  catch e => return .error (systemMessage e)

def succeeds {α : Type} (x : IO α) : IO Bool := do
  match ← attempt x with
  | .ok _ => return true
  | .error _ => return false

/-- Whether a path names anything. To a stream there is no path from the root, but it can be
opened. -/
def pathExists (path : String) : IO Bool := do
  if Path.isTooLong path then return false
  else if ← succeeds (IO.FS.realPath path) then return true
  else succeeds (IO.FS.Handle.mk path .readWrite)

def isDirectory (path : String) : IO Bool := pathExists (path ++ "/.")

def sameFile (path other : String) : IO Bool := do
  match ← attempt (IO.FS.realPath path), ← attempt (IO.FS.realPath other) with
  | .ok path, .ok other => return path == other
  | _, _ => return false

def readFile (path : String) : IO (List UInt8) := do
  return (← IO.FS.readBinFile path).toList

/-- All bytes of a stream after those already read. -/
partial def readStream (stream : IO.FS.Stream) (before : ByteArray) : IO ByteArray := do
  let bytes ← stream.read 65536
  if bytes.isEmpty then return before else readStream stream (before ++ bytes)

/-- A path without slashes and dots that change nothing about what it leads to. -/
def shortened (path : String) : String :=
  let reversed := path.toList.reverse
  (if Path.isRooted path then "/" else "") ++ "/".intercalate (Path.parts path) ++
    if Path.trimEnd reversed == reversed then "" else "/."

/-- Why there is no path from the root to what a path names: opening it tells, unless it leads to
a stream. -/
def causeOfNoPath (path : String) : IO String := do
  let path := if Path.isTooLong path then shortened path else path
  match ← attempt (IO.FS.Handle.mk path .read) with
  | .error cause => return cause
  | .ok _ => return numberedMessage "No such file or directory" 2

/-- A log file, which is opened by its path from the root. -/
def readLog (path : String) : IO (Except FileFault OpenedFile) := do
  match ← attempt (IO.FS.realPath path) with
  | .error _ => return .error (.notOpened (← causeOfNoPath path))
  | .ok path =>
      if ← succeeds (IO.FS.realPath (path.toString ++ "/.")) then
        return .error (.notRead (numberedMessage "No such device" 19))
      match ← attempt (readFile path.toString) with
      | .ok bytes => return .ok { path := path.toString, bytes }
      | .error cause => return .error (.notOpened cause)

def readInput : IO (List UInt8 × Option String) := do
  match ← attempt (do readStream (← IO.getStdin) .empty) with
  | .ok bytes => return (bytes.toList, none)
  | .error cause => return ([], some cause)

/-- Makes a directory in an existing one, unless it is there. -/
def ensureDirectory (path : String) : IO Unit := do
  try IO.FS.createDir path
  catch e => if ← isDirectory path then return () else throw e

/-- Makes the directories that are missing along components, after those in `before`. -/
def ensureDirectories (before : String) : List String → IO Unit
  | [] => return ()
  | name :: rest => do
      ensureDirectory (before ++ name)
      ensureDirectories (before ++ name ++ "/") rest

/-- Makes a directory and those above it, as far as they are missing. -/
def makeDirectories (path : String) : IO Unit := do
  try ensureDirectory path
  catch
  | .noFileOrDirectory .. => do
      let before := if path.startsWith "/" then "/" else ""
      ensureDirectories before (Path.parts path).dropLast
      ensureDirectory path
  | e => throw e

def packed (bytes : List UInt8) : ByteArray := ⟨bytes.toArray⟩

instance : Workspace IO where
  isDirectory := isDirectory
  pathExists := pathExists
  sameFile := sameFile
  readFile path := attempt (readFile path)
  readLog := readLog
  readInput := readInput
  makeDirectories path := attempt (makeDirectories path)
  createFile path := attempt (IO.FS.writeBinFile path .empty)
  appendFile path bytes := attempt do
    IO.FS.withFile path .append fun file => do
      file.write (packed bytes)
      file.flush
  setModified _ _ := return .ok ()
  print bytes := attempt do
    let stream ← IO.getStdout
    stream.write (packed bytes)
    stream.flush
  report message := IO.eprintln message
  notice n := IO.eprintln s!"[{n.severity.name}] {n.message}"

end EventLog.Process

def main (arguments : List String) : IO UInt32 := EventLog.CommandLine.run arguments
