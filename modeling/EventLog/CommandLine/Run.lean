import EventLog.Archive.Tree
import EventLog.Archive.Writer
import EventLog.CommandLine.Arguments
import EventLog.CommandLine.Failure
import EventLog.Workspace.Basic

set_option autoImplicit false

/-! # Running the program

`CommandLine.run` prints the events of a log, or writes them to a file, an archive or a directory
tree, in a workspace. The steps have effects in this order: the arguments, the schema table, the
output file, which is made or emptied, and only then the log. What was written before an error
stays.
-/

namespace EventLog.CommandLine

variable {m : Type → Type} [Monad m] [Workspace m]

def versionLine : String := "Forum events dump 0.1.0\n"

def helpText : String :=
  "Utility to decode Fast Forum persisted event logs\n\n" ++
  "Usage: [OPTIONS] <INPUT>\n\n" ++
  "  <INPUT>                      path of the event log, or `-` for standard input\n" ++
  "  -o, --format <FORMAT>        json, jsonl or tar\n" ++
  "  -f, --output <PATH>          write to a file instead of standard output\n" ++
  "      --output-dir <PATH>      write every event to its own file under a directory\n" ++
  "      --no-confirm-overwrite   overwrite an existing output file\n" ++
  "      --schema <PATH>          decode with the schema table at the given path\n" ++
  "      --event-types <CODES>    only events of these types, separated by commas\n" ++
  "      --no-checksums           do not verify checksums\n" ++
  "      --strict-length          refuse bytes left over after the fields of an event\n" ++
  "      --no-indent              print each document on one line\n" ++
  "      --dont-show-record-number  do not print record numbers\n" ++
  "  -v                           report progress; up to three times for more\n" ++
  "  -h, --help                   print this text\n" ++
  "  -V, --version                print the version\n"

/-! ## What the arguments ask for -/

/-- Whether a path ends with `.tar`, in letters of either case. -/
def hasTarExtension (path : String) : Bool :=
  match Path.extension? path with
  | some ending => ending.toList.map Char.toLower == "tar".toList
  | none => false

/-- The form of the output: an output file that ends with `.tar` asks for an archive, unless a
format is given. -/
def outputFormat (a : Arguments) : OutputFormat :=
  match a.format with
  | some format => format
  | none => if a.output.any hasTarExtension then .tar else .json

def warnings (a : Arguments) : List String :=
  let lines := outputFormat a = .jsonLines
  (if a.noIndent ∧ lines then ["no need to pass both `--no-indent` and `-o jsonl`"] else []) ++
  (if a.hideRecordNumbers ∧ lines then
    ["no need to pass both `--dont-show-record-number` and `-o jsonl`"] else []) ++
  (if 3 < a.verbosity then ["using more than -vvv does not affect verbosity level"] else [])

/-- The least severity of the notices that are shown, if any are. -/
def shownSeverity? (a : Arguments) : Option Severity :=
  match a.verbosity with
  | 0 => none
  | 1 => some .info
  | 2 => some .debug
  | _ => some .trace

def indents (a : Arguments) : Bool := !a.noIndent && outputFormat a != .jsonLines

def showsNumbers (a : Arguments) : Bool := !a.hideRecordNumbers && outputFormat a != .jsonLines

def settings (a : Arguments) (table : Schema.Table) : Settings :=
  { validateChecksums := !a.noChecksums
    strictLength := a.strictLength
    indent := indents a
    table
    filter := (a.eventTypes.map Filter.ofList).getD .all }

/-! ## Effects -/

/-- A step whose failure is a cause behind the given message. -/
def under {α : Type} (message : String) (x : m (Except String α)) : ExceptT Failure m α :=
  ExceptT.mk do
    match ← x with
    | .ok a => return .ok a
    | .error cause => return .error { message, causes := [cause] }

def logStep {α : Type} (x : ExceptT LogError m α) : ExceptT Failure m α :=
  ExceptT.mk do
    match ← x.run with
    | .ok a => return .ok a
    | .error e => return .error (.ofLogError e)

def tell (a : Arguments) (notices : List Notice) : ExceptT Failure m Unit :=
  match shownSeverity? a with
  | none => return ()
  | some severity =>
      (Notice.atLeast severity notices).forM fun n => ExceptT.lift (Workspace.notice n)

def loadTable (a : Arguments) : ExceptT Failure m Schema.Table :=
  match a.schema with
  | none => return Schema.Forum.table
  | some path => do
      let contents ← ExceptT.lift (Workspace.readFile path)
      match Schema.Table.load path contents with
      | .ok table => return table
      | .error e => throw (.ofLoadError path e)

/-- Makes the directories above an output file, where the one right above it is missing. -/
def makeParent (message path : String) : ExceptT Failure m Unit :=
  match Path.parent? path with
  | none => throw { message, causes := ["Output file cannot be root."] }
  | some parent => do
      if parent ≠ "" then
        if !(← ExceptT.lift (Workspace.pathExists parent)) then
          under message (Workspace.makeDirectories parent)

/-- Makes or empties the output file, after the directories above it. A directory in its place is
refused, and so is an existing file that must not be overwritten: nobody can be asked. -/
def createOutput (path : String) (overwrite : Bool) : ExceptT Failure m Unit := do
  let message := "An error occurred while creating output file at `" ++ path ++ "`"
  if ← ExceptT.lift (Workspace.isDirectory path) then
    throw { message, causes := [s!"There is a directory at {path}, refusing to overwrite"] }
  if !overwrite then
    if ← ExceptT.lift (Workspace.pathExists path) then
      throw
        { message
          causes := ["Failed to write confirmation prompt to term caused by\n" ++
            "IO error: not a terminal"] }
  makeParent message path
  under message (Workspace.createFile path)

/-- The source of the log that a path names; a hyphen names standard input. -/
def source (input : String) : m Source := do
  if input = "-" then
    let (bytes, failure) ← Workspace.readInput
    return .stream bytes failure
  else return .file input (← Workspace.readLog input)

def openLog (a : Arguments) (input : String) : ExceptT Failure m Log := do
  let source ← ExceptT.lift (source input)
  match Log.fromSource source with
  | .ok log => do
      tell a source.notices
      return log
  | .error e =>
      let failure := Failure.ofLogError e
      if input = "-" then
        throw
          { message := "Failed to read log from stdin"
            causes := failure.message :: failure.causes }
      else throw failure

/-- Writes bytes to the output file, or to standard output if there is none. -/
def put (a : Arguments) (bytes : List UInt8) : m (Except String Unit) :=
  match a.output with
  | some path => Workspace.appendFile path bytes
  | none => Workspace.print bytes

/-- How many bytes of output gather before they are written. -/
def bufferSize : Nat := 8192

/-! ## Output -/

def printed (showNumber : Bool) (r : Rendered String) : String :=
  (if showNumber then s!"Record {r.index}\n" else "") ++ r.data ++ "\n"

/-- What is printed for the items of a walk, up to the first error, and that error. -/
def printedItems (showNumber : Bool) :
    List (Except LogError (Rendered String)) → List UInt8 × Option LogError
  | [] => ([], none)
  | .error e :: _ => ([], some e)
  | .ok r :: items =>
      let (bytes, e) := printedItems showNumber items
      (Utf8.ofString (printed showNumber r) ++ bytes, e)

def printEvents (a : Arguments) (log : Log) : ExceptT Failure m Unit := do
  tell a (log.events.calls.flatMap Step.notices)
  let (bytes, e) := printedItems (showsNumbers a) (log.events.renderedItems log.document)
  match ← ExceptT.lift (put a bytes), e with
  | .ok (), none => return ()
  | .ok (), some e => throw (.ofLogError e)
  | .error cause, none => throw { message := cause, causes := [] }
  | .error cause, some e =>
      -- What still gathered when the log failed is written last, and nobody looks whether it was.
      if bytes.length ≤ bufferSize then throw (.ofLogError e)
      else throw { message := cause, causes := [] }

def archiveEvents (a : Arguments) (log : Log) : ExceptT Failure m Unit := do
  let outcome := Archive.writeEvents log.events (.empty none)
  let bytes := outcome.archive.sink.taken.toList
  -- Only after the last bytes are written is the archive known to be complete.
  let complete := Notice.archived outcome.archive.written
  tell a (outcome.notices.filter (· ≠ complete))
  match ← ExceptT.lift (put a bytes), outcome.result with
  | .ok (), .ok n => do
      tell a [complete]
      ExceptT.lift (Workspace.report s!"Wrote {n} events to archive")
  | .ok (), .error e => throw (.ofLogError e)
  | .error cause, .ok _ => throw (.ofLogError (.io cause))
  | .error cause, .error e =>
      -- The end of the archive is written after the log failed.
      if bytes.length ≤ bufferSize + Tar.trailer.length then throw (.ofLogError e)
      else throw (.ofLogError (.io cause))

/-- Writes an event to a directory tree; gives the path of its entry and the tree after it. -/
def storeEvent (a : Arguments) (t : EntryTree) (e : Event) :
    ExceptT Failure m (String × EntryTree) := do
  let (name, t) ← logStep (t.write e)
  let path := Path.join t.root name
  tell a [.stored path]
  return (path, t)

/-- Writes the events that calls of an iterator gave to a directory tree; gives the number of
entries. -/
def storeCalls (a : Arguments) (t : EntryTree) :
    List (Step EventIterator LogError Event) → ExceptT Failure m Nat
  | [] => return t.written
  | call :: calls => do
      tell a call.notices
      match call.item with
      | none => return t.written
      | some (.error e) => throw (.ofLogError e)
      | some (.ok event) => do
          let (_, t) ← storeEvent a t event
          storeCalls a t calls

/-- Writes the events of a log file to a directory tree, of which calls of an iterator gave those
before the file changes; gives the number of entries. The file is read as the walk goes on, so that
an entry which takes its place changes what follows. Only one entry can, since their names
differ. -/
def storeCallsOf (a : Arguments) (file : String) (t : EntryTree) :
    List (Step EventIterator LogError Event) → ExceptT Failure m Nat
  | [] => return t.written
  | call :: calls => do
      tell a call.notices
      match call.item with
      | none => return t.written
      | some (.error e) => throw (.ofLogError e)
      | some (.ok event) => do
          let (path, t) ← storeEvent a t event
          if ← ExceptT.lift (Workspace.sameFile file path) then
            let scanner := call.state.scanner.overwritten (Entry.content event)
            storeCalls a t (call.state.withScanner scanner).calls
          else storeCallsOf a file t calls

def storeEvents (a : Arguments) (input : String) (log : Log) (root : String) :
    ExceptT Failure m Unit := do
  let t ← logStep (EntryTree.start root)
  let calls := log.events.calls
  -- Standard input is no file, whatever a file of that name holds.
  let n ← if input = "-" then storeCalls a t calls else storeCallsOf a input t calls
  tell a [.storedAll n root]
  ExceptT.lift (Workspace.report s!"Wrote {n} events to {root}")

/-- The steps before the output: loads the schema table, makes the output file and opens the log
under the settings asked for. -/
def prepare (a : Arguments) (input : String) : ExceptT Failure m Log := do
  let table ← loadTable a
  if outputFormat a = .tar ∧ a.outputDir.isSome then
    throw { message := "`-o tar` cannot be combined with `--output-dir`", causes := [] }
  -- The output file is made or emptied even if the log then cannot be opened.
  match a.output with
  | some path => createOutput path a.overwrite
  | none => pure ()
  let log ← openLog a input
  return log.withSettings (settings a table)

def execute (a : Arguments) (input : String) : ExceptT Failure m Unit := do
  let log ← prepare a input
  match a.outputDir with
  | some root => storeEvents a input log root
  | none => if outputFormat a = .tar then archiveEvents a log else printEvents a log

/-- Runs the program with the given arguments; gives its exit code. -/
def run (arguments : List String) : m UInt32 := do
  match Arguments.parse arguments with
  | .error .help => do
      let _ ← Workspace.print (Utf8.ofString helpText)
      return 0
  | .error .version => do
      let _ ← Workspace.print (Utf8.ofString versionLine)
      return 0
  | .error (.mistake explanation) => do
      Workspace.report ("error: " ++ explanation)
      return 2
  | .ok (a, input) => do
      (warnings a).forM Workspace.report
      match ← (execute a input).run with
      | .ok () => return 0
      | .error failure => do
          Workspace.report failure.text
          return 1

end EventLog.CommandLine
