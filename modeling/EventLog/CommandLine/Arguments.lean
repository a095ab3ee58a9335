import EventLog.Workspace.Path

set_option autoImplicit false

/-! # Command line arguments

`Arguments.parse` reads the arguments of the program from left to right. An option has a long name
after two hyphens, some also a letter after one; its value follows after an equals sign, after the
letter itself, or as the next argument, which then must not begin with a hyphen. Letters of
switches can be joined. Only `-v` may be given more than once. After two hyphens alone, everything
is the path of the log.

The first mistake ends the reading, and so does a request for help or for the version. What only
all arguments together show comes last: a missing path, and two places for the output.
-/

namespace EventLog

/-- The form of the output. -/
inductive OutputFormat where
  | json
  | jsonLines
  | tar
  deriving DecidableEq, Repr

def OutputFormat.ofName? (name : String) : Option OutputFormat :=
  if name = "json" then some json
  else if name = "jsonl" then some jsonLines
  else if name = "tar" then some tar
  else none

/-- The arguments of the program. -/
structure Arguments where
  input : Option String := none
  format : Option OutputFormat := none
  output : Option String := none
  outputDir : Option String := none
  schema : Option String := none
  eventTypes : Option (List UInt32) := none
  overwrite : Bool := false
  noChecksums : Bool := false
  strictLength : Bool := false
  noIndent : Bool := false
  hideRecordNumbers : Bool := false
  verbosity : Nat := 0
  deriving DecidableEq, Repr

/-- Why the arguments do not start a run. -/
inductive ArgumentsEnd where
  | help
  | version
  | mistake (explanation : String)
  deriving DecidableEq, Repr

/-- An option that takes a value. -/
inductive ValueOption where
  | format
  | output
  | outputDir
  | schema
  | eventTypes
  deriving DecidableEq, Repr

/-- An option without value. -/
inductive Switch where
  | overwrite
  | noChecksums
  | strictLength
  | noIndent
  | hideRecordNumbers
  | verbose
  | help
  | version
  deriving DecidableEq, Repr

namespace Arguments

def longOption? (name : String) : Option (ValueOption ⊕ Switch) :=
  if name = "format" then some (.inl .format)
  else if name = "output" then some (.inl .output)
  else if name = "output-dir" then some (.inl .outputDir)
  else if name = "schema" then some (.inl .schema)
  else if name = "event-types" then some (.inl .eventTypes)
  else if name = "no-confirm-overwrite" then some (.inr .overwrite)
  else if name = "no-checksums" then some (.inr .noChecksums)
  else if name = "strict-length" then some (.inr .strictLength)
  else if name = "no-indent" then some (.inr .noIndent)
  else if name = "dont-show-record-number" then some (.inr .hideRecordNumbers)
  else if name = "help" then some (.inr .help)
  else if name = "version" then some (.inr .version)
  else none

def shortOption? (letter : Char) : Option (ValueOption ⊕ Switch) :=
  if letter = 'o' then some (.inl .format)
  else if letter = 'f' then some (.inl .output)
  else if letter = 'v' then some (.inr .verbose)
  else if letter = 'h' then some (.inr .help)
  else if letter = 'V' then some (.inr .version)
  else none

/-! ## Values -/

/-- The number of decimal digits, of which one at least has to be there. -/
def decimalNumber? (digits : List Char) : Option Nat :=
  if digits.isEmpty ∨ ¬ digits.all Char.isDigit then none
  else some (Nat.ofDigitChars 10 digits 0)

/-- An event type: a decimal number of 32 bits, perhaps after a sign. -/
def eventType? (text : List Char) : Option UInt32 := do
  let n ← match text with
    | '+' :: digits => decimalNumber? digits
    | '-' :: digits => (decimalNumber? digits).filter (· == 0)
    | digits => decimalNumber? digits
  if n < UInt32.size then some (UInt32.ofNat n) else none

def eventTypes? (text : String) : Option (List UInt32) :=
  (text.toList.splitOn ',').mapM eventType?

/-- An option that must not be given twice. -/
def once {α : Type} (given : Option α) (value : Option α) (name : String) :
    Except ArgumentsEnd (Option α) :=
  match value, given with
  | none, _ => .error (.mistake s!"invalid value for {name}")
  | some _, some _ => .error (.mistake s!"{name} cannot be used multiple times")
  | some x, none => .ok (some x)

def path? (text : String) : Option String := if text = "" then none else some text

def setValue (a : Arguments) (option : ValueOption) (value : String) :
    Except ArgumentsEnd Arguments :=
  match option with
  | .format => do
      let format ← once a.format (OutputFormat.ofName? value) "--format"
      return { a with format }
  | .output => do
      let output ← once a.output (path? value) "--output"
      return { a with output }
  | .outputDir => do
      let outputDir ← once a.outputDir (path? value) "--output-dir"
      return { a with outputDir }
  | .schema => do
      let schema ← once a.schema (path? value) "--schema"
      return { a with schema }
  | .eventTypes => do
      let eventTypes ← once a.eventTypes (eventTypes? value) "--event-types"
      return { a with eventTypes }

def switchOnce (given : Bool) (name : String) : Except ArgumentsEnd Bool :=
  if given then .error (.mistake s!"{name} cannot be used multiple times") else .ok true

def setSwitch (a : Arguments) (switch : Switch) : Except ArgumentsEnd Arguments :=
  match switch with
  | .overwrite => do
      let overwrite ← switchOnce a.overwrite "--no-confirm-overwrite"
      return { a with overwrite }
  | .noChecksums => do
      let noChecksums ← switchOnce a.noChecksums "--no-checksums"
      return { a with noChecksums }
  | .strictLength => do
      let strictLength ← switchOnce a.strictLength "--strict-length"
      return { a with strictLength }
  | .noIndent => do
      let noIndent ← switchOnce a.noIndent "--no-indent"
      return { a with noIndent }
  | .hideRecordNumbers => do
      let hideRecordNumbers ← switchOnce a.hideRecordNumbers "--dont-show-record-number"
      return { a with hideRecordNumbers }
  | .verbose => .ok { a with verbosity := a.verbosity + 1 }
  | .help => .error .help
  | .version => .error .version

/-! ## Reading -/

def setInput (a : Arguments) (path : String) : Except ArgumentsEnd Arguments :=
  match a.input with
  | some _ => .error (.mistake s!"unexpected argument {path}")
  | none => .ok { a with input := some path }

/-- What an argument leaves to be done: nothing, or the value of an option is to follow. -/
abbrev Pending := Arguments × Option ValueOption

def takeLetters (a : Arguments) : List Char → Except ArgumentsEnd Pending
  | [] => .ok (a, none)
  | letter :: letters =>
      match shortOption? letter with
      | none => .error (.mistake s!"unexpected option -{letter}")
      | some (.inr switch) => do takeLetters (← a.setSwitch switch) letters
      | some (.inl option) =>
          -- What follows the letter is its value, perhaps after an equals sign.
          match letters with
          | [] => .ok (a, some option)
          | '=' :: value => do return (← a.setValue option (String.ofList value), none)
          | value => do return (← a.setValue option (String.ofList value), none)

/-- Takes a long option: its name, and its value if one is attached. -/
def takeLong (a : Arguments) (name : String) (attached : Option String) :
    Except ArgumentsEnd Pending :=
  match longOption? name, attached with
  | none, _ => .error (.mistake s!"unexpected option --{name}")
  | some (.inl option), none => .ok (a, some option)
  | some (.inl option), some value => do return (← a.setValue option value, none)
  | some (.inr switch), none => do return (← a.setSwitch switch, none)
  | some (.inr _), some _ => .error (.mistake s!"--{name} takes no value")

/-- The name of a long option, and what follows an equals sign. -/
def splitLong (text : List Char) : String × Option String :=
  let name := text.takeWhile (· != '=')
  let rest := text.dropWhile (· != '=')
  (String.ofList name, if rest.isEmpty then none else some (String.ofList (rest.drop 1)))

/-- Takes an argument that is not the value of an option before it. -/
def takeArgument (a : Arguments) (argument : String) : Except ArgumentsEnd Pending :=
  match argument.toList with
  | '-' :: '-' :: long => do
      let (name, attached) := splitLong long
      a.takeLong name attached
  | ['-'] => do return (← a.setInput argument, none)
  | '-' :: letters => a.takeLetters letters
  | _ => do return (← a.setInput argument, none)

/-- Whether an argument can be the value of the option before it. -/
def isValue (argument : String) : Bool :=
  argument.toList.head? != some '-' || argument == "-"

def takePaths (a : Arguments) : List String → Except ArgumentsEnd Arguments
  | [] => .ok a
  | path :: paths => do takePaths (← a.setInput path) paths

def takeAll (a : Arguments) : List String → Except ArgumentsEnd Arguments
  | [] => .ok a
  | argument :: rest =>
      if argument = "--" then a.takePaths rest
      else
        match a.takeArgument argument with
        | .error e => .error e
        | .ok (a, none) => takeAll a rest
        | .ok (a, some option) =>
            match rest with
            | [] => .error (.mistake "a value is required")
            | value :: rest =>
                -- The option asks for a value, which no option can be.
                if isValue value then
                  match a.setValue option value with
                  | .error e => .error e
                  | .ok a => takeAll a rest
                else .error (.mistake "a value is required")

/-- Checks what only all arguments together show. -/
def check (a : Arguments) : Except ArgumentsEnd (Arguments × String) :=
  if a.output.isSome && a.outputDir.isSome then
    .error (.mistake "--output-dir cannot be used with --output")
  else
    match a.input with
    | none => .error (.mistake "the path of a log is required")
    | some input => .ok (a, input)

/-- The arguments of a command line, and the path of the log. -/
def parse (arguments : List String) : Except ArgumentsEnd (Arguments × String) := do
  (← takeAll {} arguments).check

end Arguments

end EventLog
