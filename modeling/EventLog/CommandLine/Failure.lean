import EventLog.Event.Iterator
import EventLog.Schema.Document

set_option autoImplicit false

/-! # Failures of a run

A run that fails says so in one message, followed by the causes behind it, the nearest first. The
causes are indented, and numbered when there is more than one.
-/

namespace EventLog

/-- Why a run fails. -/
structure Failure where
  message : String
  causes : List String
  deriving DecidableEq, Repr

namespace Failure

def splitLines (text : List Char) : List (List Char) := text.splitOn '\n'

/-- A cause after `first`, with `other` before all its lines but the first. -/
def indented (first other : String) (cause : String) : String :=
  first ++ ("\n" ++ other).intercalate ((splitLines cause.toList).map String.ofList)

def numbered (n : Nat) (cause : String) : String :=
  let digits := toString n
  indented ("".pushn ' ' (5 - digits.length) ++ digits ++ ": ") "       " cause

def causesText : List String → String
  | [cause] => indented "    " "    " cause
  | causes => "\n".intercalate (causes.zipIdx.map fun entry => numbered entry.2 entry.1)

def text (f : Failure) : String :=
  "Error: " ++ f.message ++
    if f.causes.isEmpty then "" else "\n\nCaused by:\n" ++ causesText f.causes

def faultCauses : Fault → List String
  | .encoding source _ => [source.message]
  | _ => []

def ofLogError (e : LogError) : Failure :=
  match e with
  | .io cause | .openFailed _ cause => { message := e.message, causes := [cause] }
  | .fault f => { message := e.message, causes := faultCauses f }
  | .undecodable _ _ f => { message := e.message, causes := f.message :: faultCauses f }

def ofLoadError (path : String) (e : Schema.LoadError) : Failure :=
  { message := "Failed to load schema table " ++ path
    causes :=
      match e with
      | .unreadable _ cause => [e.message, cause]
      | _ => [e.message] }

end Failure

end EventLog
