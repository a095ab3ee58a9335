import Std.Data.TreeMap.Lemmas
import EventLog.Log
import EventLog.Workspace.Path

set_option autoImplicit false

/-! # A file system as a value

A `FileTree` holds what stands below the root of a file system, and which directory is the current
one. Paths are followed component by component, so that one can lead out of the current directory,
through its parents or from the root. A log is found by the path from the root to it, which is why
its own path may be of any length; all other steps refuse a path that is too long.
-/

namespace EventLog

/-- Why a step in a file system fails. -/
inductive SystemFault where
  | notFound
  | alreadyExists
  | noDevice
  | notADirectory
  | isADirectory
  | noRoom
  | nameTooLong
  deriving DecidableEq, Repr

def SystemFault.message : SystemFault → String
  | notFound => "No such file or directory (os error 2)"
  | alreadyExists => "File exists (os error 17)"
  | noDevice => "No such device (os error 19)"
  | notADirectory => "Not a directory (os error 20)"
  | isADirectory => "Is a directory (os error 21)"
  | noRoom => "No space left on device (os error 28)"
  | nameTooLong => "File name too long (os error 36)"

/-- What stands among the files without being kept as one. -/
inductive Device where
  /-- Takes what is written to it and keeps nothing. -/
  | null
  /-- Takes nothing that is written to it. -/
  | full
  deriving DecidableEq

/-- The standard streams. -/
inductive Stream where
  | input
  | output
  | messages
  deriving DecidableEq

/-- What a path leads to. Most directories have a size, as files have. -/
inductive FileNode where
  | file (content : List UInt8) (modified : Option Int64)
  | directory (sized : Bool)
  | device (kind : Device)
  | stream (which : Stream)
  deriving DecidableEq

def FileNode.isDirectory : FileNode → Bool
  | directory _ => true
  | _ => false

/-- What stands below the root, each under its place: the names on the way from the root. The
current directory is given by its place too. -/
structure FileTree where
  nodes : Std.TreeMap (List String) FileNode
  current : List String

namespace FileTree

/-- A file system with nothing below its root, which is the current directory. -/
def empty : FileTree := ⟨∅, []⟩

/-- What stands at a place, whatever stands above it. -/
def node? (t : FileTree) (place : List String) : Option FileNode :=
  if place.isEmpty then some (.directory true) else t.nodes[place]?

def put (t : FileTree) (place : List String) (node : FileNode) : FileTree :=
  { t with nodes := t.nodes.insert place node }

@[simp] theorem node?_empty (place : List String) :
    empty.node? place = if place.isEmpty then some (.directory true) else none := by
  simp [node?, empty]

/-- Only the place where a node is put changes. -/
theorem node?_put (t : FileTree) {place : List String} (node : FileNode) (h : place ≠ [])
    (other : List String) :
    (t.put place node).node? other = if other = place then some node else t.node? other := by
  by_cases same : other = place
  · simp [node?, put, same, h]
  · simp [node?, put, same, Std.TreeMap.getElem?_insert, Ne.symm same]

def child? (t : FileTree) (place : List String) (name : String) :
    Except SystemFault (Option FileNode) :=
  if Path.nameIsTooLong name then .error .nameTooLong else .ok (t.node? (place ++ [name]))

/-- Follows components from a directory, each of which has to lead to a directory; gives the
directory reached. Nothing is above the root, so that two dots stay there. -/
def follow (t : FileTree) (place : List String) : List String → Except SystemFault (List String)
  | [] => .ok place
  | name :: rest =>
      if name = "." then follow t place rest
      else if name = ".." then follow t place.dropLast rest
      else
        match t.child? place name with
        | .ok (some (.directory _)) => follow t (place ++ [name]) rest
        | .ok (some _) => .error .notADirectory
        | .ok none => .error .notFound
        | .error fault => .error fault

/-- The directory that components lead to but for the last of them, and that one, unless it is a
dot or two and so leads to a directory itself. -/
def locate (t : FileTree) (place components : List String) :
    Except SystemFault (List String × Option String) := do
  match components.getLast? with
  | none => return (place, none)
  | some name =>
      let above ← t.follow place components.dropLast
      if name = "." ∨ name = ".." then return (above, none) else return (above, some name)

def nodeAt (t : FileTree) (place components : List String) : Except SystemFault FileNode := do
  match ← t.locate place components with
  | (above, none) => return (t.node? above).getD (.directory true)
  | (above, some name) =>
      match ← t.child? above name with
      | some node => return node
      | none => throw .notFound

def start (t : FileTree) (path : String) : List String :=
  if Path.isRooted path then [] else t.current

/-- Refuses a text that cannot be a path: one that is empty or too long. -/
def checkPath (path : String) : Except SystemFault Unit :=
  if path = "" then .error .notFound
  else if Path.isTooLong path then .error .nameTooLong
  else .ok ()

def find (t : FileTree) (path : String) : Except SystemFault FileNode := do
  checkPath path
  let node ← t.nodeAt (t.start path) (Path.components path)
  if Path.namesDirectory path ∧ !node.isDirectory then throw .notADirectory
  return node

/-- The place that components lead to when every step is taken by the path from the root, which
alone must not be too long. No such path leads to a stream. -/
def followFromRoot (t : FileTree) (place : List String) :
    List String → Except SystemFault (List String)
  | [] => .ok place
  | name :: rest =>
      if name = "." then followFromRoot t place rest
      else if name = ".." then followFromRoot t place.dropLast rest
      else if Path.isTooLong (Path.ofPlace (place ++ [name])) then .error .nameTooLong
      else
        match t.child? place name with
        | .ok (some (.directory _)) => followFromRoot t (place ++ [name]) rest
        | .ok (some (.stream _)) | .ok none => .error .notFound
        | .ok (some _) => if rest.isEmpty then .ok (place ++ [name]) else .error .notADirectory
        | .error fault => .error fault

def placeOf (t : FileTree) (path : String) : Except SystemFault (List String) := do
  if path = "" then throw .notFound
  let place ← t.followFromRoot (t.start path) (Path.components path)
  if Path.namesDirectory path ∧ !(t.node? place).any FileNode.isDirectory then
    throw .notADirectory
  return place

def sameFile (t : FileTree) (path other : String) : Bool :=
  match t.placeOf path, t.placeOf other with
  | .ok place, .ok otherPlace => place == otherPlace
  | _, _ => false

/-- Makes the directory that a path leads to the current one. -/
def enter (t : FileTree) (path : String) : Except SystemFault FileTree := do
  checkPath path
  return { t with current := ← t.follow (t.start path) (Path.components path) }

def isDirectory (t : FileTree) (path : String) : Bool :=
  match t.find path with
  | .ok node => node.isDirectory
  | .error _ => false

def pathExists (t : FileTree) (path : String) : Bool := (t.find path).isOk

def read (t : FileTree) (path : String) : Except SystemFault (List UInt8) :=
  match t.find path with
  | .ok (.file content _) => .ok content
  | .ok (.directory _) => .error .isADirectory
  | .ok _ => .ok []
  | .error fault => .error fault

/-- A log file, which is opened by its path from the root. A directory can be opened, but not read
as a log; what has no size is an empty log. -/
def readLog (t : FileTree) (path : String) : Except FileFault OpenedFile :=
  match t.placeOf path with
  | .error fault => .error (.notOpened fault.message)
  | .ok place =>
      match t.node? place with
      | some (.file content _) => .ok { path := Path.ofPlace place, bytes := content }
      | some (.directory true) => .error (.notRead SystemFault.noDevice.message)
      | _ => .ok { path := Path.ofPlace place, bytes := [] }

def makeDirectory (t : FileTree) (place components : List String) :
    Except SystemFault FileTree := do
  match ← t.locate place components with
  | (_, none) => throw .alreadyExists
  | (above, some name) =>
      match ← t.child? above name with
      | some _ => throw .alreadyExists
      | none => return t.put (above ++ [name]) (.directory true)

/-- Makes a directory in an existing one, unless it is there. -/
def ensureDirectory (t : FileTree) (place components : List String) :
    Except SystemFault FileTree :=
  match t.makeDirectory place components with
  | .ok t => .ok t
  | .error fault =>
      match t.nodeAt place components with
      | .ok (.directory _) => .ok t
      | _ => .error fault

/-- Makes the directories that are missing along components. -/
def ensureDirectories (t : FileTree) (place : List String) :
    List String → Except SystemFault FileTree
  | [] => .ok t
  | name :: rest => do
      let t ← t.ensureDirectory place [name]
      t.ensureDirectories (← t.follow place [name]) rest

/-- Makes a directory and those above it, as far as they are missing. Nothing is missing for the
empty path. -/
def makeDirectories (t : FileTree) (path : String) : Except SystemFault FileTree := do
  if path = "" then return t
  checkPath path
  let place := t.start path
  match t.ensureDirectory place (Path.components path) with
  -- Only a missing directory above is a reason to begin at the top.
  | .error .notFound => do
      let t ← t.ensureDirectories place (Path.parts path).dropLast
      t.ensureDirectory place (Path.components path)
  | made => made

/-- Makes an empty file, or empties the one there is. -/
def create (t : FileTree) (path : String) : Except SystemFault FileTree := do
  checkPath path
  match ← t.locate (t.start path) (Path.components path) with
  | (_, none) => throw .isADirectory
  | (above, some name) =>
      -- A slash at the end asks for a directory, which is not made here.
      if Path.namesDirectory path then throw .isADirectory
      match ← t.child? above name with
      | some (.directory _) => throw .isADirectory
      | some (.device _) | some (.stream _) => return t
      | _ => return t.put (above ++ [name]) (.file [] none)

/-- Changes a file; what is no file stays as it is. -/
def change (t : FileTree) (path : String)
    (f : List UInt8 → Option Int64 → List UInt8 × Option Int64) :
    Except SystemFault FileTree := do
  checkPath path
  match ← t.locate (t.start path) (Path.components path) with
  | (_, none) => throw .isADirectory
  | (above, some name) =>
      match ← t.child? above name with
      | some (.file content modified) =>
          let (content, modified) := f content modified
          return t.put (above ++ [name]) (.file content modified)
      | some (.directory _) => throw .isADirectory
      | some _ => return t
      | none => throw .notFound

/-- A node's way from a place and its contents and date, if it is a file below that place. -/
def fileBelow? (place : List String) :
    List String × FileNode → Option (List String × List UInt8 × Option Int64)
  | (path, .file content modified) =>
      (place.isPrefixOf? path).map fun way => (way, content, modified)
  | _ => none

/-- The files below the current directory with their contents and dates, by the names on the way
from there. -/
def files (t : FileTree) : List (List String × List UInt8 × Option Int64) :=
  t.nodes.toList.filterMap (fileBelow? t.current)

end FileTree

end EventLog
