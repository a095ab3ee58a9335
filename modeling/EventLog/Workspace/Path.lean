set_option autoImplicit false

/-! # Paths

A path is a text whose components are separated by slashes. It begins at the root if a slash comes
first, and else at the current directory. A single dot stands for the directory before it and two
dots for the one above that; which directories these are, only a file system knows.
-/

namespace EventLog.Path

/-- The components of a path as they are written, dots among them. -/
def components (path : String) : List String :=
  ((path.toList.splitOn '/').map String.ofList).filter (· != "")

def parts (path : String) : List String := (components path).filter (· != ".")

def isRooted (path : String) : Bool := path.toList.head? == some '/'

def isTooLong (path : String) : Bool := 4095 < path.utf8ByteSize

/-- Whether a component has more bytes than a name in a directory can have. -/
def nameIsTooLong (name : String) : Bool := 255 < name.utf8ByteSize

/-- Whether a path ends with a slash, so that it can only name a directory. -/
def namesDirectory (path : String) : Bool := path.toList.getLast? == some '/'

def join (directory name : String) : String :=
  if directory = "" ∨ namesDirectory directory then directory ++ name
  else directory ++ "/" ++ name

/-- The path with the given names on the way from the root. -/
def ofPlace (place : List String) : String := "/" ++ "/".intercalate place

/-- A path, last character first, without slashes and single dots at its end, which change nothing
about the directory that it names. -/
def trimEnd : List Char → List Char
  | '/' :: rest => trimEnd rest
  | '.' :: '/' :: rest => trimEnd rest
  | path => path

/-- The path of the directory that holds what a path names, as the path itself begins; empty when
that is the current directory. Nothing holds the root. -/
def parent? (path : String) : Option String :=
  let trimmed := trimEnd path.toList.reverse
  let above := trimEnd (trimmed.dropWhile (· != '/'))
  if trimmed.isEmpty ∧ isRooted path then none
  else if above.isEmpty ∧ isRooted path then some "/"
  else some (String.ofList above.reverse)

/-- What follows the last dot of the last component, if something stands before that dot. -/
def extension? (path : String) : Option String :=
  match (parts path).getLast? with
  | none => none
  | some name =>
      -- The last dot is the first one from the end.
      let reversed := name.toList.reverse
      let ending := (reversed.takeWhile (· != '.')).reverse
      let before := (reversed.dropWhile (· != '.')).drop 1
      if name = ".." ∨ before.isEmpty then none else some (String.ofList ending)

end EventLog.Path
