set_option autoImplicit false

/-! # Field keys

A field is declared under a name such as `parentThreadId` and decoded under the key
`parent_thread_id`: an underscore goes before each ASCII capital, the capital becomes lower case,
and underscores at both ends are dropped.
-/

namespace EventLog.FieldName

/-- A capital as an underscore and its lower-case letter; any other character as it is. -/
def separate (c : Char) : List Char := if c.isUpper then ['_', c.toLower] else [c]

def trim (cs : List Char) : List Char :=
  ((cs.dropWhile (· == '_')).reverse.dropWhile (· == '_')).reverse

def keyChars (name : List Char) : List Char := trim (name.flatMap separate)

/-- The key under which a field of the given name is decoded. -/
def normalize (name : String) : String := String.ofList (keyChars name.toList)

end EventLog.FieldName
