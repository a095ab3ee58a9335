set_option autoImplicit false

/-! # JSON values

The documents of this library hold no fractions: a number is an integer, and a number of any
other form is only known to be one (`Json.real`).
-/

namespace EventLog

/-- A JSON value. The members of an object are in the order in which they are written. -/
inductive Json where
  | null
  | bool (value : Bool)
  | int (value : Int)
  | real
  | string (value : String)
  | array (elements : List Json)
  | object (members : List (String × Json))

namespace Json

/-- Why a text is not the JSON document that was asked for: it breaks the grammar, it has another
shape than was asked for, or it ends too early. -/
inductive Problem where
  | malformed
  | mismatched
  | unfinished
  deriving DecidableEq, Repr

end Json

end EventLog
