import EventLog.Field.Name
import EventLog.Field.Primitive

set_option autoImplicit false

/-! # Field declarations

A schema lists, for each event type and version, the fields of its payload in order: how each is
laid out (`Layout`) and what it is called (`FieldSpec`).
-/

namespace EventLog

/-- How a field is laid out: sixteen bytes, a length and that many bytes of UTF-8, or an integer
of fixed width. A string declared not to be empty has the layout of any string; its length is not
checked. -/
inductive Layout where
  | uuid
  | string
  | nonEmptyString
  | integer (primitive : Primitive)
  deriving DecidableEq, Repr

def Layout.kindName : Layout → String
  | uuid => "READ_UUID"
  | string => "READ_STRING"
  | nonEmptyString => "READ_NONEMPTY_STRING"
  | integer _ => "READ_TYPE"

/-- The name of the wire integer of a layout that has one. -/
def Layout.wireName? : Layout → Option String
  | integer p => some p.wireName
  | _ => none

/-- A declared field. -/
structure FieldSpec where
  layout : Layout
  name : String
  deriving DecidableEq, Repr

def FieldSpec.key (f : FieldSpec) : String := FieldName.normalize f.name

/-- An event type and the version of its payload. -/
structure EventKey where
  eventType : UInt32
  version : UInt16
  deriving DecidableEq, Repr

def EventKey.text (k : EventKey) : String := s!"({k.eventType}, v{k.version})"

end EventLog
