import EventLog.Event.Basic
import EventLog.Json.Printer
import EventLog.Text.Utf8

set_option autoImplicit false

/-! # Events as documents

An event is rendered as a JSON object: its type, the name of the type, its versions, its context
and its fields. Integers are written as numbers; identifiers, addresses and strings as strings.
-/

namespace EventLog

def FieldValue.toJson : FieldValue → Json
  | uuid u => .string u.text
  | string s => .string s
  | int16 n => .int n.toInt
  | uint16 n => .int n.toNat
  | int32 n => .int n.toInt
  | uint32 n => .int n.toNat
  | int64 n => .int n.toInt
  | uint64 n => .int n.toNat

def Fields.toJson (fields : Fields) : Json :=
  .object (fields.entries.map fun entry => (entry.1, entry.2.toJson))

def Context.toJson (c : Context) : Json :=
  .object [
    ("timestamp", .int c.timestamp.toInt),
    ("timestamp_str", .string c.timestampText),
    ("user_id", .string c.user.text),
    ("ip_address", .string c.address.text)]

namespace Event

def toJson (e : Event) : Json :=
  .object [
    ("type", .int e.eventType.toNat),
    ("type_name", .string e.typeName),
    ("version", .int e.version.toNat),
    ("context_version", .int e.contextVersion.toNat),
    ("context", e.context.toJson),
    ("data", e.data.toJson)]

def document (e : Event) (indent : Bool) : String := e.toJson.text indent

def documentBytes (e : Event) (indent : Bool) : List UInt8 := Utf8.ofString (e.document indent)

end Event

end EventLog
