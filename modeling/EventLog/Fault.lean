import EventLog.Field.Layout
import EventLog.Text.Digits
import EventLog.Text.Utf8

set_option autoImplicit false

/-! # Faults

Why a log cannot be read: each `Fault` carries the position in the log where the problem was
found, counted in bytes from the start, and has one sentence (`Fault.message`).
-/

namespace EventLog

/-- The elements of a record, as named when one is cut off. -/
inductive Element where
  | start
  | eventType
  | eventVersion
  | contextVersion
  | timestamp
  | uuid
  | address
  | string
  | integer (primitive : Primitive)
  | padding
  deriving DecidableEq, Repr

def Element.name : Element → String
  | start => "cursor.position"
  | eventType => "event type"
  | eventVersion => "event version"
  | contextVersion => "context version"
  | timestamp => "context timestamp"
  | uuid => "uuid"
  | address => "context ip address"
  | string => "string"
  | integer p => p.wireName
  | padding => "record padding"

/-- Why a record cannot be read or decoded. -/
inductive Fault where
  /-- The record does not start with its eight marking bytes. -/
  | framing (found : List UInt8) (offset : Nat)
  /-- Fewer bytes are left than the smallest record has. -/
  | shortRead (remaining minimum : Nat) (offset : Nat)
  /-- The payload is longer than the rest of the log. -/
  | truncatedRecord (length : UInt32) (remaining : Nat) (offset : Nat)
  /-- The payload does not have the stored checksum. -/
  | checksum (expected actual : UInt32) (offset : Nat)
  /-- The context has a version that is not supported. -/
  | unsupportedContextVersion (version : UInt16) (offset : Nat)
  /-- No fields are declared for the event. -/
  | unknownSchema (key : EventKey) (offset : Nat)
  /-- A string is not UTF-8. -/
  | encoding (source : Utf8.Fault) (offset : Nat)
  /-- An element is cut off. -/
  | truncated (element : Element) (offset need available : Nat)
  /-- A timestamp has no calendar text. -/
  | invalidTimestamp (seconds : Int64) (offset : Nat)
  /-- Bytes are left over after the last field. -/
  | trailingBytes (remaining : Nat) (offset : Nat)
  deriving DecidableEq, Repr

namespace Fault

/-- Where the problem was found, in bytes from the start of the log. -/
def offset : Fault → Nat
  | framing _ offset
  | shortRead _ _ offset
  | truncatedRecord _ _ offset
  | checksum _ _ offset
  | unsupportedContextVersion _ offset
  | unknownSchema _ offset
  | encoding _ offset
  | truncated _ offset _ _
  | invalidTimestamp _ offset
  | trailingBytes _ offset => offset

/-- Bytes as two upper-case hexadecimal digits each, in brackets. -/
def byteList (bytes : List UInt8) : String :=
  "[" ++ ", ".intercalate (bytes.map fun b => (String.ofList (hexByte b)).toUpper) ++ "]"

def checksumText (c : UInt32) : String := "0x" ++ hexadecimal 8 c.toNat

/-- What went wrong, without the position. -/
def reason : Fault → String
  | framing found _ =>
      "invalid record magic, expected `FFFFFFFFFFFFFFFF`, found `" ++ byteList found ++ "`"
  | shortRead remaining minimum _ =>
      s!"{remaining} bytes remaining is less than the minimum record size of {minimum} bytes"
  | truncatedRecord length remaining _ =>
      s!"not enough bytes remaining for a record of size {length} (have {remaining})"
  | checksum expected actual _ =>
      "checksum mismatch, expected " ++ checksumText expected ++ ", found " ++
        checksumText actual
  | unsupportedContextVersion version _ => s!"unsupported context version {version}"
  | unknownSchema key _ =>
      s!"no schema registered for event type {key.eventType} version {key.version}"
  | encoding source _ => s!"failed to decode UTF-8 string, caused by: {source.message}"
  | truncated element _ need available =>
      s!"truncated {element.name} (need {need} bytes, have {available})"
  | invalidTimestamp seconds _ => s!"timestamp {seconds.toInt} is out of the supported range"
  | trailingBytes remaining _ => s!"{remaining} trailing bytes after the event payload"

def message (fault : Fault) : String := s!"Offset {fault.offset}: {fault.reason}"

end Fault

end EventLog
