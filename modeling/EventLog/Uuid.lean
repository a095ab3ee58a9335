import EventLog.Text.Digits

set_option autoImplicit false

/-! # Identifiers

A `Uuid` is sixteen bytes; its text is their lower-case hexadecimal digits in groups of eight,
four, four, four and twelve, joined by hyphens.
-/

namespace EventLog

/-- Sixteen bytes that identify a user or an object. -/
structure Uuid where
  bytes : List UInt8
  length_bytes : bytes.length = 16
  deriving DecidableEq

namespace Uuid

/-- The identifier of the given bytes, if there are sixteen. -/
def ofBytes? (bytes : List UInt8) : Option Uuid :=
  if h : bytes.length = 16 then some ⟨bytes, h⟩ else none

def groups : List Nat → List UInt8 → List (List UInt8)
  | [], _ => []
  | n :: sizes, bytes => bytes.take n :: groups sizes (bytes.drop n)

def text (u : Uuid) : String :=
  "-".intercalate ((groups [4, 2, 2, 2, 6] u.bytes).map
    fun group => String.ofList (group.flatMap hexByte))

end Uuid

end EventLog
