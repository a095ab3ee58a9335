import EventLog.Fault
import EventLog.Address
import EventLog.Bytes.Supply
import EventLog.Field.Value

set_option autoImplicit false

/-! # Reading elements

A `Cursor` stands before the unread bytes of a record and knows the position of the next one in
the log. Every reader takes the bytes of one element and moves the cursor past them; an element
that is cut off is a fault at the cursor, which then stays where it was.
-/

namespace EventLog

/-- The unread bytes of a record and the position of the first of them in the log. -/
structure Cursor where
  position : Nat
  rest : List UInt8
  deriving DecidableEq, Repr

namespace Cursor

/-- The cursor at an offset of a byte string that starts at position `base` of the log. -/
def at? (data : List UInt8) (offset base : Nat) : Except Fault Cursor :=
  if hasAtLeast offset data then .ok ⟨base + offset, data.drop offset⟩
  else .error (.truncated .start (base + offset) 0 0)

def advance (c : Cursor) (n : Nat) : Cursor := ⟨c.position + n, c.rest.drop n⟩

/-- The fault of an element of `n` bytes that is cut off. -/
def cutOff (c : Cursor) (element : Element) (n : Nat) : Fault :=
  .truncated element c.position n c.rest.length

def take (c : Cursor) (element : Element) (n : Nat) : Except Fault (List UInt8 × Cursor) :=
  if hasAtLeast n c.rest then .ok (c.rest.take n, c.advance n) else .error (c.cutOff element n)

def number (c : Cursor) (element : Element) (n : Nat) : Except Fault (Nat × Cursor) := do
  let (bytes, c) ← c.take element n
  return (ofLittleEndian bytes, c)

def uuid (c : Cursor) : Except Fault (Uuid × Cursor) :=
  if h : hasAtLeast 16 c.rest then
    .ok (⟨c.rest.take 16, by rw [List.length_take, Nat.min_eq_left (hasAtLeast_iff.1 h)]⟩,
      c.advance 16)
  else .error (c.cutOff .uuid 16)

def address (c : Cursor) : Except Fault (Address × Cursor) := do
  let (bytes, c) ← c.take .address 16
  return (Address.ofBytes bytes, c)

/-- Reads a string: its length in bytes and its bytes. Bytes that are not UTF-8 are a fault at
the first bad byte. -/
def string (c : Cursor) : Except Fault (String × Cursor) := do
  let (length, c) ← c.number .string 4
  let (bytes, next) ← c.take .string length
  -- The place of a bad byte is counted from the first byte after the length.
  match Utf8.toString? bytes with
  | .ok s => return (s, next)
  | .error source => throw (.encoding source (c.position + source.validUpTo))

def field (c : Cursor) : Layout → Except Fault (FieldValue × Cursor)
  | .uuid => do
      let (u, c) ← c.uuid
      return (.uuid u, c)
  | .string | .nonEmptyString => do
      let (s, c) ← c.string
      return (.string s, c)
  | .integer p => do
      let (n, c) ← c.number (.integer p) p.size
      return (p.value n, c)

end Cursor

/-- Reads one field at an offset of a byte string that starts the log; gives the value and the
number of bytes it took. -/
def Layout.readAt (layout : Layout) (data : List UInt8) (offset : Nat) :
    Except Fault (FieldValue × Nat) := do
  let c ← Cursor.at? data offset 0
  let (value, next) ← c.field layout
  return (value, next.position - c.position)

end EventLog
