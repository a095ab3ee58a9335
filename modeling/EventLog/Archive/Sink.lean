set_option autoImplicit false

/-! # Sinks

A `Sink` takes the bytes of an archive. It may have room for a certain number of bytes only: a
write beyond that number leaves what fits and fails, and so does every later write of one byte or
more.
-/

namespace EventLog

/-- What was written, and how many more bytes can be; `none` means any number. -/
structure Sink where
  taken : Array UInt8
  room : Option Nat
  deriving DecidableEq

namespace Sink

/-- The sentence about a write for which there is no room. -/
def fullCause : String := "full"

def empty (room : Option Nat) : Sink := { taken := #[], room }

/-- Writes bytes; gives the sink after the write and whether all bytes were taken. -/
def write (s : Sink) (bytes : List UInt8) : Sink × Bool :=
  match s.room with
  | none => ({ s with taken := s.taken ++ bytes }, true)
  | some room =>
      if bytes.length ≤ room then
        ({ taken := s.taken ++ bytes, room := some (room - bytes.length) }, true)
      else ({ taken := s.taken ++ bytes.take room, room := some 0 }, false)

/-- Writes pieces one after the other up to the first that is not taken. -/
def writeAll (s : Sink) : List (List UInt8) → Sink × Bool
  | [] => (s, true)
  | piece :: pieces =>
      match s.write piece with
      | (s, true) => writeAll s pieces
      | (s, false) => (s, false)

end Sink

end EventLog
