import EventLog.Record.Frame
import EventLog.Notice

set_option autoImplicit false

/-! # Scanning a log

A `Scanner` walks the frames of a log from its start. Each call of `Scanner.next` gives the next
record, or the fault of the next frame; after a fault, and after the end of the log, the scanner
is exhausted and gives nothing more. A fault moves neither the position nor the count of records.
-/

namespace EventLog

/-- What one call of an iterator gives: an item, if any, the state after the call, and what was
reported. -/
structure Step (σ ε α : Type) where
  item : Option (Except ε α)
  state : σ
  notices : List Notice

/-- A walk over the frames of a log: the position of the next frame and the bytes from there, the
number of records read, whether checksums are checked, and whether the walk is over. -/
structure Scanner where
  position : Nat
  rest : List UInt8
  recordsRead : Nat
  validate : Bool
  exhausted : Bool
  deriving DecidableEq, Repr

namespace Scanner

def start (log : List UInt8) (validate : Bool) : Scanner :=
  { position := 0, rest := log, recordsRead := 0, validate, exhausted := false }

def logSize (s : Scanner) : Nat := s.position + s.rest.length

def stop (s : Scanner) : Scanner := { s with exhausted := true }

/-- The scanner at the same place after the log was overwritten. The log keeps its size: zeros
follow where the new contents are shorter. -/
def overwritten (s : Scanner) (contents : List UInt8) : Scanner :=
  let zeros := List.replicate (s.logSize - contents.length) 0
  { s with rest := ((contents ++ zeros).take s.logSize).drop s.position }

def pass (s : Scanner) (f : Frame) (next : List UInt8) : Scanner :=
  { s with position := f.nextOffset, rest := next, recordsRead := s.recordsRead + 1 }

def noticeOf (s : Scanner) (f : Frame) : Notice :=
  .record f.offset s.recordsRead f.payload.length f.checksum

def readRecord (s : Scanner) : Step Scanner Fault Record :=
  match Frame.read s.position s.rest with
  | .error fault => { item := some (.error fault), state := s.stop, notices := [] }
  | .ok frame =>
      match frame.close s.validate with
      | .error fault =>
          { item := some (.error fault), state := s.stop, notices := [s.noticeOf frame] }
      | .ok (record, next) =>
          { item := some (.ok record), state := s.pass frame next, notices := [s.noticeOf frame] }

def next (s : Scanner) : Step Scanner Fault Record :=
  if s.exhausted then { item := none, state := s, notices := [] }
  -- A log ends between frames; one that ends inside a frame is cut off.
  else if s.rest.isEmpty then
    { item := none, state := s.stop, notices := [.endOfLog s.recordsRead s.logSize] }
  else s.readRecord

/-- A record takes sixteen bytes of the log at least. -/
theorem length_rest_next {s : Scanner} {r : Record} (h : s.next.item = some (.ok r)) :
    s.next.state.rest.length + 16 ≤ s.rest.length := by
  unfold next at h ⊢
  split at h
  · simp at h
  · split at h
    · simp at h
    · rename_i h1 h2
      rw [if_neg h1, if_neg h2]
      unfold readRecord at h ⊢
      cases hr : Frame.read s.position s.rest with
      | error fault => simp [hr] at h
      | ok frame =>
          cases hc : frame.close s.validate with
          | error fault => simp [hr, hc] at h
          | ok p =>
              -- The head took sixteen bytes; payload and padding only take more.
              have h3 := Frame.length_rest_of_read hr
              have h4 := (Frame.length_of_close hc).2
              simp only [hc, pass]
              simp only [Frame.headSize] at h3
              omega

end Scanner

end EventLog
