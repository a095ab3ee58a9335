import EventLog.Bytes.LittleEndian
import EventLog.Bytes.Supply
import EventLog.Checksum
import EventLog.Fault

set_option autoImplicit false

/-! # Frames

A log is a sequence of frames. A frame holds the payload of one record: eight marking bytes, the
length of the payload and its checksum in four bytes each, the payload, and bytes of any content
up to a multiple of eight. A stored checksum of zero means that there is none.

`Frame.read` reads a frame up to the end of its payload; `Frame.close` then checks the checksum
and passes the padding.
-/

namespace EventLog

/-- A record: its payload with its place in the log and its stored checksum. -/
structure Record where
  offset : Nat
  payloadOffset : Nat
  checksum : UInt32
  payload : List UInt8
  deriving DecidableEq, Repr

namespace Frame

def magic : List UInt8 := List.replicate 8 0xFF

def headSize : Nat := 16

/-- Frames begin at multiples of this number. -/
def alignment : Nat := 8

/-- The number of padding bytes after a payload of the given size. -/
def padding (size : Nat) : Nat :=
  if size % alignment = 0 then 0 else alignment - size % alignment

end Frame

/-- A frame read up to the end of its payload: where it starts, its stored checksum, its payload,
and the bytes after the payload. -/
structure Frame where
  offset : Nat
  checksum : UInt32
  payload : List UInt8
  rest : List UInt8
  deriving DecidableEq, Repr

namespace Frame

def payloadOffset (f : Frame) : Nat := f.offset + headSize

/-- The position of the padding. -/
def payloadEnd (f : Frame) : Nat := f.payloadOffset + f.payload.length

def nextOffset (f : Frame) : Nat := f.payloadEnd + padding f.payload.length

/-- Reads a frame that starts at position `offset` with the given bytes. -/
def read (offset : Nat) (bytes : List UInt8) : Except Fault Frame :=
  if !hasAtLeast headSize bytes then .error (.shortRead bytes.length headSize offset)
  else if bytes.take 8 ≠ magic then .error (.framing (bytes.take 8) offset)
  else
    -- The head is complete, so both of its numbers have their four bytes.
    let length := ofLittleEndian ((bytes.drop 8).take 4)
    let checksum := UInt32.ofNat (ofLittleEndian ((bytes.drop 12).take 4))
    let rest := bytes.drop headSize
    if hasAtLeast length rest then
      .ok { offset, checksum, payload := rest.take length, rest := rest.drop length }
    else .error (.truncatedRecord (UInt32.ofNat length) rest.length (offset + headSize))

/-- Whether the payload has the stored checksum, or none is stored. -/
def checksumHolds (f : Frame) : Bool :=
  f.checksum == 0 || Checksum.compute f.payload == f.checksum

def record (f : Frame) : Record :=
  { offset := f.offset
    payloadOffset := f.payloadOffset
    checksum := f.checksum
    payload := f.payload }

/-- Checks a frame and passes its padding; gives the record and the bytes of the next frame. -/
def close (f : Frame) (validate : Bool) : Except Fault (Record × List UInt8) :=
  -- The checksum is judged before the padding is looked at.
  if validate && !f.checksumHolds then
    .error (.checksum f.checksum (Checksum.compute f.payload) f.payloadOffset)
  else if hasAtLeast (padding f.payload.length) f.rest then
    .ok (f.record, f.rest.drop (padding f.payload.length))
  else
    .error (.truncated .padding f.payloadEnd (padding f.payload.length) f.rest.length)

theorem length_rest_of_read {offset : Nat} {bytes : List UInt8} {f : Frame}
    (h : read offset bytes = .ok f) :
    bytes.length = headSize + f.payload.length + f.rest.length := by
  unfold read at h
  split at h
  · simp at h
  · split at h
    · simp at h
    · simp only at h
      split at h
      · next hhead _ hpayload =>
          have hf := Except.ok.inj h
          subst hf
          rw [Bool.not_eq_true', Bool.not_eq_false, hasAtLeast_iff] at hhead
          rw [hasAtLeast_iff] at hpayload
          simp only [List.length_take, List.length_drop] at *
          omega
      · simp at h

theorem length_of_close {f : Frame} {validate : Bool} {r : Record} {next : List UInt8}
    (h : f.close validate = .ok (r, next)) :
    r = f.record ∧ f.rest.length = padding f.payload.length + next.length := by
  unfold close at h
  split at h
  · simp at h
  · split at h
    · next hle =>
        have hp := Prod.mk.inj (Except.ok.inj h)
        refine ⟨hp.1.symm, ?_⟩
        rw [hasAtLeast_iff] at hle
        rw [← hp.2, List.length_drop]
        omega
    · simp at h

end Frame

end EventLog
