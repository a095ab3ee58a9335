import EventLog.Proofs.Record.Scan
import EventLog.Proofs.Wire.Relocation

set_option autoImplicit false

/-! # Scanning a longer log

Frames are read alike at every place, so that a scanner gives the same records and faults further
on (`Scanner.items_moved`). Where a log ends without a fault, a scan goes on over what is appended
to it as over a log of its own (`Scanner.items_start_append`).
-/

namespace EventLog

namespace Frame

/-- The same frame, the given number of bytes further on. -/
def moved (d : Nat) (f : Frame) : Frame := { f with offset := f.offset + d }

theorem read_moved (offset d : Nat) (bytes : List UInt8) :
    read (offset + d) bytes = relocate moved d (read offset bytes) := by
  unfold read
  split
  · rfl
  · split
    · rfl
    · simp only
      split
      · rfl
      · simp only [Nat.add_right_comm offset d]
        rfl

theorem payloadOffset_moved (f : Frame) (d : Nat) :
    (f.moved d).payloadOffset = f.payloadOffset + d := by
  simp only [payloadOffset, moved, Nat.add_right_comm]

theorem payloadEnd_moved (f : Frame) (d : Nat) : (f.moved d).payloadEnd = f.payloadEnd + d := by
  rw [payloadEnd, payloadOffset_moved, Nat.add_right_comm]
  rfl

theorem nextOffset_moved (f : Frame) (d : Nat) : (f.moved d).nextOffset = f.nextOffset + d := by
  rw [nextOffset, payloadEnd_moved, Nat.add_right_comm]
  rfl

theorem record_moved (f : Frame) (d : Nat) : (f.moved d).record = f.record.moved d := by
  simp only [record, payloadOffset_moved]
  rfl

theorem close_moved (f : Frame) (d : Nat) (validate : Bool) :
    (f.moved d).close validate =
      relocate (fun d closed => (closed.1.moved d, closed.2)) d (f.close validate) := by
  unfold close
  rw [payloadOffset_moved, payloadEnd_moved, record_moved]
  -- Neither condition looks at an offset, so both frames take the same branch.
  split
  · next hseal =>
      rw [if_pos (show (validate && !f.checksumHolds) = true from hseal)]
      rfl
  · next hseal =>
      rw [if_neg (show ¬ (validate && !f.checksumHolds) = true from hseal)]
      split
      · next hpadding =>
          rw [if_pos (show hasAtLeast (padding f.payload.length) f.rest = true from hpadding)]
          rfl
      · next hpadding =>
          rw [if_neg (show ¬ hasAtLeast (padding f.payload.length) f.rest = true from hpadding)]
          rfl

end Frame

namespace Scanner

/-- The same scanner, with the given numbers of bytes and of records more before it. -/
def moved (d count : Nat) (s : Scanner) : Scanner :=
  { s with position := s.position + d, recordsRead := s.recordsRead + count }

def movedItem (d : Nat) : Except Fault Record → Except Fault Record := relocate Record.moved d

theorem pass_moved (s : Scanner) (f : Frame) (more : List UInt8) (d count : Nat) :
    (s.moved d count).pass (f.moved d) more = (s.pass f more).moved d count := by
  simp only [pass, moved, Frame.nextOffset_moved, Nat.add_right_comm _ count 1]

theorem readRecord_moved (s : Scanner) (d count : Nat) :
    (s.moved d count).readRecord.item = s.readRecord.item.map (movedItem d) ∧
      (s.moved d count).readRecord.state = s.readRecord.state.moved d count := by
  have hread : Frame.read (s.moved d count).position (s.moved d count).rest =
      relocate Frame.moved d (Frame.read s.position s.rest) := Frame.read_moved s.position d s.rest
  unfold readRecord
  rw [hread]
  cases Frame.read s.position s.rest with
  | error fault => exact ⟨rfl, rfl⟩
  | ok frame =>
      have hclose : (frame.moved d).close (s.moved d count).validate = _ :=
        frame.close_moved d s.validate
      simp only [relocate, hclose]
      cases frame.close s.validate with
      | error fault => exact ⟨rfl, rfl⟩
      | ok closed => exact ⟨rfl, pass_moved s frame closed.2 d count⟩

/-- A call gives the same further on. -/
theorem next_moved (s : Scanner) (d count : Nat) :
    (s.moved d count).next.item = s.next.item.map (movedItem d) ∧
      (s.moved d count).next.state = s.next.state.moved d count := by
  cases hexhausted : s.exhausted with
  | true =>
      have hmoved : (s.moved d count).exhausted = true := hexhausted
      rw [(next_of_exhausted hexhausted).1, (next_of_exhausted hexhausted).2,
        (next_of_exhausted hmoved).1, (next_of_exhausted hmoved).2]
      exact ⟨rfl, rfl⟩
  | false =>
      have hmoved : (s.moved d count).exhausted = false := hexhausted
      -- A scanner at the end of its data only says so; only the notice speaks of a position.
      by_cases hrest : s.rest = []
      · unfold next
        rw [hexhausted, hmoved, show (s.moved d count).rest = [] from hrest, hrest]
        exact ⟨rfl, rfl⟩
      · rw [next_eq_readRecord hexhausted hrest, next_eq_readRecord hmoved hrest]
        exact readRecord_moved s d count

/-- **A scan does not depend on its place.** Further on in a log the same bytes give the same
items, that many bytes further on. -/
theorem items_moved (s : Scanner) (d count : Nat) :
    (s.moved d count).items = s.items.map (movedItem d) := by
  obtain ⟨hmoved, hstate⟩ := next_moved s d count
  cases hitem : s.next.item with
  | none =>
      rw [hitem] at hmoved
      rw [items_of_end hitem, items_of_end hmoved]
      rfl
  | some item =>
      rw [hitem] at hmoved
      cases item with
      | error fault =>
          rw [items_of_fault hitem, items_of_fault hmoved]
          rfl
      | ok r =>
          -- A record shortens the rest, which is what the recursion goes down on.
          have hlt := length_rest_next hitem
          rw [items_of_record hitem, items_of_record hmoved, hstate,
            items_moved s.next.state d count]
          rfl
termination_by s.rest.length

/-- **Scanning is a homomorphism.** Where the first part of a log is scanned without a fault, the
items of the whole log are its records and then the items of the second part, moved behind the
first. -/
theorem items_start_append {front back : List UInt8} {validate : Bool} {records : List Record}
    (h : (start front validate).items = records.map .ok) :
    (start (front ++ back) validate).items =
      records.map .ok ++ (start back validate).items.map (movedItem front.length) := by
  obtain ⟨frames, rfl, hsealed, rfl⟩ := items_start_eq_iff.mp h
  let bytes := frames.flatMap WrittenFrame.bytes
  calc (start (bytes ++ back) validate).items
      = (WrittenFrame.records 0 frames).map .ok ++
          ((start (bytes ++ back) validate).past frames back).items :=
        items_of_written rfl rfl hsealed
    _ = (WrittenFrame.records 0 frames).map .ok ++
          ((start back validate).moved bytes.length frames.length).items := rfl
    _ = (WrittenFrame.records 0 frames).map .ok ++
          (start back validate).items.map (movedItem bytes.length) := by rw [items_moved]

end Scanner

end EventLog
