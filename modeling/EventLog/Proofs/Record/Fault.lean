import EventLog.Proofs.Record.Scan

set_option autoImplicit false

/-! # The fault that ends a scan

A scan stops at the first frame that is not as it should be. `Frame.read_cases` and
`Frame.close_cases` say when a frame is at fault, and for which of its parts; the position of
the fault is then counted from the end of the last frame that was passed
(`Scanner.pointsIntoFrame_of_items`).
-/

namespace EventLog

/-! ## The boundaries of frames -/

/-- The positions at which a frame starts or ends: zero and the end of each frame. -/
def boundaries (records : List Record) : List Nat := 0 :: records.map Record.frameEnd

/-- The end of the last frame. -/
def reached (records : List Record) : Nat := (records.map Record.frameEnd).getLastD 0

namespace WrittenFrame

theorem getLastD_frameEnd_records (offset : Nat) (frames : List WrittenFrame) :
    ((records offset frames).map Record.frameEnd).getLastD offset =
      offset + (frames.flatMap bytes).length := by
  induction frames generalizing offset with
  | nil => rfl
  | cons f frames ih =>
      rw [records, List.map_cons, List.getLastD_cons, f.frameEnd_record, ih,
        List.flatMap_cons, List.length_append, Nat.add_assoc]

/-- The last of the frames that a log begins with ends where they all end. -/
theorem reached_records (frames : List WrittenFrame) :
    reached (records 0 frames) = (frames.flatMap bytes).length := by
  rw [reached, getLastD_frameEnd_records, Nat.zero_add]

/-- What stands behind the frames that a log begins with. -/
theorem drop_reached_records (frames : List WrittenFrame) (more : List UInt8) :
    (frames.flatMap bytes ++ more).drop (reached (records 0 frames)) = more := by
  rw [reached_records, List.drop_left]

end WrittenFrame

/-- A scanner that has passed the frames that a log begins with stands where they end. -/
theorem Scanner.position_past_eq_reached (log : List UInt8) (validate : Bool)
    (frames : List WrittenFrame) (more : List UInt8) :
    ((start log validate).past frames more).position = reached (WrittenFrame.records 0 frames) := by
  rw [position_past_start, WrittenFrame.reached_records]

/-! ## Frames at fault -/

namespace Frame

/-- The length of the payload as the head of a frame has it. -/
def storedLength (bytes : List UInt8) : Nat := ofLittleEndian ((bytes.drop 8).take 4)

/-- What reading a frame can give: a fault when fewer bytes are left than a head has, when other
bytes than the marking ones come first, or when fewer bytes follow the head than it says; else the
frame, whose payload has the length that the head says. -/
theorem read_cases (offset : Nat) (bytes : List UInt8) :
    (bytes.length < 16 ∧ read offset bytes = .error (.shortRead bytes.length 16 offset)) ∨
    (16 ≤ bytes.length ∧ bytes.take 8 ≠ magic ∧
      read offset bytes = .error (.framing (bytes.take 8) offset)) ∨
    (16 ≤ bytes.length ∧ bytes.take 8 = magic ∧ bytes.length < 16 + storedLength bytes ∧
      read offset bytes = .error (.truncatedRecord (UInt32.ofNat (storedLength bytes))
        (bytes.length - 16) (offset + 16))) ∨
    (bytes.take 8 = magic ∧ ∃ f, read offset bytes = .ok f ∧
      f.payload.length = storedLength bytes) := by
  unfold read
  split
  · next hsize =>
      rw [Bool.not_eq_true', ← Bool.not_eq_true, hasAtLeast_iff, Nat.not_le] at hsize
      exact .inl ⟨hsize, rfl⟩
  · next hsize =>
      rw [Bool.not_eq_true', Bool.not_eq_false, hasAtLeast_iff] at hsize
      split
      · next hmagic => exact .inr (.inl ⟨hsize, hmagic, rfl⟩)
      · next hmagic =>
          rw [ne_eq, Decidable.not_not] at hmagic
          have hrest : (bytes.drop headSize).length = bytes.length - 16 := List.length_drop
          simp only
          split
          · next hpayload =>
              rw [hasAtLeast_iff] at hpayload
              exact .inr (.inr (.inr ⟨hmagic, _, rfl, List.length_take_of_le hpayload⟩))
          · next hpayload =>
              rw [hasAtLeast_iff, hrest, Nat.not_le] at hpayload
              refine .inr (.inr (.inl ⟨hsize, hmagic, ?_, ?_⟩))
              · exact (Nat.sub_lt_iff_lt_add' hsize).mp hpayload
              · rw [hrest]
                rfl

/-- What closing a frame can give: a fault when its checksum is checked and does not hold, or when
its padding is cut off; else its record. -/
theorem close_cases (f : Frame) (validate : Bool) :
    (validate = true ∧ f.checksumHolds = false ∧ f.close validate =
      .error (.checksum f.checksum (Checksum.compute f.payload) f.payloadOffset)) ∨
    (f.rest.length < padding f.payload.length ∧ f.close validate =
      .error (.truncated .padding f.payloadEnd (padding f.payload.length) f.rest.length)) ∨
    ∃ more, f.close validate = .ok (f.record, more) := by
  unfold close
  split
  · next hseal =>
      rw [Bool.and_eq_true, Bool.not_eq_true'] at hseal
      exact .inl ⟨hseal.1, hseal.2, rfl⟩
  · split
    · exact .inr (.inr ⟨_, rfl⟩)
    · next hpadding =>
        rw [hasAtLeast_iff, Nat.not_le] at hpadding
        exact .inr (.inl ⟨hpadding, rfl⟩)

end Frame

namespace Scanner

/-- A call gives a fault exactly when the next frame cannot be read or cannot be closed. -/
theorem next_eq_error_iff {s : Scanner} {fault : Fault} :
    s.next.item = some (.error fault) ↔
      s.exhausted = false ∧ s.rest ≠ [] ∧
        (Frame.read s.position s.rest = .error fault ∨
          ∃ f, Frame.read s.position s.rest = .ok f ∧ f.close s.validate = .error fault) := by
  cases hexhausted : s.exhausted with
  | true => simp [(next_of_exhausted hexhausted).1]
  | false =>
      by_cases hrest : s.rest = []
      · simp [(next_eq_none_iff hexhausted).mpr hrest, hrest]
      · rw [next_eq_readRecord hexhausted hrest, readRecord]
        cases hread : Frame.read s.position s.rest with
        | error fault' => simp [hrest]
        | ok f => cases hclose : f.close s.validate <;> simp [hclose, hrest]

end Scanner

/-! ## Where the fault is found -/

/-- What a fault of the frame that starts at position `s` says about the log: it is found at the
start of the frame, behind its head, or behind its payload, whose length the head has. Padding that
is cut off ends with the log. -/
def Fault.PointsIntoFrame (data : List UInt8) (s : Nat) : Fault → Prop
  | .framing _ offset
  | .shortRead _ _ offset => offset = s
  | .truncatedRecord _ _ offset
  | .checksum _ _ offset => offset = s + 16
  | .truncated element offset need available =>
      element = .padding ∧ offset = s + 16 + Frame.storedLength (data.drop s) ∧
        available < need ∧ available = data.length - offset
  | _ => False

namespace Scanner

/-- The fault of a call points into the frame at the position of the scanner. -/
theorem pointsIntoFrame_of_next {s : Scanner} {data : List UInt8} {fault : Fault}
    (hrest : data.drop s.position = s.rest) (hle : s.position ≤ data.length)
    (h : s.next.item = some (.error fault)) :
    s.position ≤ fault.offset ∧ fault.offset ≤ data.length ∧
      fault.PointsIntoFrame data s.position := by
  have hlength : data.length = s.position + s.rest.length := by
    rw [← hrest, List.length_drop, Nat.add_sub_cancel' hle]
  obtain ⟨-, -, hread | ⟨f, hread, hclose⟩⟩ := next_eq_error_iff.mp h
  · -- The head or the payload could not be read.
    rcases Frame.read_cases s.position s.rest with
      ⟨-, hfault⟩ | ⟨-, -, hfault⟩ | ⟨hsize, -, -, hfault⟩ | ⟨-, f, hframe, -⟩
    · cases hread.symm.trans hfault
      exact ⟨Nat.le_refl _, hle, rfl⟩
    · cases hread.symm.trans hfault
      exact ⟨Nat.le_refl _, hle, rfl⟩
    · cases hread.symm.trans hfault
      exact ⟨Nat.le_add_right _ _, by rw [hlength]; exact Nat.add_le_add_left hsize _, rfl⟩
    · cases hread.symm.trans hframe
  · -- The frame was read, and closing it failed.
    have hstored : f.payload.length = Frame.storedLength (data.drop s.position) := by
      rcases Frame.read_cases s.position s.rest with
        ⟨-, hfault⟩ | ⟨-, -, hfault⟩ | ⟨-, -, -, hfault⟩ | ⟨-, f', hframe, hpayload⟩
      · cases hread.symm.trans hfault
      · cases hread.symm.trans hfault
      · cases hread.symm.trans hfault
      · cases hread.symm.trans hframe
        rw [hpayload, hrest]
    have hbytes := Frame.length_rest_of_read hread
    rw [Frame.headSize] at hbytes
    have hpayloadOffset : f.payloadOffset = s.position + 16 := by
      rw [Frame.payloadOffset, (Frame.read_eq_ok_iff.mp hread).1, Frame.headSize]
    have hpayloadEnd : f.payloadEnd = s.position + 16 + f.payload.length := by
      rw [Frame.payloadEnd, hpayloadOffset]
    rcases f.close_cases s.validate with ⟨-, -, hfault⟩ | ⟨hcut, hfault⟩ | ⟨more, hrecord⟩
    · cases hclose.symm.trans hfault
      show s.position ≤ f.payloadOffset ∧ f.payloadOffset ≤ data.length ∧
        f.payloadOffset = s.position + 16
      omega
    · cases hclose.symm.trans hfault
      have hstart : s.position ≤ f.payloadEnd := by omega
      have hend : f.payloadEnd ≤ data.length := by omega
      have havailable : f.rest.length = data.length - f.payloadEnd := by omega
      exact ⟨hstart, hend, rfl, by rw [hpayloadEnd, hstored], hcut, havailable⟩
    · cases hclose.symm.trans hrecord

/-- **A scan ends with its fault**, which points into the frame behind those of the records before
it. -/
theorem pointsIntoFrame_of_items {log : List UInt8} {validate : Bool} {records : List Record}
    {fault : Fault} {items : List (Except Fault Record)}
    (h : (start log validate).items = records.map .ok ++ .error fault :: items) :
    items = [] ∧ reached records ≤ fault.offset ∧ fault.offset ≤ log.length ∧
      fault.PointsIntoFrame log (reached records) := by
  obtain ⟨frames, more, (hlog : log = frames.flatMap WrittenFrame.bytes ++ more), -,
    (hrecords : records = WrittenFrame.records 0 frames), hitems⟩ := passed_of_items rfl h
  obtain ⟨hfault, hend⟩ := items_eq_cons_iff.mp hitems
  let s := (start log validate).past frames more
  have hreached : reached records = s.position := by
    rw [hrecords]
    exact (position_past_eq_reached log validate frames more).symm
  have hrest : log.drop s.position = s.rest := by
    rw [← hreached, hrecords, hlog]
    exact WrittenFrame.drop_reached_records frames more
  have hle : s.position ≤ log.length := by
    rw [← hreached, hrecords, WrittenFrame.reached_records, hlog, List.length_append]
    exact Nat.le_add_right _ _
  rw [hreached]
  refine ⟨?_, pointsIntoFrame_of_next hrest hle hfault⟩
  rw [items_of_fault hfault] at hitems
  exact (List.cons.inj hitems).2.symm

end Scanner

end EventLog
