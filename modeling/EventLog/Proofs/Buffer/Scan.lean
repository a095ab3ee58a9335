import EventLog.Proofs.Buffer.Place
import EventLog.Proofs.Checksum
import EventLog.Proofs.Record.Framing

set_option autoImplicit false

/-! # Scanning a buffer by positions

A `Scan` keeps the whole log and the position of the next frame. The head of a frame is taken by
three reads, each with a branch for bytes that are not there; the size of the head, which is looked
at before, has closed these branches. A scan halts with no breach, and each of its calls gives what
that of a scanner gives (`Buffer.Scan.next_eq`).
-/

namespace EventLog.Buffer

/-! ## Frames -/

/-- The `n` bytes at a position of a head; the fault would be reported if they were not there. -/
def headBytes (data : List UInt8) (start n : Nat) (fault : Fault) : Except Halt (List UInt8) := do
  match ← bytesAt data start n with
  | some bytes => .ok bytes
  | none => .error (.breach (.closedBranch fault))

/-- Reads the head of the frame at a position: the length of its payload and its checksum. -/
def readHead (data : List UInt8) (position : Nat) : Except Halt (Nat × UInt32) := do
  let remaining ← minus data.length position
  let short : Fault := .shortRead remaining Frame.headSize position
  if remaining < Frame.headSize then .error (.fault short)
  else do
    let magic ← headBytes data position 8 short
    if magic ≠ Frame.magic then .error (.fault (.framing magic position))
    else do
      let lengthOffset ← plus position 8
      let length ← headBytes data lengthOffset 4 short
      let checksumOffset ← plus lengthOffset 4
      let checksum ← headBytes data checksumOffset 4 short
      return (ofLittleEndian length, UInt32.ofNat (ofLittleEndian checksum))

/-- Reads the frame at a position up to the end of its payload. -/
def readFrame (data : List UInt8) (position : Nat) : Except Halt Record := do
  let (length, checksum) ← readHead data position
  let payloadOffset ← plus position Frame.headSize
  let available ← minus data.length payloadOffset
  let stop ← plus payloadOffset length
  match slice? data payloadOffset stop with
  | some payload => .ok { offset := position, payloadOffset, checksum, payload }
  | none => .error (.fault (.truncatedRecord (UInt32.ofNat length) available payloadOffset))

/-- Checks the payload of a record against its checksum, if there is one. -/
def checkPayload (validate : Bool) (r : Record) : Except Halt Unit :=
  if r.checksum ≠ 0 ∧ validate = true then
    let actual := Checksum.compute r.payload
    if actual ≠ r.checksum then .error (.fault (.checksum r.checksum actual r.payloadOffset))
    else .ok ()
  else .ok ()

/-- The number of padding bytes after a payload of the given size. -/
def padding (size : Nat) : Except Halt Nat :=
  if size % Frame.alignment = 0 then .ok 0 else minus Frame.alignment (size % Frame.alignment)

def positionAfter (data : List UInt8) (r : Record) : Except Halt Nat := do
  let payloadEnd ← plus r.payloadOffset r.payload.length
  let padding ← padding r.payload.length
  let next ← plus payloadEnd padding
  if data.length < next then do
    let left ← minus data.length payloadEnd
    .error (.fault (.truncated .padding payloadEnd padding left))
  else return next

/-- Checks a record and passes its padding; gives the position of the next frame. -/
def closeFrame (data : List UInt8) (validate : Bool) (r : Record) : Except Halt Nat := do
  checkPayload validate r
  positionAfter data r

/-! ## Scans -/

/-- A walk over the frames of a log: the log, the position of the next frame, the number of records
read, whether checksums are checked, and whether the walk is over. -/
structure Scan where
  data : List UInt8
  position : Nat
  recordsRead : Nat
  validate : Bool
  exhausted : Bool

namespace Scan

def start (data : List UInt8) (validate : Bool) : Scan :=
  { data, position := 0, recordsRead := 0, validate, exhausted := false }

def stop (s : Scan) : Scan := { s with exhausted := true }

def readRecord (s : Scan) : Except Halt (Record × Scan) := do
  let record ← readFrame s.data s.position
  let position ← closeFrame s.data s.validate record
  let recordsRead ← plus s.recordsRead 1
  return (record, { s with position, recordsRead })

def next (s : Scan) : Except Halt (Option (Except Fault Record) × Scan) :=
  if s.exhausted then .ok (none, s)
  else if s.position = s.data.length then .ok (none, s.stop)
  else
    match s.readRecord with
    | .ok (record, s) => .ok (some (.ok record), s)
    | .error (.fault fault) => .ok (some (.error fault), s.stop)
    | .error (.breach breach) => .error (.breach breach)

end Scan

/-! ## Progress -/

theorem payloadOffset_of_readFrame {data : List UInt8} {position : Nat} {r : Record}
    (h : readFrame data position = .ok r) : r.payloadOffset = position + Frame.headSize := by
  obtain ⟨⟨length, checksum⟩, -, h⟩ := bind_eq_ok.mp h
  obtain ⟨payloadOffset, hoffset, h⟩ := bind_eq_ok.mp h
  obtain ⟨available, -, h⟩ := bind_eq_ok.mp h
  obtain ⟨stop, -, h⟩ := bind_eq_ok.mp h
  split at h
  · cases h
    exact (plus_eq_ok hoffset).symm
  · cases h

theorem positionAfter_bounds {data : List UInt8} {r : Record} {next : Nat}
    (h : positionAfter data r = .ok next) : r.payloadOffset ≤ next ∧ next ≤ data.length := by
  obtain ⟨payloadEnd, hend, h⟩ := bind_eq_ok.mp h
  obtain ⟨padding, -, h⟩ := bind_eq_ok.mp h
  obtain ⟨after, hafter, h⟩ := bind_eq_ok.mp h
  have hend := plus_eq_ok hend
  have hafter := plus_eq_ok hafter
  split at h
  · obtain ⟨left, -, h⟩ := bind_eq_ok.mp h
    cases h
  · cases h
    omega

namespace Scan

/-- A record takes the scan further in its log. -/
theorem readRecord_forward {s t : Scan} {r : Record} (h : s.readRecord = .ok (r, t)) :
    t.data = s.data ∧ s.position < t.position ∧ t.position ≤ s.data.length := by
  obtain ⟨record, hread, h⟩ := bind_eq_ok.mp h
  obtain ⟨position, hclose, h⟩ := bind_eq_ok.mp h
  obtain ⟨-, -, hposition⟩ := bind_eq_ok.mp hclose
  obtain ⟨recordsRead, -, h⟩ := bind_eq_ok.mp h
  cases h
  have hoffset := payloadOffset_of_readFrame hread
  obtain ⟨hle, hlength⟩ := positionAfter_bounds hposition
  rw [Frame.headSize] at hoffset
  have hlt : s.position < position := by omega
  exact ⟨rfl, hlt, hlength⟩

theorem next_forward {s t : Scan} {r : Record} (h : s.next = .ok (some (.ok r), t)) :
    t.data.length - t.position < s.data.length - s.position := by
  unfold next at h
  split at h
  · cases h
  · split at h
    · cases h
    · split at h
      · next hread =>
          cases h
          obtain ⟨hdata, hlt, hle⟩ := readRecord_forward hread
          rw [hdata]
          omega
      · cases h
      · cases h

end Scan

/-! ## Frames in a buffer -/

section Frames

variable {data : List UInt8} {position : Nat}

theorem headBytes_eq {start n : Nat} (hlt : data.length < 2 ^ 63) (hle : start + n ≤ data.length)
    (fault : Fault) : headBytes data start n fault = .ok ((data.drop start).take n) := by
  rw [headBytes, bytesAt_of_lt (by omega), slice?_of_le hle]
  rfl

/-- Where sixteen bytes are left, the three reads of a head find their bytes. -/
theorem readHead_eq (hlt : data.length < 2 ^ 63) (hle : position ≤ data.length) :
    readHead data position =
      let bytes := data.drop position
      if !hasAtLeast Frame.headSize bytes then
        .error (.fault (.shortRead bytes.length Frame.headSize position))
      else if bytes.take 8 ≠ Frame.magic then .error (.fault (.framing (bytes.take 8) position))
      else .ok (ofLittleEndian ((bytes.drop 8).take 4),
        UInt32.ofNat (ofLittleEndian ((bytes.drop 12).take 4))) := by
  have hrest : (data.drop position).length = data.length - position := List.length_drop
  dsimp only
  rw [readHead, minus_of_le hle, ok_bind]
  -- The code compares with a difference, which is checked: the position is never past the end.
  by_cases hshort : data.length - position < Frame.headSize
  · have hcut : hasAtLeast Frame.headSize (data.drop position) = false := by
      rw [← Bool.not_eq_true, hasAtLeast_iff, hrest]
      omega
    rw [if_pos hshort, hcut, hrest]
    rfl
  · have hhead : hasAtLeast Frame.headSize (data.drop position) = true := by
      rw [hasAtLeast_iff, hrest]
      omega
    have hroom : position + 16 ≤ data.length := by
      rw [Frame.headSize] at hshort
      omega
    rw [if_neg hshort, hhead, headBytes_eq hlt (by omega), ok_bind, Bool.not_true,
      if_neg Bool.false_ne_true]
    split
    · rfl
    · rw [plus_of_lt (by omega), ok_bind, headBytes_eq hlt (by omega), ok_bind,
        plus_of_lt (by omega), ok_bind, headBytes_eq hlt (by omega), List.drop_drop, List.drop_drop]
      rfl

/-- A frame is read at its position as it is read from the bytes there. -/
theorem readFrame_eq (hlt : data.length < 2 ^ 63) (hle : position ≤ data.length) :
    readFrame data position =
      ((Frame.read position (data.drop position)).map Frame.record).mapError .fault := by
  rw [readFrame, readHead_eq hlt hle, Frame.read]
  dsimp only
  split
  · rfl
  · next hhead =>
    split
    · rfl
    · rw [Bool.not_eq_true', Bool.not_eq_false, hasAtLeast_iff, List.length_drop] at hhead
      have hoffset : position + Frame.headSize ≤ data.length := by
        rw [Frame.headSize] at hhead ⊢
        omega
      rw [ok_bind]
      dsimp only
      rw [plus_of_lt (by omega), ok_bind, minus_of_le hoffset, ok_bind]
      -- The length is read from four bytes, so it is below 2³² and adding it cannot overflow.
      generalize hlength : ofLittleEndian (((data.drop position).drop 8).take 4) = length
      have hsize : length < 2 ^ 32 := by
        rw [← hlength]
        exact Checksum.ofLittleEndian_lt_size (List.length_take_le 4 _)
      rw [plus_of_lt (by omega), ok_bind]
      have hbytes : ((data.drop position).drop Frame.headSize).length =
          data.length - (position + Frame.headSize) := by
        rw [List.length_drop, List.length_drop, Nat.sub_sub]
      by_cases hroom : position + Frame.headSize + length ≤ data.length
      · rw [slice?_of_le hroom, if_pos (by rw [hasAtLeast_iff, hbytes]; omega),
          ← List.drop_drop]
        rfl
      · rw [slice?_of_lt (Nat.not_le.mp hroom), if_neg (by rw [hasAtLeast_iff, hbytes]; omega),
          hbytes]
        rfl

/-- The bytes behind a frame that was read from a position. -/
theorem rest_of_read {f : Frame} (h : Frame.read position (data.drop position) = .ok f) :
    f.offset = position ∧ f.payloadEnd ≤ data.length ∧ f.rest = data.drop f.payloadEnd := by
  obtain ⟨rfl, -, hbytes⟩ := Frame.read_eq_ok_iff.mp h
  have hlength := Frame.length_rest_of_read h
  rw [List.length_drop] at hlength
  refine ⟨rfl, ?_, ?_⟩
  · rw [Frame.payloadEnd, Frame.payloadOffset, Frame.headSize] at *
    omega
  · -- The frame's bytes are its magic, two numbers and the payload, `headSize` in front of it.
    have hfront : (Frame.magic ++ (toLittleEndian 4 f.payload.length ++
        (toLittleEndian 4 f.checksum.toNat ++ f.payload))).length =
        Frame.headSize + f.payload.length := by
      simp only [List.length_append, length_toLittleEndian, Frame.magic, List.length_replicate,
        Frame.headSize]
      omega
    rw [Frame.payloadEnd, Frame.payloadOffset, Nat.add_assoc, ← List.drop_drop, hbytes, ← hfront]
    simp only [← List.append_assoc, List.drop_left]

theorem padding_eq (size : Nat) : padding size = .ok (Frame.padding size) := by
  unfold padding Frame.padding
  split
  · rfl
  · exact minus_of_le (Nat.le_of_lt (Nat.mod_lt size (by decide)))

theorem checkPayload_eq (validate : Bool) (f : Frame) :
    checkPayload validate f.record =
      if validate && !f.checksumHolds then
        .error (.fault (.checksum f.checksum (Checksum.compute f.payload) f.payloadOffset))
      else .ok () := by
  unfold checkPayload Frame.checksumHolds
  -- A checksum of zero means that none was stored, whatever the settings are.
  cases validate with
  | false => rw [if_neg fun h => Bool.false_ne_true h.2]; rfl
  | true =>
      by_cases hzero : f.checksum = 0
      · rw [if_neg fun h => h.1 hzero, hzero]
        rfl
      · rw [if_pos ⟨hzero, rfl⟩]
        have hnone : (f.checksum == 0) = false := beq_eq_false_iff_ne.mpr hzero
        have hpayload : f.record.payload = f.payload := rfl
        have hchecksum : f.record.checksum = f.checksum := rfl
        rw [hpayload, hchecksum, hnone, Bool.false_or]
        by_cases hsame : Checksum.compute f.payload = f.checksum
        · rw [if_neg (not_not.mpr hsame), hsame, beq_self_eq_true]
          rfl
        · rw [if_pos hsame, beq_eq_false_iff_ne.mpr hsame]
          rfl

theorem positionAfter_eq {f : Frame} (hlt : data.length < 2 ^ 63) (hle : f.payloadEnd ≤ data.length)
    (hrest : f.rest = data.drop f.payloadEnd) :
    positionAfter data f.record =
      if hasAtLeast (Frame.padding f.payload.length) f.rest then .ok f.nextOffset
      else .error (.fault (.truncated .padding f.payloadEnd (Frame.padding f.payload.length)
        f.rest.length)) := by
  have hpadding : Frame.padding f.payload.length < 8 := by
    unfold Frame.padding Frame.alignment
    split <;> omega
  have hlength : f.rest.length = data.length - f.payloadEnd := by rw [hrest, List.length_drop]
  unfold positionAfter
  -- Each of the three sums is below 2⁶³ plus 2³², the subtraction is guarded by the comparison.
  have hend : plus f.record.payloadOffset f.record.payload.length = .ok f.payloadEnd := by
    have hsum : f.record.payloadOffset + f.record.payload.length = f.payloadEnd := rfl
    rw [plus_of_lt (by omega), hsum]
  have hpayload : f.record.payload = f.payload := rfl
  rw [hend, ok_bind, hpayload, padding_eq, ok_bind, plus_of_lt (by omega), ok_bind]
  show (if data.length < f.nextOffset then _ else _) = _
  by_cases hroom : data.length < f.nextOffset
  · have hcut : ¬ hasAtLeast (Frame.padding f.payload.length) f.rest = true := by
      rw [hasAtLeast_iff, hlength]
      rw [Frame.nextOffset] at hroom
      omega
    rw [if_pos hroom, if_neg hcut, minus_of_le hle, hlength]
    rfl
  · have hfill : hasAtLeast (Frame.padding f.payload.length) f.rest = true := by
      rw [hasAtLeast_iff, hlength]
      rw [Frame.nextOffset] at hroom
      omega
    rw [if_neg hroom, if_pos hfill]
    rfl

/-- A frame is closed at its position as it is closed before the bytes behind it. -/
theorem closeFrame_cases {f : Frame} (hlt : data.length < 2 ^ 63) (hle : f.payloadEnd ≤ data.length)
    (hrest : f.rest = data.drop f.payloadEnd) (validate : Bool) :
    (∃ fault, closeFrame data validate f.record = .error (.fault fault) ∧
      f.close validate = .error fault) ∨
    (closeFrame data validate f.record = .ok f.nextOffset ∧ f.nextOffset ≤ data.length ∧
      f.close validate = .ok (f.record, data.drop f.nextOffset)) := by
  rw [closeFrame, checkPayload_eq, Frame.close]
  by_cases hseal : (validate && !f.checksumHolds) = true
  · rw [if_pos hseal, if_pos hseal]
    exact .inl ⟨_, rfl, rfl⟩
  rw [if_neg hseal, if_neg hseal, positionAfter_eq hlt hle hrest]
  by_cases hfill : hasAtLeast (Frame.padding f.payload.length) f.rest = true
  · rw [if_pos hfill, if_pos hfill, hrest, List.drop_drop]
    refine .inr ⟨rfl, ?_, rfl⟩
    rw [hasAtLeast_iff, hrest, List.length_drop] at hfill
    rw [Frame.nextOffset]
    omega
  · rw [if_neg hfill, if_neg hfill]
    exact .inl ⟨_, rfl, rfl⟩

end Frames

/-! ## Scans that stay in range -/

namespace Scan

def scanner (s : Scan) : Scanner where
  position := s.position
  rest := s.data.drop s.position
  recordsRead := s.recordsRead
  validate := s.validate
  exhausted := s.exhausted

/-- The scan stands in its log, which has a size that a byte string can have, and it has read no
more records than it has passed bytes. -/
structure Sound (s : Scan) : Prop where
  position_le : s.position ≤ s.data.length
  length_lt : s.data.length < 2 ^ 63
  recordsRead_le : s.recordsRead ≤ s.position

theorem sound_start {data : List UInt8} (h : data.length < 2 ^ 63) (validate : Bool) :
    (start data validate).Sound := ⟨Nat.zero_le _, h, Nat.le_refl 0⟩

theorem Sound.stop {s : Scan} (hs : s.Sound) : s.stop.Sound :=
  ⟨hs.position_le, hs.length_lt, hs.recordsRead_le⟩

/-- What is read at a position is what a scanner reads there. A record has its payload in the log,
and takes the scan further. -/
theorem readRecord_cases {s : Scan} (hs : s.Sound) :
    (∃ fault, s.readRecord = .error (.fault fault) ∧
      s.scanner.readRecord.item = some (.error fault) ∧
      s.scanner.readRecord.state = s.stop.scanner) ∨
    ∃ r t, s.readRecord = .ok (r, t) ∧ s.scanner.readRecord.item = some (.ok r) ∧
      s.scanner.readRecord.state = t.scanner ∧ t.Sound ∧ s.position < t.position ∧
      r.payloadOffset + r.payload.length ≤ s.data.length := by
  have hread : Frame.read s.scanner.position s.scanner.rest =
      Frame.read s.position (s.data.drop s.position) := rfl
  have hvalidate : s.scanner.validate = s.validate := rfl
  rw [readRecord, readFrame_eq hs.length_lt hs.position_le, Scanner.readRecord, hread]
  -- Either the frame cannot be read, or it can and is then refused or accepted as it is closed.
  cases hframe : Frame.read s.position (s.data.drop s.position) with
  | error fault => exact .inl ⟨fault, rfl, rfl, rfl⟩
  | ok f =>
      obtain ⟨hoffset, hend, hrest⟩ := rest_of_read hframe
      have hrecord : Except.mapError Halt.fault ((Except.ok f).map Frame.record) =
        .ok f.record := rfl
      dsimp only
      rw [hrecord, ok_bind, hvalidate]
      rcases closeFrame_cases hs.length_lt hend hrest s.validate with
        ⟨fault, hclose, hclosed⟩ | ⟨hclose, hle, hclosed⟩
      · rw [hclose, hclosed]
        exact .inl ⟨fault, rfl, rfl, rfl⟩
      · -- A frame has at least sixteen bytes, so the number of records stays below the
        -- position.
        have hforward : s.position + 16 ≤ f.nextOffset := by
          rw [Frame.nextOffset, Frame.payloadEnd, Frame.payloadOffset, hoffset, Frame.headSize]
          omega
        have hbound := hs.recordsRead_le
        have hlt := hs.length_lt
        rw [hclose, hclosed]
        refine .inr ⟨f.record, { s with position := f.nextOffset, recordsRead := s.recordsRead + 1 },
          ?_, rfl, rfl, ⟨hle, hlt, ?_⟩, ?_, hend⟩
        · rw [ok_bind, plus_of_lt (by omega)]
          rfl
        · show s.recordsRead + 1 ≤ f.nextOffset
          omega
        · show s.position < f.nextOffset
          omega

/-- **A scan halts with no breach**: each call gives what that of a scanner gives. -/
theorem next_eq {s : Scan} (hs : s.Sound) :
    ∃ t, s.next = .ok (s.scanner.next.item, t) ∧ s.scanner.next.state = t.scanner ∧ t.Sound ∧
      s.position ≤ t.position ∧
      ∀ r, s.scanner.next.item = some (.ok r) →
        s.position < t.position ∧ r.payloadOffset + r.payload.length < 2 ^ 63 := by
  -- The three cases of `next`: already over, at the end of the data, or at a record.
  by_cases hexhausted : s.exhausted = true
  · have hscanner : s.scanner.next = ⟨none, s.scanner, []⟩ := if_pos hexhausted
    rw [hscanner]
    exact ⟨s, if_pos hexhausted, rfl, hs, Nat.le_refl _, nofun⟩
  have hrest : s.scanner.rest.isEmpty = true ↔ s.position = s.data.length := by
    have hle := hs.position_le
    have hlength : s.scanner.rest.length = s.data.length - s.position := List.length_drop
    rw [List.isEmpty_iff, ← List.length_eq_zero_iff, hlength]
    omega
  by_cases hend : s.position = s.data.length
  · have hscanner : s.scanner.next = ⟨none, s.stop.scanner, [_]⟩ :=
      (if_neg hexhausted).trans (if_pos (hrest.mpr hend))
    rw [hscanner]
    exact ⟨s.stop, (if_neg hexhausted).trans (if_pos hend), rfl, hs.stop, Nat.le_refl _, nofun⟩
  have hscanner : s.scanner.next = s.scanner.readRecord :=
    (if_neg hexhausted).trans (if_neg (mt hrest.mp hend))
  rw [hscanner, next, if_neg hexhausted, if_neg hend]
  rcases readRecord_cases hs with
    ⟨fault, hread, hitem, hstate⟩ | ⟨r, t, hread, hitem, hstate, ht, hlt, hroom⟩
  · rw [hread, hitem, hstate]
    exact ⟨s.stop, rfl, rfl, hs.stop, Nat.le_refl _, nofun⟩
  · rw [hread, hitem, hstate]
    refine ⟨t, rfl, rfl, ht, Nat.le_of_lt hlt, fun r' hr' => ?_⟩
    cases hr'
    exact ⟨hlt, Nat.lt_of_le_of_lt hroom hs.length_lt⟩

end Scan

end EventLog.Buffer
