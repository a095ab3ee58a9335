import EventLog.Control.Outcome
import EventLog.Proofs.Calls
import EventLog.Proofs.Wire.Field

set_option autoImplicit false

/-! # Written frames

A `WrittenFrame` has what is written as one frame: the payload with its length, a checksum, and the
bytes that fill it up to a multiple of eight. A call of the scanner gives a record exactly when a
written frame comes next (`Scanner.next_eq_ok_iff`), and it then stands behind that frame.
-/

namespace EventLog

/-- The least number of bytes that complete the given number to a multiple of eight. -/
def Completes (size fill : Nat) : Prop :=
  8 ∣ size + fill ∧ ∀ other, 8 ∣ size + other → fill ≤ other

theorem completes_iff {size fill : Nat} : Completes size fill ↔ fill = Frame.padding size := by
  unfold Completes Frame.padding Frame.alignment
  constructor
  · rintro ⟨hdvd, hleast⟩
    split
    · next hzero =>
        have := hleast 0 (by omega)
        omega
    · have := hleast (8 - size % 8) (by omega)
      omega
  · rintro rfl
    split
    · exact ⟨by omega, fun other _ => Nat.zero_le other⟩
    · exact ⟨by omega, fun other hother => by omega⟩

/-- A frame as it is written: its checksum, its payload, and the bytes of any content that fill it
up. -/
structure WrittenFrame where
  checksum : UInt32
  payload : List UInt8
  fill : List UInt8
  length_payload : payload.length < UInt32.size
  completes_fill : Completes payload.length fill.length

namespace WrittenFrame

def bytes (f : WrittenFrame) : List UInt8 :=
  Frame.magic ++ toLittleEndian 4 f.payload.length ++ toLittleEndian 4 f.checksum.toNat ++
    f.payload ++ f.fill

/-- No checksum is written, or that of the payload. -/
def Sealed (f : WrittenFrame) : Prop :=
  f.checksum = 0 ∨ f.checksum = Checksum.compute f.payload

def record (f : WrittenFrame) (offset : Nat) : Record where
  offset := offset
  payloadOffset := offset + 16
  checksum := f.checksum
  payload := f.payload

/-- The frame before the given bytes, as it is read at a position. -/
def frame (f : WrittenFrame) (offset : Nat) (more : List UInt8) : Frame where
  offset := offset
  checksum := f.checksum
  payload := f.payload
  rest := f.fill ++ more

theorem length_fill (f : WrittenFrame) : f.fill.length = Frame.padding f.payload.length :=
  completes_iff.mp f.completes_fill

theorem length_bytes (f : WrittenFrame) :
    f.bytes.length = 16 + f.payload.length + f.fill.length := by
  simp only [bytes, Frame.magic, List.length_append, List.length_replicate, length_toLittleEndian]

theorem dvd_length_bytes (f : WrittenFrame) : 8 ∣ f.bytes.length := by
  have h := f.completes_fill.1
  rw [length_bytes]
  omega

end WrittenFrame

/-! ## Reading one frame -/

/-- The four parts of a frame before its padding, by their places. -/
theorem Frame.head_split (bytes : List UInt8) :
    bytes = bytes.take 8 ++ ((bytes.drop 8).take 4 ++ ((bytes.drop 12).take 4 ++
      bytes.drop headSize)) := by
  have split4 (xs : List UInt8) : xs.take 4 ++ xs.drop 4 = xs := List.take_append_drop 4 xs
  have h12 := split4 (bytes.drop 12)
  have h8 := split4 (bytes.drop 8)
  rw [List.drop_drop] at h12 h8
  rw [headSize, h12, h8, List.take_append_drop]

theorem Frame.drop_head {length checksum : List UInt8} (hlength : length.length = 4)
    (hchecksum : checksum.length = 4) (rest : List UInt8) :
    (magic ++ (length ++ (checksum ++ rest))).drop 8 = length ++ (checksum ++ rest) ∧
      (magic ++ (length ++ (checksum ++ rest))).drop 12 = checksum ++ rest ∧
      (magic ++ (length ++ (checksum ++ rest))).drop headSize = rest := by
  have h8 : (magic ++ (length ++ (checksum ++ rest))).drop 8 = length ++ (checksum ++ rest) :=
    List.drop_left' rfl
  have h12 : (magic ++ (length ++ (checksum ++ rest))).drop 12 = checksum ++ rest := by
    rw [show 12 = 8 + 4 from rfl, ← List.drop_drop, h8, List.drop_left' hlength]
  refine ⟨h8, h12, ?_⟩
  rw [show headSize = 12 + 4 from rfl, ← List.drop_drop, h12, List.drop_left' hchecksum]

/-- Four bytes of a head are a number that they write. -/
theorem Frame.word_of_head {bytes : List UInt8} (hsize : 16 ≤ bytes.length) {n : Nat} (hn : n ≤ 12) :
    ofLittleEndian ((bytes.drop n).take 4) < UInt32.size ∧
      toLittleEndian 4 (ofLittleEndian ((bytes.drop n).take 4)) = (bytes.drop n).take 4 := by
  have hlength : ((bytes.drop n).take 4).length = 4 := by
    rw [List.length_take, List.length_drop]
    omega
  have hlt := ofLittleEndian_lt ((bytes.drop n).take 4)
  rw [hlength] at hlt
  exact ⟨hlt, ((eq_toLittleEndian_iff hlt).mpr ⟨hlength, rfl⟩).symm⟩

theorem Frame.bytes_of_read {offset : Nat} {bytes : List UInt8} {f : Frame}
    (h : Frame.read offset bytes = .ok f) :
    f.offset = offset ∧ f.payload.length < UInt32.size ∧
      bytes = magic ++ (toLittleEndian 4 f.payload.length ++ (toLittleEndian 4 f.checksum.toNat ++
        (f.payload ++ f.rest))) := by
  unfold read at h
  split at h
  · cases h
  · next hsize =>
      rw [Bool.not_eq_true', Bool.not_eq_false, hasAtLeast_iff] at hsize
      split at h
      · cases h
      · next hmagic =>
          rw [ne_eq, Decidable.not_not] at hmagic
          obtain ⟨hlt8, h8⟩ := word_of_head hsize (show 8 ≤ 12 by decide)
          obtain ⟨hlt12, h12⟩ := word_of_head hsize (Nat.le_refl 12)
          simp only at h
          split at h
          · next hpayload =>
              rw [hasAtLeast_iff] at hpayload
              cases h
              refine ⟨rfl, ?_, ?_⟩
              · rwa [List.length_take_of_le hpayload]
              · rw [List.length_take_of_le hpayload, UInt32.toNat_ofNat_of_lt' hlt12, h8, h12,
                  List.take_append_drop, ← hmagic]
                exact head_split bytes
          · cases h

theorem Frame.read_of_bytes (f : Frame) (hlt : f.payload.length < UInt32.size) :
    Frame.read f.offset (magic ++ (toLittleEndian 4 f.payload.length ++
      (toLittleEndian 4 f.checksum.toNat ++ (f.payload ++ f.rest)))) = .ok f := by
  obtain ⟨h8, h12, h16⟩ := drop_head (length_toLittleEndian 4 f.payload.length)
    (length_toLittleEndian 4 f.checksum.toNat) (f.payload ++ f.rest)
  have hsize : hasAtLeast headSize (magic ++ (toLittleEndian 4 f.payload.length ++
      (toLittleEndian 4 f.checksum.toNat ++ (f.payload ++ f.rest)))) = true := by
    rw [hasAtLeast_iff, headSize]
    simp only [magic, List.length_append, List.length_replicate, length_toLittleEndian]
    omega
  have hlength : ofLittleEndian (toLittleEndian 4 f.payload.length) = f.payload.length :=
    ofLittleEndian_toLittleEndian_of_lt hlt
  have hchecksum : ofLittleEndian (toLittleEndian 4 f.checksum.toNat) = f.checksum.toNat :=
    ofLittleEndian_toLittleEndian_of_lt f.checksum.toNat_lt
  have hpayload : hasAtLeast f.payload.length (f.payload ++ f.rest) = true := by
    rw [hasAtLeast_iff, List.length_append]
    omega
  have hmagic (rest : List UInt8) : (magic ++ rest).take 8 = magic := List.take_left' rfl
  rw [read, if_neg (by rw [hsize]; decide), if_neg fun hne => hne (hmagic _)]
  simp only [h8, h12, h16, List.take_left' (length_toLittleEndian 4 _), hlength, hchecksum,
    hpayload, if_true, List.take_left, List.drop_left, UInt32.ofNat_toNat]

/-- A frame is read exactly when its head, with the length of its payload, and its payload come
first. -/
theorem Frame.read_eq_ok_iff {offset : Nat} {bytes : List UInt8} {f : Frame} :
    Frame.read offset bytes = .ok f ↔
      f.offset = offset ∧ f.payload.length < UInt32.size ∧
      bytes = magic ++ (toLittleEndian 4 f.payload.length ++ (toLittleEndian 4 f.checksum.toNat ++
        (f.payload ++ f.rest))) := by
  constructor
  · exact bytes_of_read
  · rintro ⟨rfl, hlt, rfl⟩
    exact f.read_of_bytes hlt

/-- A frame is closed exactly when its checksum holds, where it is checked, and its padding
follows. -/
theorem Frame.close_eq_ok_iff {f : Frame} {validate : Bool} {r : Record} {next : List UInt8} :
    f.close validate = .ok (r, next) ↔
      (validate = true → f.checksumHolds = true) ∧ r = f.record ∧
      ∃ fill, fill.length = padding f.payload.length ∧ f.rest = fill ++ next := by
  unfold close
  constructor
  · intro h
    split at h
    · cases h
    · next hseal =>
        split at h
        · next hpadding =>
            rw [hasAtLeast_iff] at hpadding
            cases h
            refine ⟨?_, rfl, _, List.length_take_of_le hpadding,
              (List.take_append_drop _ _).symm⟩
            simpa using hseal
        · cases h
  · rintro ⟨hseal, rfl, fill, hfill, hrest⟩
    have hpadding : hasAtLeast (padding f.payload.length) f.rest = true := by
      rw [hasAtLeast_iff, hrest, List.length_append]
      omega
    rw [if_neg (by simpa using hseal), if_pos hpadding, hrest, List.drop_left' hfill]

/-! ## Calls of the scanner -/

namespace WrittenFrame

/-- The checksum of a frame holds exactly when none is written or that of the payload. -/
theorem checksumHolds_iff (f : WrittenFrame) {offset : Nat} {more : List UInt8} :
    (f.frame offset more).checksumHolds = true ↔ f.Sealed := by
  simp only [Frame.checksumHolds, frame, Sealed, Bool.or_eq_true, beq_iff_eq]
  exact or_congr Iff.rfl eq_comm

theorem read_bytes (f : WrittenFrame) (offset : Nat) (more : List UInt8) :
    Frame.read offset (f.bytes ++ more) = .ok (f.frame offset more) := by
  refine Frame.read_eq_ok_iff.mpr ⟨rfl, f.length_payload, ?_⟩
  simp only [bytes, frame, List.append_assoc]

end WrittenFrame

namespace Scanner

def behind (s : Scanner) (f : WrittenFrame) (more : List UInt8) : Scanner :=
  { s with
    position := s.position + f.bytes.length
    rest := more
    recordsRead := s.recordsRead + 1 }

theorem next_eq_readRecord {s : Scanner} (hlive : s.exhausted = false) (hrest : s.rest ≠ []) :
    s.next = s.readRecord := by
  have hempty : s.rest.isEmpty = false := by simpa using hrest
  rw [next, if_neg (by rw [hlive]; decide), if_neg (by rw [hempty]; decide)]

/-- What a call can do: nothing when the scanner is exhausted, stop at the end of the log or at a
fault, or pass a frame that was read and closed. -/
theorem next_cases (s : Scanner) :
    (s.exhausted = true ∧ s.next.item = none ∧ s.next.state = s) ∨
    (s.exhausted = false ∧ s.rest = [] ∧ s.next.item = none ∧ s.next.state = s.stop) ∨
    (s.exhausted = false ∧ s.rest ≠ [] ∧
      ∃ fault, s.next.item = some (.error fault) ∧ s.next.state = s.stop) ∨
    (s.exhausted = false ∧ s.rest ≠ [] ∧ ∃ frame record more,
      Frame.read s.position s.rest = .ok frame ∧ frame.close s.validate = .ok (record, more) ∧
      s.next.item = some (.ok record) ∧ s.next.state = s.pass frame more) := by
  cases hexhausted : s.exhausted with
  | true =>
      left
      rw [next, if_pos hexhausted]
      exact ⟨rfl, rfl, rfl⟩
  | false =>
      right
      by_cases hrest : s.rest = []
      · left
        rw [next, hexhausted, hrest]
        exact ⟨rfl, rfl, rfl, rfl⟩
      · right
        rw [next_eq_readRecord hexhausted hrest, readRecord]
        -- At a record: the frame cannot be read, is refused as it is closed, or is passed.
        cases hread : Frame.read s.position s.rest with
        | error fault => exact .inl ⟨rfl, hrest, fault, rfl, rfl⟩
        | ok frame =>
            cases hclose : frame.close s.validate with
            | error fault =>
                refine .inl ⟨rfl, hrest, fault, ?_, ?_⟩
                · simp only [hclose]
                · simp only [hclose]
            | ok closed =>
                refine .inr ⟨rfl, hrest, frame, closed.1, closed.2, rfl, hclose, ?_, ?_⟩
                · simp only [hclose]
                · simp only [hclose]

/-- Passing a frame that was read leads behind the written frame. -/
theorem pass_frame (s : Scanner) (f : WrittenFrame) (more : List UInt8) :
    s.pass (f.frame s.position more) more = s.behind f more := by
  have hposition : (f.frame s.position more).nextOffset = s.position + f.bytes.length := by
    rw [f.length_bytes, f.length_fill]
    simp only [Frame.nextOffset, Frame.payloadEnd, Frame.payloadOffset, WrittenFrame.frame,
      Frame.headSize]
    omega
  rw [pass, behind, hposition]

/-- A sealed frame that comes next gives its record. -/
theorem next_of_written {s : Scanner} {f : WrittenFrame} {more : List UInt8}
    (hlive : s.exhausted = false) (hrest : s.rest = f.bytes ++ more)
    (hsealed : s.validate = true → f.Sealed) :
    s.next.item = some (.ok (f.record s.position)) ∧ s.next.state = s.behind f more := by
  -- A frame has sixteen bytes at least, so the scanner is not at the end of its data.
  have hne : s.rest ≠ [] := by
    intro hnil
    have hlen := f.length_bytes
    rw [hnil] at hrest
    rw [(List.append_eq_nil_iff.mp hrest.symm).1, List.length_nil] at hlen
    omega
  have hclose : (f.frame s.position more).close s.validate =
      .ok ((f.frame s.position more).record, more) :=
    Frame.close_eq_ok_iff.mpr
      ⟨fun hv => f.checksumHolds_iff.mpr (hsealed hv), rfl, f.fill, f.length_fill, rfl⟩
  rw [next_eq_readRecord hlive hne, readRecord, hrest, f.read_bytes]
  simp only [hclose, pass_frame]
  exact ⟨rfl, trivial⟩

/-- A record is given only for a sealed frame that comes next. -/
theorem written_of_next {s : Scanner} {r : Record} (h : s.next.item = some (.ok r)) :
    s.exhausted = false ∧ ∃ (f : WrittenFrame) (more : List UInt8),
      s.rest = f.bytes ++ more ∧ (s.validate = true → f.Sealed) ∧ r = f.record s.position := by
  rcases next_cases s with ⟨-, hitem, -⟩ | ⟨-, -, hitem, -⟩ | ⟨-, -, fault, hitem, -⟩ |
    ⟨hlive, -, frame, record, more, hread, hclose, hitem, -⟩
  · rw [hitem] at h
    cases h
  · rw [hitem] at h
    cases h
  · rw [hitem] at h
    cases h
  · rw [hitem] at h
    cases h
    obtain ⟨hoffset, hlength, hbytes⟩ := Frame.read_eq_ok_iff.mp hread
    obtain ⟨hseal, hrecord, fill, hfill, hrest⟩ := Frame.close_eq_ok_iff.mp hclose
    -- The frame that was read is written back from its fields and the padding that was skipped.
    let f : WrittenFrame :=
      { checksum := frame.checksum, payload := frame.payload, fill,
        length_payload := hlength, completes_fill := completes_iff.mpr hfill }
    have hframe : f.frame s.position more = frame := by
      cases frame
      cases hoffset
      cases hrest
      rfl
    refine ⟨hlive, f, more, ?_, ?_, ?_⟩
    · rw [hbytes, hrest]
      simp only [f, WrittenFrame.bytes, List.append_assoc]
    · intro hv
      rw [← f.checksumHolds_iff, hframe]
      exact hseal hv
    · rw [hrecord, ← hframe]
      rfl

/-- **A call gives a record exactly when a written frame comes next**, one whose checksum holds
where checksums are checked; the scanner is then behind the frame. -/
theorem next_eq_ok_iff {s : Scanner} {r : Record} {after : Scanner} :
    s.next.item = some (.ok r) ∧ s.next.state = after ↔
      s.exhausted = false ∧ ∃ (f : WrittenFrame) (more : List UInt8),
        s.rest = f.bytes ++ more ∧ (s.validate = true → f.Sealed) ∧
        r = f.record s.position ∧ after = s.behind f more := by
  constructor
  · rintro ⟨hitem, rfl⟩
    obtain ⟨hlive, f, more, hrest, hsealed, rfl⟩ := written_of_next hitem
    exact ⟨hlive, f, more, hrest, hsealed, rfl, (next_of_written hlive hrest hsealed).2⟩
  · rintro ⟨hlive, f, more, hrest, hsealed, rfl, rfl⟩
    exact next_of_written hlive hrest hsealed

/-! ## The end of a scan -/

theorem next_of_exhausted {s : Scanner} (h : s.exhausted = true) :
    s.next.item = none ∧ s.next.state = s := by
  rw [next, if_pos h]
  exact ⟨rfl, rfl⟩

theorem yields_nil_of_exhausted {s : Scanner} (h : s.exhausted = true) :
    Step.Yields next s [] :=
  Step.yields_nil_of_fixed (next_of_exhausted h).1 (next_of_exhausted h).2

/-- A call that gives no record leaves the scanner exhausted. -/
theorem exhausted_of_next {s : Scanner} (h : ∀ r, s.next.item ≠ some (.ok r)) :
    s.next.state.exhausted = true := by
  rcases next_cases s with ⟨hexhausted, -, hstate⟩ | ⟨-, -, -, hstate⟩ | ⟨-, -, -, -, hstate⟩ |
    ⟨-, -, -, record, -, -, -, hitem, -⟩
  · rw [hstate, hexhausted]
  · rw [hstate]
    rfl
  · rw [hstate]
    rfl
  · exact absurd hitem (h record)

/-- A scanner that is not exhausted gives nothing exactly at the end of the log. -/
theorem next_eq_none_iff {s : Scanner} (hlive : s.exhausted = false) :
    s.next.item = none ↔ s.rest = [] := by
  rcases next_cases s with ⟨hexhausted, -, -⟩ | ⟨-, hrest, hitem, -⟩ |
    ⟨-, hrest, fault, hitem, -⟩ | ⟨-, hrest, -, record, -, -, -, hitem, -⟩
  · rw [hexhausted] at hlive
    cases hlive
  · exact iff_of_true hitem hrest
  · refine iff_of_false ?_ hrest
    rw [hitem]
    exact Option.some_ne_none _
  · refine iff_of_false ?_ hrest
    rw [hitem]
    exact Option.some_ne_none _

end Scanner

end EventLog
