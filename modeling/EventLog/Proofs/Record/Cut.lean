import EventLog.Proofs.Record.Fault
import Mathlib.Order.Bounds.Basic

set_option autoImplicit false

/-! # Scanning a log that was cut

A log whose end is missing loses the record that was cut and no other: the records whose frames are
whole are given as before, and where the cut is inside a frame one fault says in which of its parts
(`Scanner.yields_take`).
-/

namespace EventLog

/-- The fault of a record whose frame is cut at a position of the log: in its head, in its payload
or in its padding. -/
def Record.cutFault (r : Record) (position : Nat) : Fault :=
  let left := position - r.offset
  let size := r.payload.length
  if left < 16 then .shortRead left 16 r.offset
  else if left < 16 + size then
    .truncatedRecord (UInt32.ofNat size) (left - 16) (r.offset + 16)
  else .truncated .padding (r.offset + 16 + size) (Frame.padding size) (left - 16 - size)

namespace WrittenFrame

/-! ## A frame that is cut -/

theorem bytes_eq (f : WrittenFrame) :
    f.bytes = Frame.magic ++ (toLittleEndian 4 f.payload.length ++
      (toLittleEndian 4 f.checksum.toNat ++ (f.payload ++ f.fill))) := by
  simp only [bytes, List.append_assoc]

theorem take_take_bytes (f : WrittenFrame) {n : Nat} (h : 8 ≤ n) :
    (f.bytes.take n).take 8 = Frame.magic := by
  rw [List.take_take, Nat.min_eq_left h, bytes_eq]
  exact List.take_left' rfl

/-- The length of the payload stands in the head. -/
theorem storedLength_take_bytes (f : WrittenFrame) {n : Nat} (h : 12 ≤ n) :
    Frame.storedLength (f.bytes.take n) = f.payload.length := by
  have hlength : (toLittleEndian 4 f.payload.length).length = 4 := length_toLittleEndian 4 _
  have hbytes : f.bytes.drop 8 = toLittleEndian 4 f.payload.length ++
      (toLittleEndian 4 f.checksum.toNat ++ (f.payload ++ f.fill)) := by
    rw [bytes_eq]
    exact List.drop_left' rfl
  have hmin : min 4 (n - 8) = 4 := by omega
  rw [Frame.storedLength, List.drop_take, List.take_take, hmin, hbytes, List.take_left' hlength,
    ofLittleEndian_toLittleEndian_of_lt f.length_payload]

/-- A frame whose payload is whole is read, whatever is left of its padding. -/
theorem read_take_bytes (f : WrittenFrame) (offset : Nat) {n : Nat} (h : 16 + f.payload.length ≤ n) :
    Frame.read offset (f.bytes.take n) =
      .ok ⟨offset, f.checksum, f.payload, f.fill.take (n - (16 + f.payload.length))⟩ := by
  have hbytes : f.bytes = (Frame.magic ++ (toLittleEndian 4 f.payload.length ++
      (toLittleEndian 4 f.checksum.toNat ++ f.payload))) ++ f.fill := by
    simp only [bytes, List.append_assoc]
  have hlength : (Frame.magic ++ (toLittleEndian 4 f.payload.length ++
      (toLittleEndian 4 f.checksum.toNat ++ f.payload))).length = 16 + f.payload.length := by
    simp only [Frame.magic, List.length_append, List.length_replicate, length_toLittleEndian]
    omega
  refine Frame.read_eq_ok_iff.mpr ⟨rfl, f.length_payload, ?_⟩
  rw [hbytes, List.take_append, List.take_of_length_le (Nat.le_trans (Nat.le_of_eq hlength) h),
    hlength]
  simp only [List.append_assoc]

theorem read_of_cut_head (f : WrittenFrame) (offset : Nat) {n : Nat} (hlt : n < f.bytes.length)
    (hhead : n < 16) :
    Frame.read offset (f.bytes.take n) = .error (.shortRead n 16 offset) := by
  have hlength : (f.bytes.take n).length = n := List.length_take_of_le (Nat.le_of_lt hlt)
  -- Of the four outcomes of reading a head, a cut head allows the first only.
  rcases Frame.read_cases offset (f.bytes.take n) with
    ⟨-, hread⟩ | ⟨hsize, -⟩ | ⟨hsize, -⟩ | ⟨-, g, hread, -⟩
  · rw [hread, hlength]
  · omega
  · omega
  · have hwhole := Frame.length_rest_of_read hread
    rw [Frame.headSize] at hwhole
    omega

theorem read_of_cut_payload (f : WrittenFrame) (offset : Nat) {n : Nat} (hlt : n < f.bytes.length)
    (hhead : 16 ≤ n) (hpayload : n < 16 + f.payload.length) :
    Frame.read offset (f.bytes.take n) =
      .error (.truncatedRecord (UInt32.ofNat f.payload.length) (n - 16) (offset + 16)) := by
  have hlength : (f.bytes.take n).length = n := List.length_take_of_le (Nat.le_of_lt hlt)
  have hmagic := f.take_take_bytes (show 8 ≤ n by omega)
  have hstored := f.storedLength_take_bytes (show 12 ≤ n by omega)
  rcases Frame.read_cases offset (f.bytes.take n) with
    ⟨hsize, -⟩ | ⟨-, hunmarked, -⟩ | ⟨-, -, -, hread⟩ | ⟨-, g, hread, hg⟩
  · omega
  · exact absurd hmagic hunmarked
  · rw [hread, hstored, hlength]
  · have hwhole := Frame.length_rest_of_read hread
    rw [Frame.headSize] at hwhole
    omega

/-- A frame with less than its padding is not closed. -/
theorem close_of_cut_padding (f : WrittenFrame) (offset : Nat) {rest : List UInt8}
    (hshort : rest.length < f.fill.length) {validate : Bool} (hsealed : validate = true → f.Sealed) :
    (Frame.mk offset f.checksum f.payload rest).close validate =
      .error (.truncated .padding (offset + 16 + f.payload.length) (Frame.padding f.payload.length)
        rest.length) := by
  rcases Frame.close_cases ⟨offset, f.checksum, f.payload, rest⟩ validate with
    ⟨hv, hunsealed, -⟩ | ⟨-, hclose⟩ | ⟨more, hclose⟩
  · have hholds : (f.frame offset []).checksumHolds = true := f.checksumHolds_iff.mpr (hsealed hv)
    cases hunsealed.symm.trans hholds
  · exact hclose
  · obtain ⟨-, -, fill, hlength, hwhole⟩ := Frame.close_eq_ok_iff.mp hclose
    have hcount : rest.length = (fill ++ more).length := congrArg List.length hwhole
    have hfill : fill.length = f.fill.length := hlength.trans f.length_fill.symm
    rw [List.length_append] at hcount
    omega

end WrittenFrame

namespace Scanner

/-- A frame that comes next and is cut gives the fault of its record. -/
theorem next_of_cut {s : Scanner} {f : WrittenFrame} {n : Nat} (hlive : s.exhausted = false)
    (hrest : s.rest = f.bytes.take n) (hpos : 0 < n) (hlt : n < f.bytes.length)
    (hsealed : s.validate = true → f.Sealed) :
    s.next.item = some (.error ((f.record s.position).cutFault (s.position + n))) := by
  have hne : s.rest ≠ [] := by
    rw [hrest]
    exact List.ne_nil_of_length_pos (by rwa [List.length_take_of_le (Nat.le_of_lt hlt)])
  refine next_eq_error_iff.mpr ⟨hlive, hne, ?_⟩
  have hleft : s.position + n - s.position = n := Nat.add_sub_cancel_left _ _
  simp only [Record.cutFault, WrittenFrame.record, hleft, hrest]
  -- The cut is in the head, in the payload or in the padding, and each has a fault of its own.
  by_cases hhead : n < 16
  · rw [if_pos hhead]
    exact .inl (f.read_of_cut_head s.position hlt hhead)
  rw [if_neg hhead]
  by_cases hpayload : n < 16 + f.payload.length
  · rw [if_pos hpayload]
    exact .inl (f.read_of_cut_payload s.position hlt (Nat.le_of_not_lt hhead) hpayload)
  · rw [if_neg hpayload]
    rw [f.length_bytes] at hlt
    have hleft : (f.fill.take (n - (16 + f.payload.length))).length = n - 16 - f.payload.length := by
      rw [List.length_take]
      omega
    refine .inr ⟨_, f.read_take_bytes s.position (Nat.le_of_not_lt hpayload), ?_⟩
    rw [f.close_of_cut_padding s.position (by omega) hsealed, hleft]

end Scanner

/-! ## The place of a cut -/

namespace WrittenFrame

theorem records_append (offset : Nat) (front back : List WrittenFrame) :
    records offset (front ++ back) =
      records offset front ++ records (offset + (front.flatMap bytes).length) back := by
  induction front generalizing offset with
  | nil => rfl
  | cons f front ih =>
      rw [List.cons_append, records, records, ih, List.cons_append, List.flatMap_cons,
        List.length_append, Nat.add_assoc]

/-- A position in a log is between two of its frames or inside one of them. -/
theorem exists_cut {frames : List WrittenFrame} {position : Nat}
    (h : position ≤ (frames.flatMap bytes).length) :
    (∃ front back, frames = front ++ back ∧ position = (front.flatMap bytes).length) ∨
      ∃ front f back n, frames = front ++ f :: back ∧ 0 < n ∧ n < f.bytes.length ∧
        position = (front.flatMap bytes).length + n := by
  -- On the frames: a position is in the first, or behind it and shifted by its length.
  induction frames generalizing position with
  | nil => exact .inl ⟨[], [], rfl, Nat.le_zero.mp h⟩
  | cons f frames ih =>
      rw [List.flatMap_cons, List.length_append] at h
      by_cases hfirst : position < f.bytes.length
      · by_cases hzero : position = 0
        · exact .inl ⟨[], f :: frames, rfl, hzero⟩
        · exact .inr ⟨[], f, frames, position, rfl, Nat.pos_of_ne_zero hzero, hfirst,
            (Nat.zero_add position).symm⟩
      · have hwithin : position - f.bytes.length ≤ (frames.flatMap bytes).length := by omega
        rcases ih hwithin with
          ⟨front, back, rfl, hposition⟩ | ⟨front, g, back, n, rfl, hpos, hlt, hposition⟩
        · refine .inl ⟨f :: front, back, rfl, ?_⟩
          rw [List.flatMap_cons, List.length_append]
          omega
        · refine .inr ⟨f :: front, g, back, n, rfl, hpos, hlt, ?_⟩
          rw [List.flatMap_cons, List.length_append]
          omega

theorem frameEnd_le_of_mem_records {offset : Nat} {frames : List WrittenFrame} {r : Record}
    (h : r ∈ records offset frames) : r.frameEnd ≤ offset + (frames.flatMap bytes).length := by
  induction frames generalizing offset with
  | nil => cases h
  | cons f frames ih =>
      rw [List.flatMap_cons, List.length_append]
      rw [records, List.mem_cons] at h
      rcases h with rfl | hmem
      · rw [f.frameEnd_record]
        omega
      · have := ih hmem
        omega

theorem lt_frameEnd_of_mem_records {offset : Nat} {frames : List WrittenFrame} {r : Record}
    (h : r ∈ records offset frames) : offset < r.frameEnd := by
  induction frames generalizing offset with
  | nil => cases h
  | cons f frames ih =>
      have hpos := List.length_pos_iff.mpr f.bytes_ne_nil
      rw [records, List.mem_cons] at h
      rcases h with rfl | hmem
      · rw [f.frameEnd_record]
        omega
      · have := ih hmem
        omega

theorem le_frameEnd_of_mem_records {offset : Nat} {f : WrittenFrame} {frames : List WrittenFrame}
    {r : Record} (h : r ∈ records offset (f :: frames)) : offset + f.bytes.length ≤ r.frameEnd := by
  rw [records, List.mem_cons] at h
  rcases h with rfl | hmem
  · exact Nat.le_of_eq (f.frameEnd_record offset).symm
  · exact Nat.le_of_lt (lt_frameEnd_of_mem_records hmem)

/-- Each frame starts where the one before it ends. -/
theorem map_offset_records (offset : Nat) (frames : List WrittenFrame) :
    (records offset frames).map Record.offset =
      (offset :: (records offset frames).map Record.frameEnd).dropLast := by
  induction frames generalizing offset with
  | nil => rfl
  | cons f frames ih =>
      rw [records, List.map_cons, List.map_cons, f.frameEnd_record, List.dropLast_cons_cons, ← ih]
      rfl

theorem pairwise_boundaries (offset : Nat) (frames : List WrittenFrame) :
    (offset :: (records offset frames).map Record.frameEnd).Pairwise (· < ·) := by
  induction frames generalizing offset with
  | nil => exact List.pairwise_singleton _ _
  | cons f frames ih =>
      have hpos := List.length_pos_iff.mpr f.bytes_ne_nil
      refine List.pairwise_cons.mpr ⟨?_, ?_⟩
      · intro b hb
        obtain ⟨r, hr, rfl⟩ := List.mem_map.mp hb
        exact lt_frameEnd_of_mem_records hr
      · rw [records, List.map_cons, f.frameEnd_record]
        exact ih (offset + f.bytes.length)

/-- The records of a log whose frames end at or before a position between two of its frames. -/
theorem filter_records_append {front back : List WrittenFrame} {position : Nat}
    (hfront : (front.flatMap bytes).length ≤ position)
    (hback : ∀ r ∈ records (front.flatMap bytes).length back, position < r.frameEnd) :
    (records 0 (front ++ back)).filter (fun r => r.frameEnd ≤ position) = records 0 front := by
  have hwhole : (records 0 front).filter (fun r => r.frameEnd ≤ position) = records 0 front := by
    refine List.filter_eq_self.mpr fun r hr => ?_
    have := frameEnd_le_of_mem_records hr
    exact decide_eq_true (by omega)
  have hnone : (records (front.flatMap bytes).length back).filter
      (fun r => r.frameEnd ≤ position) = [] := by
    refine List.filter_eq_nil_iff.mpr fun r hr => ?_
    have := hback r hr
    simp only [decide_eq_true_eq, Nat.not_le]
    exact this
  rw [records_append, Nat.zero_add, List.filter_append, hwhole, hnone, List.append_nil]

/-- The frames before a cut end at a boundary, and no other boundary lies between it and the cut. -/
theorem mem_boundaries_append {front back : List WrittenFrame} {b : Nat} :
    b ∈ boundaries (records 0 (front ++ back)) ↔
      b ∈ boundaries (records 0 front) ∨
        ∃ r ∈ records (front.flatMap bytes).length back, r.frameEnd = b := by
  rw [records_append, Nat.zero_add]
  simp only [boundaries, List.map_append, List.mem_cons, List.mem_append, List.mem_map, or_assoc]

theorem length_mem_boundaries (front : List WrittenFrame) :
    (front.flatMap bytes).length ∈ boundaries (records 0 front) := by
  rw [← reached_records]
  exact List.getLastD_mem_cons

theorem le_of_mem_boundaries {front : List WrittenFrame} {b : Nat}
    (h : b ∈ boundaries (records 0 front)) : b ≤ (front.flatMap bytes).length := by
  rw [boundaries, List.mem_cons, List.mem_map] at h
  rcases h with rfl | ⟨r, hr, rfl⟩
  · exact Nat.zero_le _
  · have := frameEnd_le_of_mem_records hr
    omega

/-- No boundary lies inside a frame, so that its start is the last boundary before a cut in it. -/
theorem isGreatest_boundaries (front back : List WrittenFrame) {f : WrittenFrame} {n : Nat}
    (hpos : 0 < n) (hlt : n < f.bytes.length) :
    (front.flatMap bytes).length + n ∉ boundaries (records 0 (front ++ f :: back)) ∧
      IsGreatest {b | b ∈ boundaries (records 0 (front ++ f :: back)) ∧
        b < (front.flatMap bytes).length + n} (front.flatMap bytes).length := by
  -- No boundary lies strictly inside a frame.
  have haround : ∀ b ∈ boundaries (records 0 (front ++ f :: back)),
      b ≤ (front.flatMap bytes).length ∨ (front.flatMap bytes).length + n < b := by
    intro b hb
    rcases mem_boundaries_append.mp hb with hfront | ⟨r, hr, rfl⟩
    · exact .inl (le_of_mem_boundaries hfront)
    · have := le_frameEnd_of_mem_records hr
      exact .inr (by omega)
  refine ⟨fun hmem => ?_, ⟨?_, ?_⟩, ?_⟩
  · have := haround _ hmem
    omega
  · exact mem_boundaries_append.mpr (.inl (length_mem_boundaries front))
  · exact Nat.lt_add_of_pos_right hpos
  · rintro b ⟨hb, hbefore⟩
    have := haround b hb
    omega

end WrittenFrame

/-! ## Scans of a cut log -/

namespace Scanner

/-- A cut inside a frame leaves the records before it and ends the scan with its fault. -/
theorem items_of_cut {front : List WrittenFrame} {f : WrittenFrame} {validate : Bool} {n : Nat}
    (hpos : 0 < n) (hlt : n < f.bytes.length)
    (hsealed : validate = true → ∀ g ∈ f :: front, g.Sealed) :
    (start (front.flatMap WrittenFrame.bytes ++ f.bytes.take n) validate).items =
      (WrittenFrame.records 0 front).map .ok ++
        [.error ((f.record (front.flatMap WrittenFrame.bytes).length).cutFault
          ((front.flatMap WrittenFrame.bytes).length + n))] := by
  refine items_start_of_fault (fun hv g hg => hsealed hv g (List.mem_cons_of_mem f hg)) ?_
  rw [next_of_cut rfl rfl hpos hlt fun hv => hsealed hv f List.mem_cons_self, position_past_start]

/-- **A cut loses only the record that is cut.** Let a log be scanned without a fault, so that its
frames tile it between their boundaries. A scan of its first bytes gives exactly the records whose
frames are whole. Between two frames it then ends; inside a frame it ends with the fault of the
record that starts at the last boundary before the cut, found in the part of the frame that is
cut. -/
theorem yields_take {log : List UInt8} {validate : Bool} {records : List Record}
    (h : Step.Yields next (start log validate) (records.map .ok)) {m : Nat} (hm : m ≤ log.length) :
    ((boundaries records).Pairwise (· < ·) ∧ (boundaries records).getLast? = some log.length ∧
      records.map Record.offset = (boundaries records).dropLast) ∧
    (m ∈ boundaries records →
      Step.Yields next (start (log.take m) validate)
        ((records.filter fun r => r.frameEnd ≤ m).map .ok)) ∧
    (m ∉ boundaries records →
      ∃ r ∈ records, IsGreatest {b | b ∈ boundaries records ∧ b < m} r.offset ∧
        r.payload.length < UInt32.size ∧
        Step.Yields next (start (log.take m) validate)
          ((records.filter fun r => r.frameEnd ≤ m).map .ok ++ [.error (r.cutFault m)])) := by
  obtain ⟨frames, rfl, hsealed, rfl⟩ := items_start_eq_iff.mp (yields_iff.mp h)
  simp only [yields_iff]
  refine ⟨⟨WrittenFrame.pairwise_boundaries 0 frames, ?_, WrittenFrame.map_offset_records 0 frames⟩,
    ?_⟩
  · rw [boundaries, List.getLast?_cons, ← List.getLastD_eq_getLast?,
      WrittenFrame.getLastD_frameEnd_records, Nat.zero_add]
  rcases WrittenFrame.exists_cut hm with
    ⟨front, back, rfl, rfl⟩ | ⟨front, f, back, n, rfl, hpos, hlt, rfl⟩
  · -- The cut is at a boundary.
    have hfilter := WrittenFrame.filter_records_append (Nat.le_refl _) fun r
      (hr : r ∈ WrittenFrame.records (front.flatMap WrittenFrame.bytes).length back) =>
        WrittenFrame.lt_frameEnd_of_mem_records hr
    rw [hfilter, List.flatMap_append, List.take_left]
    refine ⟨fun _ => ?_, fun hnot => ?_⟩
    · refine items_start_eq_iff.mpr ⟨front, rfl, fun hv g hg => ?_, rfl⟩
      exact hsealed hv g (List.mem_append_left back hg)
    · exact absurd (WrittenFrame.mem_boundaries_append.mpr
        (.inl (WrittenFrame.length_mem_boundaries front))) hnot
  · -- The cut is inside the frame `f`.
    obtain ⟨hnot, hgreatest⟩ := WrittenFrame.isGreatest_boundaries front back hpos hlt
    refine ⟨fun hmem => absurd hmem hnot, fun _ => ⟨f.record _, ?_, hgreatest, f.length_payload, ?_⟩⟩
    · rw [WrittenFrame.records_append, Nat.zero_add]
      exact List.mem_append_right _ List.mem_cons_self
    · have hafter : ∀ r ∈ WrittenFrame.records (front.flatMap WrittenFrame.bytes).length (f :: back),
          (front.flatMap WrittenFrame.bytes).length + n < r.frameEnd := fun r hr =>
        Nat.lt_of_lt_of_le (Nat.add_lt_add_left hlt _) (WrittenFrame.le_frameEnd_of_mem_records hr)
      rw [WrittenFrame.filter_records_append (Nat.le_add_right _ n) hafter,
        List.flatMap_append, List.flatMap_cons, List.take_length_add_append,
        List.take_append_of_le_length (Nat.le_of_lt hlt)]
      refine items_of_cut hpos hlt fun hv g hg => hsealed hv g ?_
      rcases List.mem_cons.mp hg with rfl | hg
      · exact List.mem_append_right front List.mem_cons_self
      · exact List.mem_append_left _ hg

def batchEndFrame : WrittenFrame where
  checksum := 0
  payload := List.replicate 8 0
  fill := []
  length_payload := by decide
  completes_fill := completes_iff.mpr rfl

/-- A frame of three bytes, which five more fill up. -/
def paddedFrame : WrittenFrame where
  checksum := Checksum.compute [1, 2, 3]
  payload := [1, 2, 3]
  fill := [0, 0, 0, 0, 0]
  length_payload := by decide
  completes_fill := completes_iff.mpr rfl

/-- A log of these two frames, of which the second one starts at position 24. -/
def paddedLog : List UInt8 := [batchEndFrame, paddedFrame].flatMap WrittenFrame.bytes

theorem yields_take_padding :
    Step.Yields next (start paddedLog true)
        ((WrittenFrame.records 0 [batchEndFrame, paddedFrame]).map .ok) ∧
      45 ≤ paddedLog.length ∧
      Step.Yields next (start (paddedLog.take 45) true)
        [.ok (batchEndFrame.record 0), .error (.truncated .padding 43 5 2)] := by
  have h : Step.Yields next (start paddedLog true)
      ((WrittenFrame.records 0 [batchEndFrame, paddedFrame]).map .ok) := by
    refine yields_iff.mpr (items_start_eq_iff.mpr ⟨_, rfl, fun _ => ?_, rfl⟩)
    exact List.forall_mem_cons.mpr ⟨.inl rfl, List.forall_mem_cons.mpr ⟨.inr rfl, nofun⟩⟩
  have hm : 45 ≤ paddedLog.length := by decide
  obtain ⟨-, -, hcut⟩ := yields_take h hm
  obtain ⟨r, hr, hgreatest, -, hyields⟩ := hcut (by decide)
  have h24 : 24 ≤ r.offset := hgreatest.2 (by decide)
  rcases List.mem_cons.mp hr with rfl | hr
  · exact absurd h24 (by decide)
  · rw [List.mem_singleton.mp hr] at hyields
    exact ⟨h, hm, hyields⟩

end Scanner

end EventLog
