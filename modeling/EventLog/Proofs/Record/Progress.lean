import EventLog.Proofs.Record.Cut

set_option autoImplicit false

/-! # The progress of a scan

A scanner that has given some records stands behind their frames, which are what the log begins with
(`Scanner.HasPassed`). So its position, its number of records and what is left of the log follow
from the records that it has given.
-/

namespace EventLog

namespace WrittenFrame

/-- A frame has sixteen bytes at least. -/
theorem sixteen_mul_length_le (frames : List WrittenFrame) :
    16 * frames.length ≤ (frames.flatMap bytes).length := by
  induction frames with
  | nil => exact Nat.zero_le _
  | cons f frames ih =>
      rw [List.length_cons, List.flatMap_cons, List.length_append, f.length_bytes]
      omega

theorem dvd_length_flatMap_bytes (frames : List WrittenFrame) :
    8 ∣ (frames.flatMap bytes).length := by
  induction frames with
  | nil => exact Nat.dvd_zero 8
  | cons f frames ih =>
      rw [List.flatMap_cons, List.length_append]
      exact Nat.dvd_add f.dvd_length_bytes ih

/-- Each record starts behind those before it. -/
theorem pairwise_offset_records (offset : Nat) (frames : List WrittenFrame) :
    ((records offset frames).map Record.offset).Pairwise (· < ·) := by
  rw [map_offset_records]
  exact (pairwise_boundaries offset frames).sublist (List.dropLast_sublist _)

end WrittenFrame

namespace Scanner

/-- The scanner stands behind the frames of some records, with which the log begins. -/
def HasPassed (log : List UInt8) (seen : List Record) (s : Scanner) : Prop :=
  ∃ frames : List WrittenFrame, log = frames.flatMap WrittenFrame.bytes ++ s.rest ∧
    (s.validate = true → ∀ f ∈ frames, f.Sealed) ∧ seen = WrittenFrame.records 0 frames ∧
    s.position = (frames.flatMap WrittenFrame.bytes).length ∧ s.recordsRead = frames.length

variable {log : List UInt8} {seen : List Record} {s : Scanner}

theorem hasPassed_start (log : List UInt8) (validate : Bool) :
    (start log validate).HasPassed log [] :=
  ⟨[], rfl, fun _ => List.forall_mem_nil _, rfl, rfl, rfl⟩

theorem HasPassed.stop (h : s.HasPassed log seen) : s.stop.HasPassed log seen := h

/-- A record that is given is one more that the scanner has passed. -/
theorem HasPassed.concat {r : Record} (h : s.HasPassed log seen)
    (hitem : s.next.item = some (.ok r)) : s.next.state.HasPassed log (seen ++ [r]) := by
  obtain ⟨frames, hlog, hsealed, rfl, hposition, hcount⟩ := h
  obtain ⟨-, f, more, hrest, hf, rfl, hstate⟩ := next_eq_ok_iff.mp ⟨hitem, rfl⟩
  rw [hstate]
  -- The frame just read joins those passed; every count grows by what it adds.
  refine ⟨frames ++ [f], ?_, fun hv => ?_, ?_, ?_, ?_⟩
  · rw [List.flatMap_append, List.flatMap_singleton, List.append_assoc, hlog, hrest]
    rfl
  · exact List.forall_mem_append.mpr ⟨hsealed hv, List.forall_mem_singleton.mpr (hf hv)⟩
  · rw [WrittenFrame.records_append, Nat.zero_add, hposition]
    rfl
  · rw [List.flatMap_append, List.flatMap_singleton, List.length_append, ← hposition]
    rfl
  · rw [List.length_append, ← hcount]
    rfl

/-- A call that gives no record passes nothing. -/
theorem HasPassed.of_no_record (h : s.HasPassed log seen)
    (hitem : ∀ r, s.next.item ≠ some (.ok r)) : s.next.state.HasPassed log seen := by
  rcases next_cases s with ⟨-, -, hstate⟩ | ⟨-, -, -, hstate⟩ | ⟨-, -, -, -, hstate⟩ |
    ⟨-, -, -, r, -, -, -, hrecord, -⟩
  · rwa [hstate]
  · rw [hstate]
    exact h.stop
  · rw [hstate]
    exact h.stop
  · exact absurd hrecord (hitem r)

/-! ## What follows from the records -/

theorem HasPassed.recordsRead_eq (h : s.HasPassed log seen) : s.recordsRead = seen.length := by
  obtain ⟨frames, -, -, rfl, -, hcount⟩ := h
  rw [hcount, WrittenFrame.length_records]

/-- The scanner stands at the end of the last frame that it has passed. -/
theorem HasPassed.position_eq (h : s.HasPassed log seen) : s.position = reached seen := by
  obtain ⟨frames, -, -, rfl, hposition, -⟩ := h
  rw [hposition, WrittenFrame.reached_records]

theorem HasPassed.logSize_eq (h : s.HasPassed log seen) : s.logSize = log.length := by
  obtain ⟨frames, hlog, -, -, hposition, -⟩ := h
  rw [logSize, hposition, hlog, List.length_append]

theorem HasPassed.position_le (h : s.HasPassed log seen) : s.position ≤ log.length := by
  rw [← h.logSize_eq]
  exact Nat.le_add_right _ _

theorem HasPassed.dvd_position (h : s.HasPassed log seen) : 8 ∣ s.position := by
  obtain ⟨frames, -, -, -, hposition, -⟩ := h
  rw [hposition]
  exact WrittenFrame.dvd_length_flatMap_bytes frames

theorem HasPassed.sixteen_mul_recordsRead_le (h : s.HasPassed log seen) :
    16 * s.recordsRead ≤ s.position := by
  obtain ⟨frames, -, -, -, hposition, hcount⟩ := h
  rw [hposition, hcount]
  exact WrittenFrame.sixteen_mul_length_le frames

theorem HasPassed.pairwise_offset (h : s.HasPassed log seen) :
    (seen.map Record.offset).Pairwise (· < ·) := by
  obtain ⟨frames, -, -, rfl, -, -⟩ := h
  exact WrittenFrame.pairwise_offset_records 0 frames

/-- The records that the scanner has passed are the first ones of the log. -/
theorem HasPassed.prefix_items (h : s.HasPassed log seen) :
    seen.map .ok <+: (start log s.validate).items := by
  obtain ⟨frames, hlog, hsealed, rfl, -, -⟩ := h
  have hitems : (start log s.validate).items = _ := items_of_written rfl hlog hsealed
  rw [hitems]
  exact List.prefix_append _ _

end Scanner

end EventLog
