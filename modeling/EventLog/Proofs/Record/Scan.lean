import EventLog.Proofs.Record.Framing
import Mathlib.Logic.ExistsUnique

set_option autoImplicit false

/-! # The records of a log

The framing grammar: a log is scanned without a fault exactly when written frames follow one
another in it without anything between, before or after them (`Scanner.yields_records_iff`). The
frames of a log are then determined by its bytes, and each byte belongs to the frame of one record.
-/

namespace EventLog

/-! ## Frames one after another -/

namespace WrittenFrame

/-- The records of frames that follow one another from the given position. -/
def records : Nat → List WrittenFrame → List Record
  | _, [] => []
  | offset, f :: frames => f.record offset :: records (offset + f.bytes.length) frames

theorem length_records (offset : Nat) (frames : List WrittenFrame) :
    (records offset frames).length = frames.length := by
  induction frames generalizing offset with
  | nil => rfl
  | cons f frames ih => rw [records, List.length_cons, List.length_cons, ih]

/-- The record of each frame starts where the frames before it end. -/
theorem getElem?_records (offset : Nat) (frames : List WrittenFrame) (i : Nat) :
    (records offset frames)[i]? =
      frames[i]?.map fun f => f.record (offset + ((frames.take i).flatMap bytes).length) := by
  induction frames generalizing offset i with
  | nil => rfl
  | cons f frames ih =>
      cases i with
      | zero => rfl
      | succ i =>
          rw [records, List.getElem?_cons_succ, List.getElem?_cons_succ, List.take_succ_cons,
            List.flatMap_cons, List.length_append, ih, Nat.add_assoc]

/-- Each record by its number: it starts where the frames before its own end. -/
theorem eq_records_iff {read : List Record} {frames : List WrittenFrame} :
    read = records 0 frames ↔
      ∀ i : Nat, read[i]? =
        frames[i]?.map fun f => f.record ((frames.take i).flatMap bytes).length := by
  constructor
  · rintro rfl i
    rw [getElem?_records]
    simp only [Nat.zero_add]
  · intro h
    apply List.ext_getElem?
    intro i
    rw [h i, getElem?_records]
    simp only [Nat.zero_add]

/-- A frame that comes first is determined by the bytes, and so is what follows it. -/
theorem bytes_append_inj {f g : WrittenFrame} {more more' : List UInt8}
    (h : f.bytes ++ more = g.bytes ++ more') : f = g ∧ more = more' := by
  -- A frame is what its bytes are read as, whatever stands behind them.
  have hread := f.read_bytes 0 more
  rw [h, g.read_bytes] at hread
  obtain ⟨-, hchecksum, hpayload, hrest⟩ := Frame.mk.inj (Except.ok.inj hread.symm)
  -- The padding is not read, but its length is that of equal payloads.
  have hlength : f.fill.length = g.fill.length := by
    rw [f.length_fill, g.length_fill, hpayload]
  obtain ⟨hfill, hmore⟩ := List.append_inj hrest hlength
  refine ⟨?_, hmore⟩
  cases f
  cases g
  cases hchecksum
  cases hpayload
  cases hfill
  rfl

theorem bytes_ne_nil (f : WrittenFrame) : f.bytes ≠ [] := by
  intro hnil
  have hlength := f.length_bytes
  rw [hnil, List.length_nil] at hlength
  omega

/-- Frames that follow one another are determined by the bytes. -/
theorem flatMap_bytes_inj {frames frames' : List WrittenFrame}
    (h : frames.flatMap bytes = frames'.flatMap bytes) : frames = frames' := by
  induction frames generalizing frames' with
  | nil =>
      cases frames' with
      | nil => rfl
      | cons g frames' => exact absurd (List.append_eq_nil_iff.mp h.symm).1 g.bytes_ne_nil
  | cons f frames ih =>
      cases frames' with
      | nil => exact absurd (List.append_eq_nil_iff.mp h).1 f.bytes_ne_nil
      | cons g frames' =>
          rw [List.flatMap_cons, List.flatMap_cons] at h
          obtain ⟨rfl, hrest⟩ := bytes_append_inj h
          rw [ih hrest]

end WrittenFrame

/-! ## The places of records -/

def Record.frameEnd (r : Record) : Nat :=
  r.payloadOffset + r.payload.length + Frame.padding r.payload.length

def Record.Covers (r : Record) (position : Nat) : Prop :=
  r.offset ≤ position ∧ position < r.frameEnd

namespace WrittenFrame

theorem frameEnd_record (f : WrittenFrame) (offset : Nat) :
    (f.record offset).frameEnd = offset + f.bytes.length := by
  rw [f.length_bytes, f.length_fill]
  simp only [Record.frameEnd, record]
  omega

theorem offset_le_of_mem_records {offset : Nat} {frames : List WrittenFrame} {r : Record}
    (h : r ∈ records offset frames) : offset ≤ r.offset := by
  induction frames generalizing offset with
  | nil => cases h
  | cons f frames ih =>
      rw [records, List.mem_cons] at h
      rcases h with rfl | hmem
      · exact Nat.le_refl offset
      · have := ih hmem
        omega

/-- Frames start at multiples of eight when the first one does. -/
theorem dvd_offset_of_mem_records {offset : Nat} {frames : List WrittenFrame} {r : Record}
    (hoffset : 8 ∣ offset) (h : r ∈ records offset frames) : 8 ∣ r.offset := by
  induction frames generalizing offset with
  | nil => cases h
  | cons f frames ih =>
      rw [records, List.mem_cons] at h
      rcases h with rfl | hmem
      · exact hoffset
      · exact ih (Nat.dvd_add hoffset f.dvd_length_bytes) hmem

/-- Every byte of the frames belongs to exactly one of them. -/
theorem existsUnique_covers {offset : Nat} {frames : List WrittenFrame} {position : Nat}
    (hlower : offset ≤ position)
    (hupper : position < offset + (frames.flatMap bytes).length) :
    ∃! i : Nat, ∃ r, (records offset frames)[i]? = some r ∧ r.Covers position := by
  induction frames generalizing offset with
  | nil =>
      rw [List.flatMap_nil, List.length_nil] at hupper
      omega
  | cons f frames ih =>
      rw [List.flatMap_cons, List.length_append] at hupper
      -- The byte is in the first frame or behind it, and never both.
      by_cases hfirst : position < offset + f.bytes.length
      · refine ⟨0, ⟨f.record offset, rfl, hlower, ?_⟩, ?_⟩
        · rwa [f.frameEnd_record]
        · rintro (_ | i) ⟨r, hget, hcovers⟩
          · rfl
          · rw [records, List.getElem?_cons_succ] at hget
            have hbehind := offset_le_of_mem_records (List.mem_of_getElem? hget)
            have hstart := hcovers.1
            omega
      · have hbehind : offset + f.bytes.length ≤ position := by omega
        have hend : position < offset + f.bytes.length + (frames.flatMap bytes).length := by omega
        obtain ⟨i, ⟨r, hget, hcovers⟩, hunique⟩ := ih hbehind hend
        refine ⟨i + 1, ⟨r, hget, hcovers⟩, ?_⟩
        rintro (_ | j) ⟨r', hget', hcovers'⟩
        · cases hget'
          have hend := hcovers'.2
          rw [f.frameEnd_record] at hend
          omega
        · rw [hunique j ⟨r', hget', hcovers'⟩]

end WrittenFrame

/-! ## Whole scans -/

namespace Scanner

/-- The items that a scanner gives: records, and last a fault if there is one. -/
def items (s : Scanner) : List (Except Fault Record) :=
  match _h : s.next with
  | { item := some (.ok record), state := after, notices := _ } => .ok record :: after.items
  | { item := some (.error fault), state := _, notices := _ } => [.error fault]
  | { item := none, state := _, notices := _ } => []
termination_by s.rest.length
decreasing_by
  have hitem : s.next.item = some (.ok record) := by rw [_h]
  have hlt := length_rest_next hitem
  rw [_h] at hlt
  simp only at hlt
  omega

theorem items_of_record {s : Scanner} {r : Record} (h : s.next.item = some (.ok r)) :
    s.items = .ok r :: s.next.state.items := by
  rw [items]
  split
  · next hnext =>
      rw [hnext] at h ⊢
      cases h
      rfl
  · next hnext =>
      rw [hnext] at h
      cases h
  · next hnext =>
      rw [hnext] at h
      cases h

theorem items_of_fault {s : Scanner} {fault : Fault}
    (h : s.next.item = some (.error fault)) : s.items = [.error fault] := by
  rw [items]
  split
  · next hnext =>
      rw [hnext] at h
      cases h
  · next hnext =>
      rw [hnext] at h
      cases h
      rfl
  · next hnext =>
      rw [hnext] at h
      cases h

theorem items_of_end {s : Scanner} (h : s.next.item = none) : s.items = [] := by
  rw [items]
  split
  · next hnext =>
      rw [hnext] at h
      cases h
  · next hnext =>
      rw [hnext] at h
      cases h
  · rfl

/-- The calls of a scanner give its items, and nothing from then on. -/
theorem yields_items (s : Scanner) : Step.Yields next s s.items := by
  -- A record is followed by the items behind it; anything else exhausts the scanner.
  cases hitem : s.next.item with
  | none =>
      rw [items_of_end hitem]
      have hend : s.next.state.exhausted = true := by
        apply exhausted_of_next
        intro r hr
        rw [hitem] at hr
        cases hr
      exact Step.yields_nil_of_next hitem (yields_nil_of_exhausted hend)
  | some item =>
      cases item with
      | error fault =>
          rw [items_of_fault hitem]
          have hend : s.next.state.exhausted = true := by
            apply exhausted_of_next
            intro r hr
            rw [hitem] at hr
            cases hr
          exact Step.yields_cons_iff.mpr ⟨hitem, yields_nil_of_exhausted hend⟩
      | ok r =>
          have hlt := length_rest_next hitem
          rw [items_of_record hitem]
          exact Step.yields_cons_iff.mpr ⟨hitem, yields_items s.next.state⟩
termination_by s.rest.length

theorem yields_iff {s : Scanner} {items : List (Except Fault Record)} :
    Step.Yields next s items ↔ s.items = items :=
  ⟨fun h => s.yields_items.unique h, fun h => h ▸ s.yields_items⟩

def past (s : Scanner) (frames : List WrittenFrame) (more : List UInt8) : Scanner :=
  { s with
    position := s.position + (frames.flatMap WrittenFrame.bytes).length
    rest := more
    recordsRead := s.recordsRead + frames.length }

/-- The position behind frames that a log begins with. -/
theorem position_past_start (log : List UInt8) (validate : Bool) (frames : List WrittenFrame)
    (more : List UInt8) :
    ((start log validate).past frames more).position =
      (frames.flatMap WrittenFrame.bytes).length := Nat.zero_add _

theorem past_cons (s : Scanner) (f : WrittenFrame) (frames : List WrittenFrame)
    (middle more : List UInt8) :
    (s.behind f middle).past frames more = s.past (f :: frames) more := by
  simp only [behind, past, List.flatMap_cons, List.length_append, List.length_cons, Nat.add_assoc,
    Nat.add_comm 1]

/-- Written frames are scanned one after another, whatever follows them. -/
theorem items_of_written {s : Scanner} {frames : List WrittenFrame} {more : List UInt8}
    (hlive : s.exhausted = false) (hrest : s.rest = frames.flatMap WrittenFrame.bytes ++ more)
    (hsealed : s.validate = true → ∀ f ∈ frames, f.Sealed) :
    s.items = (WrittenFrame.records s.position frames).map .ok ++ (s.past frames more).items := by
  -- On the frames: what stands behind the first is again frames followed by `more`.
  induction frames generalizing s with
  | nil =>
      have hpast : s.past [] more = s := by
        rw [past, show more = s.rest from hrest.symm]
        rfl
      rw [hpast]
      rfl
  | cons f frames ih =>
      rw [List.flatMap_cons, List.append_assoc] at hrest
      obtain ⟨hitem, hstate⟩ :=
        next_of_written hlive hrest fun hv => hsealed hv f List.mem_cons_self
      rw [items_of_record hitem, hstate,
        ih (s := s.behind f (frames.flatMap WrittenFrame.bytes ++ more)) hlive rfl
          fun hv g hg => hsealed hv g (List.mem_cons_of_mem f hg),
        past_cons]
      rfl

/-- Frames that a log begins with give their records, and a fault behind them ends the scan. -/
theorem items_start_of_fault {frames : List WrittenFrame} {more : List UInt8} {validate : Bool}
    {fault : Fault} (hsealed : validate = true → ∀ f ∈ frames, f.Sealed)
    (h : ((start (frames.flatMap WrittenFrame.bytes ++ more) validate).past frames more).next.item =
      some (.error fault)) :
    (start (frames.flatMap WrittenFrame.bytes ++ more) validate).items =
      (WrittenFrame.records 0 frames).map .ok ++ [.error fault] := by
  have hscan : (start (frames.flatMap WrittenFrame.bytes ++ more) validate).items = _ :=
    items_of_written rfl rfl hsealed
  rw [hscan, items_of_fault h]
  rfl

/-- The first item is that of the next call, and the others are those of the scanner after it. -/
theorem items_eq_cons_iff {s : Scanner} {item : Except Fault Record}
    {items : List (Except Fault Record)} :
    s.items = item :: items ↔ s.next.item = some item ∧ s.next.state.items = items := by
  rw [← yields_iff, Step.yields_cons_iff, yields_iff]

/-- A scanner has nothing to give exactly at the end of the log. -/
theorem items_eq_nil_iff {s : Scanner} (hlive : s.exhausted = false) :
    s.items = [] ↔ s.rest = [] := by
  rw [← next_eq_none_iff hlive]
  constructor
  · intro h
    have hyields := s.yields_items
    rw [h] at hyields
    exact hyields 0
  · exact items_of_end

/-- The records that a scan begins with are those of written frames that come next; the items after
them are given behind these frames. -/
theorem passed_of_items {s : Scanner} {records : List Record} {items : List (Except Fault Record)}
    (hlive : s.exhausted = false) (h : s.items = records.map .ok ++ items) :
    ∃ (frames : List WrittenFrame) (more : List UInt8),
      s.rest = frames.flatMap WrittenFrame.bytes ++ more ∧
      (s.validate = true → ∀ f ∈ frames, f.Sealed) ∧
      records = WrittenFrame.records s.position frames ∧ (s.past frames more).items = items := by
  -- On the records: each came from a frame at the scanner's position, which it then left.
  induction records generalizing s with
  | nil =>
      refine ⟨[], s.rest, rfl, ?_, rfl, h⟩
      intro _ f hf
      cases hf
  | cons r records ih =>
      rw [List.map_cons, List.cons_append, items_eq_cons_iff] at h
      obtain ⟨hitem, hitems⟩ := h
      obtain ⟨-, f, middle, hrest, hsealed, rfl, hstate⟩ := next_eq_ok_iff.mp ⟨hitem, rfl⟩
      rw [hstate] at hitems
      obtain ⟨frames, more, hmiddle, hall, rfl, hpast⟩ := ih (s := s.behind f middle) hlive hitems
      rw [past_cons] at hpast
      refine ⟨f :: frames, more, ?_, ?_, rfl, hpast⟩
      · rw [hrest, List.flatMap_cons, List.append_assoc, ← hmiddle]
        rfl
      · intro hv
        exact List.forall_mem_cons.mpr ⟨hsealed hv, hall hv⟩

/-- A scan without a fault has passed written frames alone. -/
theorem written_of_items {s : Scanner} {records : List Record} (hlive : s.exhausted = false)
    (h : s.items = records.map .ok) :
    ∃ frames : List WrittenFrame, s.rest = frames.flatMap WrittenFrame.bytes ∧
      (s.validate = true → ∀ f ∈ frames, f.Sealed) ∧
      records = WrittenFrame.records s.position frames := by
  rw [← List.append_nil (records.map _)] at h
  obtain ⟨frames, more, hrest, hsealed, hrecords, hend⟩ := passed_of_items hlive h
  have hmore : more = [] := (items_eq_nil_iff (s := s.past frames more) hlive).mp hend
  rw [hmore, List.append_nil] at hrest
  exact ⟨frames, hrest, hsealed, hrecords⟩

theorem items_start_eq_iff {log : List UInt8} {validate : Bool} {records : List Record} :
    (start log validate).items = records.map .ok ↔
      ∃ frames : List WrittenFrame, log = frames.flatMap WrittenFrame.bytes ∧
        (validate = true → ∀ f ∈ frames, f.Sealed) ∧
        records = WrittenFrame.records 0 frames := by
  constructor
  · exact written_of_items rfl
  · rintro ⟨frames, rfl, hsealed, rfl⟩
    have hrest : (start (frames.flatMap WrittenFrame.bytes) validate).rest =
        frames.flatMap WrittenFrame.bytes ++ [] := (List.append_nil _).symm
    rw [items_of_written rfl hrest hsealed, items_of_end ((next_eq_none_iff rfl).mpr rfl),
      List.append_nil]
    rfl

/-- **The framing grammar.** A scan of a log gives records and no fault exactly when the log is
made of written frames, sealed ones where checksums are checked, and the records are theirs, each
at the place where the frames before its own end. There is one way at most to divide a log into
frames; each byte of the log belongs to the frame of one record, and all frames start at multiples
of eight. -/
theorem yields_records_iff (log : List UInt8) (validate : Bool) (records : List Record) :
    (Step.Yields next (start log validate) (records.map .ok) ↔
      ∃ frames : List WrittenFrame, log = frames.flatMap WrittenFrame.bytes ∧
        (validate = true → ∀ f ∈ frames, f.Sealed) ∧
        ∀ i : Nat, records[i]? = frames[i]?.map fun f =>
          f.record ((frames.take i).flatMap WrittenFrame.bytes).length) ∧
    (∀ frames frames' : List WrittenFrame, log = frames.flatMap WrittenFrame.bytes →
      log = frames'.flatMap WrittenFrame.bytes → frames = frames') ∧
    (Step.Yields next (start log validate) (records.map .ok) →
      (∀ position < log.length, ∃! i : Nat, ∃ r, records[i]? = some r ∧ r.Covers position) ∧
      ∀ r ∈ records, 8 ∣ r.offset) := by
  refine ⟨?_, ?_, ?_⟩
  · simp only [← WrittenFrame.eq_records_iff]
    exact yields_iff.trans items_start_eq_iff
  · rintro frames frames' rfl h
    exact WrittenFrame.flatMap_bytes_inj h
  · intro h
    obtain ⟨frames, rfl, -, rfl⟩ := items_start_eq_iff.mp (yields_iff.mp h)
    refine ⟨?_, ?_⟩
    · intro position hposition
      exact WrittenFrame.existsUnique_covers (Nat.zero_le position) (by omega)
    · intro r hr
      exact WrittenFrame.dvd_offset_of_mem_records (Nat.dvd_zero 8) hr

end Scanner

end EventLog
