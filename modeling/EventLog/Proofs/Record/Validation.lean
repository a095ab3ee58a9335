import EventLog.Proofs.Record.Fault

set_option autoImplicit false

/-! # Scanning without checking checksums

A scan that checks no checksums gives what a scan that checks them gives, up to the first record
whose stored checksum is not that of its payload (`Scanner.yields_unchecked`). There the one ends,
while the other goes on, unless the padding of this record is cut off.
-/

namespace EventLog

def Record.Intact (r : Record) : Prop :=
  r.checksum = 0 ∨ r.checksum = Checksum.compute r.payload

namespace Frame

/-- A checksum is stored, and it is not that of the payload. -/
def Mismatched (f : Frame) : Prop :=
  f.checksum ≠ 0 ∧ Checksum.compute f.payload ≠ f.checksum

theorem checksumHolds_eq_false_iff {f : Frame} : f.checksumHolds = false ↔ f.Mismatched := by
  simp only [checksumHolds, Mismatched, Bool.or_eq_false_iff, beq_eq_false_iff_ne, ne_eq]

/-- Checking makes no difference to a frame whose checksum holds. -/
theorem close_of_holds {f : Frame} (h : f.checksumHolds = true) (validate : Bool) :
    f.close validate = f.close false := by
  have hcheck : (validate && !f.checksumHolds) = false := by
    rw [h]
    exact Bool.and_false validate
  rw [close, close, hcheck]
  rfl

theorem close_of_mismatched {f : Frame} (h : f.checksumHolds = false) :
    f.close true =
      .error (.checksum f.checksum (Checksum.compute f.payload) f.payloadOffset) := by
  rw [close, h]
  rfl

end Frame

theorem WrittenFrame.intact_of_mem_records {offset : Nat} {frames : List WrittenFrame} {r : Record}
    (hsealed : ∀ f ∈ frames, f.Sealed) (h : r ∈ records offset frames) : r.Intact := by
  induction frames generalizing offset with
  | nil => cases h
  | cons f frames ih =>
      rw [List.forall_mem_cons] at hsealed
      rw [records, List.mem_cons] at h
      rcases h with rfl | hmem
      · exact hsealed.1
      · exact ih hsealed.2 hmem

namespace Scanner

/-- A scan gives records, and last a fault if there is one. -/
theorem exists_items_eq (s : Scanner) :
    ∃ (records : List Record) (fault : Option Fault),
      s.items = records.map .ok ++ (fault.map .error).toList := by
  cases hitem : s.next.item with
  | none => exact ⟨[], none, items_of_end hitem⟩
  | some item =>
      cases item with
      | error fault => exact ⟨[], some fault, items_of_fault hitem⟩
      | ok r =>
          have hlt := length_rest_next hitem
          obtain ⟨records, fault, hitems⟩ := exists_items_eq s.next.state
          refine ⟨r :: records, fault, ?_⟩
          rw [items_of_record hitem, hitems]
          rfl
termination_by s.rest.length

/-- The records before the fault of a scan stand in their places whatever comes behind them. -/
theorem getElem?_records_append {records : List Record} {fault : Option Fault} {i : Nat}
    {r : Record}
    (h : (records.map .ok ++ (fault.map .error).toList : List (Except Fault Record))[i]? =
      some (.ok r)) (more : List (Except Fault Record)) :
    (records.map .ok ++ more)[i]? = some (.ok r) := by
  by_cases hi : i < (records.map .ok : List (Except Fault Record)).length
  · rw [List.getElem?_append_left hi] at h ⊢
    exact h
  · rw [List.getElem?_append_right (Nat.le_of_not_lt hi)] at h
    obtain ⟨fault', -, heq⟩ := Option.map_eq_some_iff.mp
      (Option.mem_toList.mp (List.mem_of_getElem? h))
    cases heq

/-- The scanner at the same place that checks no checksums. -/
def unchecked (s : Scanner) : Scanner := { s with validate := false }

/-- A frame at which a scan with checking ends is at fault without it too, unless its checksum does
not hold: then it gives its record, or the fault of its padding. -/
theorem next_unchecked_of_fault {s : Scanner} {fault : Fault} (hvalidate : s.validate = true)
    (h : s.next.item = some (.error fault)) :
    s.unchecked.next.item = some (.error fault) ∨
    ∃ f : Frame, Frame.read s.position s.rest = .ok f ∧ f.Mismatched ∧
      fault = .checksum f.checksum (Checksum.compute f.payload) f.payloadOffset ∧
      (s.unchecked.next.item = some (.ok f.record) ∨
        f.rest.length < Frame.padding f.payload.length ∧
          s.unchecked.next.item = some (.error (.truncated .padding f.payloadEnd
            (Frame.padding f.payload.length) f.rest.length))) := by
  obtain ⟨hlive, hrest, hread | ⟨f, hread, hclose⟩⟩ := next_eq_error_iff.mp h
  · exact .inl (next_eq_error_iff.mpr ⟨hlive, hrest, .inl hread⟩)
  have hunchecked {fault : Fault} (hclose : f.close false = .error fault) :
      s.unchecked.next.item = some (.error fault) :=
    next_eq_error_iff.mpr ⟨hlive, hrest, .inr ⟨f, hread, hclose⟩⟩
  rw [hvalidate] at hclose
  cases hholds : f.checksumHolds with
  | true =>
      rw [Frame.close_of_holds hholds] at hclose
      exact .inl (hunchecked hclose)
  | false =>
      rw [Frame.close_of_mismatched hholds] at hclose
      refine .inr ⟨f, hread, Frame.checksumHolds_eq_false_iff.mp hholds,
        (Except.error.inj hclose).symm, ?_⟩
      -- The padding of the frame is looked at only where its checksum is not.
      rcases f.close_cases false with ⟨hcheck, -⟩ | ⟨hcut, hfault⟩ | ⟨more, hrecord⟩
      · cases hcheck
      · exact .inr ⟨hcut, hunchecked hfault⟩
      · left
        have hnext : s.unchecked.next = s.unchecked.readRecord := next_eq_readRecord hlive hrest
        have hread' : Frame.read s.unchecked.position s.unchecked.rest = .ok f := hread
        rw [hnext, readRecord, hread']
        simp only [unchecked, hrecord]

/-- Without checking, a scan gives the records that it gives with checking, all of which are intact;
behind them comes the same fault, if any, or what a frame gives whose checksum does not hold. -/
theorem exists_items_unchecked (log : List UInt8) :
    ∃ (records : List Record) (fault : Option Fault) (items : List (Except Fault Record)),
      (start log true).items = records.map .ok ++ (fault.map .error).toList ∧
      (start log false).items = records.map .ok ++ items ∧ (∀ r ∈ records, r.Intact) ∧
      (items = (fault.map .error).toList ∨
        ∃ f : Frame, Frame.read (reached records) (log.drop (reached records)) = .ok f ∧
          f.Mismatched ∧
          fault = some (.checksum f.checksum (Checksum.compute f.payload) f.payloadOffset) ∧
          ((∃ more, items = .ok f.record :: more) ∨
            f.rest.length < Frame.padding f.payload.length ∧
              items = [.error (.truncated .padding f.payloadEnd (Frame.padding f.payload.length)
                f.rest.length)])) := by
  -- The frames that pass with checking pass without it, which leaves both scans in one place.
  obtain ⟨records, fault, hitems⟩ := exists_items_eq (start log true)
  obtain ⟨frames, more, (hlog : log = frames.flatMap WrittenFrame.bytes ++ more), hsealed,
    (hrecords : records = WrittenFrame.records 0 frames), hlast⟩ := passed_of_items rfl hitems
  let s := (start log true).past frames more
  have hposition : s.position = reached records := by
    rw [hrecords]
    exact position_past_eq_reached log true frames more
  have hrest : s.rest = log.drop (reached records) := by
    rw [hrecords, hlog]
    exact (WrittenFrame.drop_reached_records frames more).symm
  refine ⟨records, fault, s.unchecked.items, hitems, ?_, ?_, ?_⟩
  · rw [hrecords]
    exact items_of_written rfl hlog fun h => absurd h Bool.false_ne_true
  · rw [hrecords]
    exact fun r => WrittenFrame.intact_of_mem_records (hsealed rfl)
  cases fault with
  | none =>
      have hend : s.rest = [] := (items_eq_nil_iff (s := s) rfl).mp hlast
      exact .inl ((items_eq_nil_iff (s := s.unchecked) rfl).mpr hend)
  | some fault =>
      obtain ⟨hfault, -⟩ := items_eq_cons_iff.mp hlast
      rcases next_unchecked_of_fault rfl hfault with hsame | ⟨f, hread, hmismatched, rfl, hother⟩
      · exact .inl (items_of_fault hsame)
      · rw [hposition, hrest] at hread
        refine .inr ⟨f, hread, hmismatched, rfl, ?_⟩
        rcases hother with hrecord | ⟨hcut, hpadding⟩
        · exact .inl ⟨_, items_of_record hrecord⟩
        · exact .inr ⟨hcut, items_of_fault hpadding⟩

/-- **Turning the check of checksums off only removes faults of checksums.** Of a log, a scan with
checking and one without give the same items, and then every record is intact; or they give the same
records up to a frame with a stored checksum that is not that of its payload, where the first one
ends with the fault of this checksum, while the second one gives the record of the frame, or the
fault of its padding if that is cut off. So every record that is given with checking is given
without it, unchanged and in the same place. -/
theorem yields_unchecked (log : List UInt8) :
    ∃ checked unchecked : List (Except Fault Record),
      Step.Yields next (start log true) checked ∧
      Step.Yields next (start log false) unchecked ∧
      ((checked = unchecked ∧ ∀ r, .ok r ∈ unchecked →
          r.checksum = 0 ∨ r.checksum = Checksum.compute r.payload) ∨
        ∃ (records : List Record) (f : Frame),
          Frame.read (reached records) (log.drop (reached records)) = .ok f ∧
          f.checksum ≠ 0 ∧ Checksum.compute f.payload ≠ f.checksum ∧
          checked = records.map .ok ++
            [.error (.checksum f.checksum (Checksum.compute f.payload) f.payloadOffset)] ∧
          ((∃ more, unchecked = records.map .ok ++ .ok f.record :: more) ∨
            f.rest.length < Frame.padding f.payload.length ∧
              unchecked = records.map .ok ++ [.error (.truncated .padding f.payloadEnd
                (Frame.padding f.payload.length) f.rest.length)])) ∧
      ∀ (i : Nat) (r : Record), checked[i]? = some (.ok r) → unchecked[i]? = some (.ok r) := by
  obtain ⟨records, fault, items, hchecked, hunchecked, hintact, hcases⟩ :=
    exists_items_unchecked log
  refine ⟨_, _, yields_items _, yields_items _, ?_, fun i r h => ?_⟩
  · rw [hchecked, hunchecked]
    -- The items agree throughout, or differ at the first record whose checksum is wrong.
    rcases hcases with rfl | ⟨f, hread, hmismatched, rfl, hrecord | ⟨hcut, rfl⟩⟩
    · refine .inl ⟨rfl, fun r hr => hintact r ?_⟩
      simpa using hr
    · obtain ⟨more, rfl⟩ := hrecord
      exact .inr ⟨records, f, hread, hmismatched.1, hmismatched.2, rfl, .inl ⟨more, rfl⟩⟩
    · exact .inr ⟨records, f, hread, hmismatched.1, hmismatched.2, rfl, .inr ⟨hcut, rfl⟩⟩
  · rw [hchecked] at h
    rw [hunchecked]
    exact getElem?_records_append h items

end Scanner

end EventLog
