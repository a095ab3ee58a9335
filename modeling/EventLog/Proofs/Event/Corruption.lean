import EventLog.Log
import EventLog.Proofs.Checksum
import EventLog.Proofs.Event.Walk
import EventLog.Proofs.Record.Cut

set_option autoImplicit false

/-! # Corrupted payloads

A payload with a stored checksum that is changed in a window of four bytes no longer has that
checksum. A scan that checks checksums stops at its record, after the records before it, and no
event is read from the changed bytes or from what follows them
(`Log.detects_corrupted_payload`).
-/

namespace EventLog

/-! ## Frames that are not sealed -/

/-- A frame that comes next and is not sealed gives the fault of its checksum. -/
theorem Scanner.next_of_unsealed {s : Scanner} {f : WrittenFrame} {more : List UInt8}
    (hlive : s.exhausted = false) (hrest : s.rest = f.bytes ++ more) (hvalidate : s.validate = true)
    (hunsealed : ¬f.Sealed) :
    s.next.item = some (.error
      (.checksum f.checksum (Checksum.compute f.payload) (s.position + 16))) := by
  have hne : s.rest ≠ [] := by
    rw [hrest]
    exact List.append_ne_nil_of_left_ne_nil f.bytes_ne_nil more
  refine next_eq_error_iff.mpr ⟨hlive, hne, .inr ⟨f.frame s.position more, ?_, ?_⟩⟩
  · rw [hrest, f.read_bytes]
  · have hholds : (f.frame s.position more).checksumHolds = false :=
      Bool.eq_false_iff.mpr fun h => hunsealed (f.checksumHolds_iff.mp h)
    rw [Frame.close, hvalidate, hholds]
    rfl

/-- A frame that is not sealed ends the scan of the frames before it. -/
theorem Scanner.items_of_unsealed {before : List WrittenFrame} {f : WrittenFrame}
    {more : List UInt8} (hsealed : ∀ g ∈ before, g.Sealed) (hunsealed : ¬f.Sealed) :
    (start (before.flatMap WrittenFrame.bytes ++ (f.bytes ++ more)) true).items =
      (WrittenFrame.records 0 before).map .ok ++
        [.error (.checksum f.checksum (Checksum.compute f.payload)
          ((before.flatMap WrittenFrame.bytes).length + 16))] := by
  refine items_start_of_fault (fun _ => hsealed) ?_
  rw [next_of_unsealed rfl rfl rfl hunsealed, position_past_start]

namespace WrittenFrame

def withPayload (f : WrittenFrame) (payload : List UInt8)
    (h : payload.length = f.payload.length) : WrittenFrame where
  checksum := f.checksum
  payload := payload
  fill := f.fill
  length_payload := h ▸ f.length_payload
  completes_fill := h ▸ f.completes_fill

/-- A frame has the bytes before its payload, which depend on the length of the payload alone, the
payload and its padding. -/
theorem exists_bytes_eq (f : WrittenFrame) :
    ∃ head : List UInt8, head.length = 16 ∧ f.bytes = head ++ f.payload ++ f.fill ∧
      ∀ payload h, (f.withPayload payload h).bytes = head ++ payload ++ f.fill := by
  refine ⟨Frame.magic ++ toLittleEndian 4 f.payload.length ++ toLittleEndian 4 f.checksum.toNat,
    ?_, rfl, fun payload h => ?_⟩
  · simp only [Frame.magic, List.length_append, List.length_replicate, length_toLittleEndian]
  · simp only [bytes, withPayload, h]

/-- The records before one of a log are those of the frames before its own. -/
theorem exists_frames_of_getElem? {frames : List WrittenFrame} {i : Nat} {r : Record}
    (h : (records 0 frames)[i]? = some r) :
    ∃ before f after, frames = before ++ f :: after ∧ (records 0 frames).take i = records 0 before ∧
      r = f.record (before.flatMap bytes).length := by
  rw [getElem?_records, Nat.zero_add, Option.map_eq_some_iff] at h
  obtain ⟨f, hf, rfl⟩ := h
  obtain ⟨hi, rfl⟩ := List.getElem?_eq_some_iff.mp hf
  have hsplit : frames = frames.take i ++ frames[i] :: frames.drop (i + 1) := by
    rw [List.getElem_cons_drop, List.take_append_drop]
  refine ⟨frames.take i, frames[i], frames.drop (i + 1), hsplit, ?_, rfl⟩
  have hlength : (records 0 (frames.take i)).length = i := by
    rw [length_records, List.length_take_of_le (Nat.le_of_lt hi)]
  rw [hsplit, records_append, ← hsplit, List.take_left' hlength]

end WrittenFrame

/-! ## Windows -/

/-- A front that ends within a first part leaves the rest of this part. -/
theorem exists_of_append_eq {α : Type} {front back first second : List α}
    (h : front ++ back = first ++ second) (hle : front.length ≤ first.length) :
    ∃ middle, first = front ++ middle ∧ back = middle ++ second := by
  obtain ⟨middle, rfl⟩ :=
    List.prefix_of_prefix_length_le (List.prefix_append front back) ⟨second, h.symm⟩ hle
  rw [List.append_assoc] at h
  exact ⟨middle, rfl, List.append_cancel_left h⟩

/-- A window within the second of three parts divides it. -/
theorem exists_of_window {α : Type} {front window back first second third : List α}
    (h : front ++ window ++ back = first ++ second ++ third) (hstart : first.length ≤ front.length)
    (hstop : front.length + window.length ≤ first.length + second.length) :
    ∃ before after, second = before ++ window ++ after ∧ front = first ++ before ∧
      back = after ++ third := by
  rw [← List.length_append, ← List.length_append] at hstop
  obtain ⟨after, hmiddle, rfl⟩ := exists_of_append_eq h hstop
  rw [List.append_assoc] at hmiddle
  obtain ⟨before, rfl, hsecond⟩ := exists_of_append_eq hmiddle hstart
  exact ⟨before, after, by rw [hsecond, List.append_assoc], rfl, rfl⟩

/-- An event of a walk is that of one of the records. -/
theorem exists_record_of_walk {decoder : Decoder} {filter : Filter} {index : Nat}
    {items : List (Except Fault Record)} {e : Event} (h : .ok e ∈ walk decoder filter index items) :
    ∃ r, .ok r ∈ items ∧ decoder.decode r = .ok (some e) := by
  -- On the items: an event is the first record's own or one of the walk behind it.
  induction items generalizing index with
  | nil => cases h
  | cons item items ih =>
      cases item with
      | error fault => cases List.mem_singleton.mp h
      | ok first =>
          have hbehind (h : .ok e ∈ walk decoder filter (index + 1) items) :
              ∃ r, .ok r ∈ Except.ok first :: items ∧ decoder.decode r = .ok (some e) := by
            obtain ⟨r, hr, hdecode⟩ := ih h
            exact ⟨r, List.mem_cons_of_mem _ hr, hdecode⟩
          rcases walk_record decoder filter index first items with
            ⟨fault, -, hwalk⟩ | ⟨e', hdecode, hwalk⟩ | hwalk
          · rw [hwalk] at h
            cases List.mem_singleton.mp h
          · rw [hwalk] at h
            rcases List.mem_cons.mp h with hfirst | hrest
            · cases hfirst
              exact ⟨first, List.mem_cons_self, hdecode⟩
            · exact hbehind hrest
          · rw [hwalk] at h
            exact hbehind h

/-- The events of a log whose scan ends with a fault are those of the records before it. -/
theorem Log.exists_record_of_event {log : Log} {records : List Record} {fault : Fault}
    (h : log.records.items = records.map .ok ++ [.error fault]) {n : Nat} {e : Event}
    (hevent : (EventIterator.next (Step.after EventIterator.next n log.events)).item =
      some (.ok e)) :
    ∃ r ∈ records,
      Decoder.decode { table := log.settings.table, strict := log.settings.strictLength } r =
        .ok (some e) := by
  have hyields : Step.Yields EventIterator.next log.events
      (walk _ log.settings.filter 0 log.records.items) := EventIterator.yields_walk rfl
  rw [hyields n, h] at hevent
  obtain ⟨r, hr, hdecode⟩ := exists_record_of_walk (List.mem_of_getElem? hevent)
  rcases List.mem_append.mp hr with hrecord | hfault
  · obtain ⟨_, hmem, hitem⟩ := List.mem_map.mp hrecord
    cases hitem
    exact ⟨r, hmem, hdecode⟩
  · cases List.mem_singleton.mp hfault

/-! ## Detection -/

/-- A window within the payload of a frame that has a checksum: with other bytes in it, the frame
is one that has this checksum still, and its payload has another. -/
theorem WrittenFrame.exists_changed {f : WrittenFrame} (hsealed : f.Sealed)
    (hchecksum : f.checksum ≠ 0) {front window window' back before after : List UInt8}
    (h : front ++ window ++ back = before ++ (f.bytes ++ after))
    (hstart : before.length + 16 ≤ front.length)
    (hstop : front.length + window.length ≤ before.length + 16 + f.payload.length)
    (hlength : window'.length = window.length) (hsize : window.length ≤ 4)
    (hne : window' ≠ window) :
    ∃ g : WrittenFrame, front ++ window' ++ back = before ++ (g.bytes ++ after) ∧
      g.checksum = f.checksum ∧ Checksum.compute g.payload ≠ f.checksum := by
  obtain ⟨head, hhead, hbytes, hother⟩ := f.exists_bytes_eq
  have hparts : front ++ window ++ back = before ++ head ++ f.payload ++ (f.fill ++ after) := by
    rw [h, hbytes]
    simp only [List.append_assoc]
  have hoffset : (before ++ head).length = before.length + 16 := by rw [List.length_append, hhead]
  -- The window lies in the payload, so only the payload differs and its length stays.
  obtain ⟨first, last, hpayload, rfl, rfl⟩ :=
    exists_of_window hparts (by rwa [hoffset]) (by rwa [hoffset])
  have hcount : (first ++ window' ++ last).length = f.payload.length := by
    rw [hpayload]
    simp only [List.length_append, hlength]
  refine ⟨f.withPayload (first ++ window' ++ last) hcount, ?_, rfl, ?_⟩
  · rw [hother]
    simp only [List.append_assoc]
  · have hsum : f.checksum = Checksum.compute (first ++ window ++ last) :=
      hpayload ▸ hsealed.resolve_left hchecksum
    rw [hsum]
    exact Checksum.compute_ne_of_window hlength (hlength ▸ hsize) hne

/-- **A changed payload is detected at its record.** Let a log be scanned without a fault, with
checksums checked, and let bytes be changed in a window of four at most, within the payload of one
of its records that has a checksum. A scan gives the records before it as they were, and then the
fault of its checksum, and ends. The events that are read from the log are those of these
records. -/
theorem Log.detects_corrupted_payload {front window window' back : List UInt8}
    {records : List Record} {i : Nat} {r : Record}
    (h : Step.Yields Scanner.next (.start (front ++ window ++ back) true) (records.map .ok))
    (hr : records[i]? = some r) (hchecksum : r.checksum ≠ 0)
    (hstart : r.payloadOffset ≤ front.length)
    (hstop : front.length + window.length ≤ r.payloadOffset + r.payload.length)
    (hlength : window'.length = window.length) (hsize : window.length ≤ 4)
    (hne : window' ≠ window) :
    (∃ actual, actual ≠ r.checksum ∧
      Step.Yields Scanner.next (.start (front ++ window' ++ back) true)
        ((records.take i).map .ok ++ [.error (.checksum r.checksum actual r.payloadOffset)])) ∧
    ∀ (settings : Settings) (n : Nat) (e : Event), settings.validateChecksums = true →
      (EventIterator.next (Step.after EventIterator.next n
        (Log.events { data := front ++ window' ++ back, settings }))).item = some (.ok e) →
      ∃ r' ∈ records.take i, r'.frameEnd ≤ r.offset ∧
        Decoder.decode { table := settings.table, strict := settings.strictLength } r' =
          .ok (some e) := by
  obtain ⟨frames, hlog, hsealed, rfl⟩ := Scanner.items_start_eq_iff.mp (Scanner.yields_iff.mp h)
  obtain ⟨before, f, after, rfl, htake, rfl⟩ := WrittenFrame.exists_frames_of_getElem? hr
  rw [List.flatMap_append, List.flatMap_cons] at hlog
  obtain ⟨g, hchanged, hsame, hdiffers⟩ := WrittenFrame.exists_changed
    (hsealed rfl f (List.mem_append_right before List.mem_cons_self)) hchecksum hlog hstart hstop
    hlength hsize hne
  -- The head is untouched: the stored checksum is the old one, and it was not zero.
  have hunsealed : ¬g.Sealed := by
    rintro (hzero | hsum)
    · exact hchecksum (hsame.symm.trans hzero)
    · exact hdiffers (hsum.symm.trans hsame)
  have hscan : (Scanner.start (front ++ window' ++ back) true).items =
      (WrittenFrame.records 0 before).map .ok ++ [.error (.checksum f.checksum
        (Checksum.compute g.payload) ((before.flatMap WrittenFrame.bytes).length + 16))] := by
    rw [hchanged, ← hsame]
    exact Scanner.items_of_unsealed (fun g hg => hsealed rfl g (List.mem_append_left _ hg)) hunsealed
  rw [htake]
  refine ⟨⟨_, hdiffers, Scanner.yields_iff.mpr hscan⟩, fun settings n e hvalidate hevent => ?_⟩
  have hrecords : (Log.records { data := front ++ window' ++ back, settings }).items =
      (Scanner.start (front ++ window' ++ back) true).items := by
    rw [Log.records, hvalidate]
  obtain ⟨r', hr', hdecode⟩ := Log.exists_record_of_event (hrecords.trans hscan) hevent
  -- Events come from records that were given, and those end before the changed frame begins.
  have hend := WrittenFrame.frameEnd_le_of_mem_records hr'
  rw [Nat.zero_add] at hend
  exact ⟨r', hr', hend, hdecode⟩

theorem Log.detects_corrupted_payload_padded :
    Step.Yields Scanner.next
      (.start (Scanner.paddedLog.take 41 ++ [2] ++ Scanner.paddedLog.drop 42) true)
      ((WrittenFrame.records 0 [Scanner.batchEndFrame, Scanner.paddedFrame]).map .ok) ∧
    ∃ actual, actual ≠ Scanner.paddedFrame.checksum ∧
      Step.Yields Scanner.next
        (.start (Scanner.paddedLog.take 41 ++ [7] ++ Scanner.paddedLog.drop 42) true)
        [.ok (Scanner.batchEndFrame.record 0),
          .error (.checksum Scanner.paddedFrame.checksum actual 40)] := by
  have h : Step.Yields Scanner.next
      (.start (Scanner.paddedLog.take 41 ++ [2] ++ Scanner.paddedLog.drop 42) true)
      ((WrittenFrame.records 0 [Scanner.batchEndFrame, Scanner.paddedFrame]).map .ok) := by
    refine Scanner.yields_iff.mpr (Scanner.items_start_eq_iff.mpr ⟨_, rfl, fun _ => ?_, rfl⟩)
    exact List.forall_mem_cons.mpr ⟨.inl rfl, List.forall_mem_cons.mpr ⟨.inr rfl, nofun⟩⟩
  have hne : ([7] : List UInt8) ≠ [2] := by decide
  have hr : (WrittenFrame.records 0 [Scanner.batchEndFrame, Scanner.paddedFrame])[1]? =
      some (Scanner.paddedFrame.record 24) := rfl
  have hchecksum : (Scanner.paddedFrame.record 24).checksum ≠ 0 := by decide +kernel
  have hfront : (Scanner.paddedLog.take 41).length = 41 := rfl
  have hstart : (Scanner.paddedFrame.record 24).payloadOffset ≤
      (Scanner.paddedLog.take 41).length := by
    rw [hfront]
    decide
  have hstop : (Scanner.paddedLog.take 41).length + [(2 : UInt8)].length ≤
      (Scanner.paddedFrame.record 24).payloadOffset +
        (Scanner.paddedFrame.record 24).payload.length := by
    rw [hfront]
    decide
  have hlength : [(7 : UInt8)].length = [(2 : UInt8)].length := rfl
  obtain ⟨hdetected, -⟩ :=
    detects_corrupted_payload h hr hchecksum hstart hstop hlength (by decide) hne
  exact ⟨h, hdetected⟩

end EventLog
