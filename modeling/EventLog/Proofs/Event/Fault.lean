import EventLog.Proofs.Event.Append
import EventLog.Proofs.Record.Fault
import EventLog.Proofs.Wire.Fault

set_option autoImplicit false

/-! # The error that ends a walk

A walk over the events of a log gives one error at most, and gives it last. The error points into
the record that is at fault (`Log.error_pointsInto`): a frame that cannot be read starts where the
frames before it end, and a record that cannot be decoded has the number that the scanner counts,
with the fault somewhere in its payload.
-/

namespace EventLog

/-- Every record that is scanned is that of a written frame. -/
theorem Scanner.exists_frame_of_mem_items {s : Scanner} {r : Record} (h : .ok r ∈ s.items) :
    ∃ (f : WrittenFrame) (offset : Nat), r = f.record offset := by
  -- The record is the first item or one of those behind it, where the rest is shorter.
  cases hitem : s.next.item with
  | none =>
      rw [items_of_end hitem] at h
      cases h
  | some item =>
      cases item with
      | error fault =>
          rw [items_of_fault hitem] at h
          cases List.mem_singleton.mp h
      | ok first =>
          have hlt := length_rest_next hitem
          rw [items_of_record hitem, List.mem_cons] at h
          rcases h with hfirst | hrest
          · cases hfirst
            obtain ⟨-, f, -, -, -, hrecord⟩ := written_of_next hitem
            exact ⟨f, s.position, hrecord⟩
          · exact exists_frame_of_mem_items hrest
termination_by s.rest.length

/-! ## Errors of a walk -/

/-- How an error of a walk arises from the items of its scanner: a fault follows the records, or a
record cannot be decoded; `index` records came before. -/
def LogError.ArisesFrom (decoder : Decoder) (index : Nat) (items : List (Except Fault Record)) :
    LogError → Prop
  | .fault f =>
      ∃ (records : List Record) (more : List (Except Fault Record)),
        items = records.map .ok ++ .error f :: more
  | .undecodable number offset f =>
      ∃ (i : Nat) (r : Record), number = index + i ∧ items[i]? = some (.ok r) ∧
        r.offset = offset ∧ decoder.decode r = .error f
  | .io _ => False
  | .openFailed _ _ => False

theorem LogError.ArisesFrom.cons {decoder : Decoder} {index : Nat}
    {items : List (Except Fault Record)} {error : LogError} (r : Record)
    (h : error.ArisesFrom decoder (index + 1) items) :
    error.ArisesFrom decoder index (.ok r :: items) := by
  cases error with
  | fault f =>
      obtain ⟨records, more, rfl⟩ := h
      exact ⟨r :: records, more, rfl⟩
  | undecodable number offset f =>
      obtain ⟨i, r', hnumber, hitem, hoffset, hdecode⟩ := h
      exact ⟨i + 1, r', by omega, hitem, hoffset, hdecode⟩
  | io cause => exact h
  | openFailed path cause => exact h

/-- An error is the last item of a walk. -/
theorem error_of_walk {decoder : Decoder} {filter : Filter} {index n : Nat}
    {items : List (Except Fault Record)} {error : LogError}
    (h : (walk decoder filter index items)[n]? = some (.error error)) :
    (walk decoder filter index items).length = n + 1 ∧ error.ArisesFrom decoder index items := by
  -- On the items: the walk stops at its first error, so an error stands at the end.
  induction items generalizing index n with
  | nil => cases h
  | cons item items ih =>
      cases item with
      | error fault =>
          rw [walk] at h ⊢
          cases n with
          | zero =>
              cases h
              exact ⟨rfl, [], items, rfl⟩
          | succ n => cases h
      | ok r =>
          rcases walk_record decoder filter index r items with
            ⟨fault, hdecode, hwalk⟩ | ⟨e, -, hwalk⟩ | hwalk
          · rw [hwalk] at h ⊢
            cases n with
            | zero =>
                cases h
                exact ⟨rfl, 0, r, rfl, rfl, rfl, hdecode⟩
            | succ n => cases h
          · rw [hwalk] at h ⊢
            cases n with
            | zero => cases h
            | succ n =>
                obtain ⟨hlength, herror⟩ := ih h
                exact ⟨congrArg Nat.succ hlength, herror.cons r⟩
          · rw [hwalk] at h ⊢
            obtain ⟨hlength, herror⟩ := ih h
            exact ⟨hlength, herror.cons r⟩

/-! ## Errors of a log -/

/-- What the error of a walk over a log points to: the frame behind the last that could be read, or
the payload of the scanner's record of that number. -/
def LogError.PointsInto (log : Log) : LogError → Prop
  | .fault f =>
      ∃ records : List Record, log.records.items = records.map .ok ++ [.error f] ∧
        reached records ≤ f.offset ∧ f.offset ≤ log.data.length ∧
        f.PointsIntoFrame log.data (reached records)
  | .undecodable index offset f =>
      ∃ r : Record, log.records.items[index]? = some (.ok r) ∧ r.offset = offset ∧
        r.payloadOffset = offset + 16 ∧
        f.LiesIn r.payloadOffset (r.payloadOffset + r.payload.length)
  | .io _ => False
  | .openFailed _ _ => False

/-- **Every error points into the record that failed**, and nothing comes after it, however often
the iterator is called. -/
theorem Log.error_pointsInto {log : Log} {n : Nat} {error : LogError}
    (h : (EventIterator.next (Step.after EventIterator.next n log.events)).item =
      some (.error error)) :
    (∀ m, n < m →
      (EventIterator.next (Step.after EventIterator.next m log.events)).item = none) ∧
      error.PointsInto log := by
  have hyields : Step.Yields EventIterator.next log.events
      (walk _ log.settings.filter 0 log.records.items) := EventIterator.yields_walk rfl
  rw [hyields n] at h
  obtain ⟨hlength, herror⟩ := error_of_walk h
  refine ⟨fun m hm => ?_, ?_⟩
  · rw [hyields m]
    exact List.getElem?_eq_none (by omega)
  -- A fault of the scanner is the last record item; one of the decoder belongs to a record.
  cases error with
  | fault f =>
      obtain ⟨records, more, hitems⟩ := herror
      obtain ⟨rfl, hpoints⟩ := Scanner.pointsIntoFrame_of_items hitems
      exact ⟨records, hitems, hpoints⟩
  | undecodable number offset f =>
      obtain ⟨i, r, hnumber, hitem, rfl, hdecode⟩ := herror
      obtain rfl : number = i := hnumber.trans (Nat.zero_add i)
      obtain ⟨frame, start, hrecord⟩ :=
        Scanner.exists_frame_of_mem_items (List.mem_of_getElem? hitem)
      have hpayload : r.payloadOffset = r.offset + 16 := by
        rw [hrecord]
        rfl
      exact ⟨r, hitem, rfl, hpayload, Decoder.pointsIntoPayload hdecode⟩
  | io cause => exact herror.elim
  | openFailed path cause => exact herror.elim

/-- A record whose context has version two, alone in a log. -/
def Log.contextTwo : Record := ⟨0, 16, 0, [16, 0, 0, 0, 1, 0, 2, 0]⟩

/-- A log of two records, of which the second one cannot be decoded. -/
def Log.undecodableSecond : Log :=
  { data := single batchEnd ++ single contextTwo, settings := {} }

theorem Log.error_pointsInto_contextTwo :
    (EventIterator.next (Step.after EventIterator.next 0 undecodableSecond.events)).item =
        some (.error (.undecodable 1 24 (.unsupportedContextVersion 2 48))) ∧
      (∀ m, 0 < m →
        (EventIterator.next (Step.after EventIterator.next m undecodableSecond.events)).item =
          none) ∧
      (LogError.undecodable 1 24 (.unsupportedContextVersion 2 48)).PointsInto
        undecodableSecond := by
  have hrecords : undecodableSecond.records.items =
      [.ok batchEnd, .ok { contextTwo with offset := 24, payloadOffset := 40 }] := by
    rw [Scanner.items_of_record (r := batchEnd) rfl,
      Scanner.items_of_record (r := { contextTwo with offset := 24, payloadOffset := 40 }) rfl,
      Scanner.items_of_end rfl]
  have hevents : undecodableSecond.events.items =
      [.error (.undecodable 1 24 (.unsupportedContextVersion 2 48))] := by
    rw [undecodableSecond, items_events, ← undecodableSecond, hrecords]
    rfl
  have hyields : Step.Yields EventIterator.next undecodableSecond.events _ :=
    EventIterator.yields_items rfl
  have h := hyields 0
  rw [hevents] at h
  exact ⟨h, error_pointsInto h⟩

end EventLog
