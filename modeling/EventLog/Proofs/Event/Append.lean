import EventLog.Log
import EventLog.Proofs.Event.Walk
import EventLog.Proofs.Record.Append

set_option autoImplicit false

/-! # Appending to a log

A log is only ever appended to. What was read from it before is read again, and what is appended is
read as a log of its own, with all positions and numbers of records counted from the start of the
whole (`Log.items_append`). A record that cannot be decoded ends the walk over the events, whatever
follows it.
-/

namespace EventLog

/-- The same error, the given number of bytes further on and behind the given number of records. -/
def LogError.moved (d count : Nat) : LogError → LogError
  | io cause => io cause
  | openFailed path cause => openFailed path cause
  | fault f => fault (f.moved d)
  | undecodable index offset f => undecodable (index + count) (offset + d) (f.moved d)

/-- The same item, the given number of bytes further on and behind the given number of records. -/
def EventIterator.movedItem (d count : Nat) :
    Except LogError Event → Except LogError Event
  | .ok e => .ok (e.moved d)
  | .error error => .error (error.moved d count)

section Walk

variable (decoder : Decoder) (filter : Filter)

/-- A walk does not depend on its place. -/
theorem walk_moved (index d count : Nat) (items : List (Except Fault Record)) :
    walk decoder filter (index + count) (items.map (Scanner.movedItem d)) =
      (walk decoder filter index items).map (EventIterator.movedItem d count) := by
  -- On the items: a moved record gives the moved event or fault, under the same filter.
  induction items generalizing index with
  | nil => rfl
  | cons item items ih =>
      cases item with
      | error fault => rfl
      | ok r =>
          have hih := ih (index + 1)
          rw [Nat.add_right_comm index 1 count] at hih
          have hmoved : Scanner.movedItem d (.ok r) = .ok (r.moved d) := rfl
          rw [List.map_cons, hmoved, walk, walk, decoder.decode_moved r d]
          cases decoder.decode r with
          | error fault => rfl
          | ok event =>
              cases event with
              | none => exact hih
              | some e =>
                  simp only [relocate, Option.map_some]
                  have htype : (e.moved d).eventType = e.eventType := rfl
                  rw [htype]
                  split
                  · rw [List.map_cons, ← hih]
                    rfl
                  · exact hih

/-- A walk goes on over the items that follow, unless it has ended with an error. -/
theorem walk_append (index : Nat) (records : List Record) (more : List (Except Fault Record)) :
    walk decoder filter index (records.map .ok ++ more) =
      walk decoder filter index (records.map .ok) ++
        if (walk decoder filter index (records.map .ok)).all Except.isOk then
          walk decoder filter (index + records.length) more
        else [] := by
  -- On the records: the walk goes on behind them unless one of them could not be decoded.
  induction records generalizing index with
  | nil => rfl
  | cons r records ih =>
      have hih := ih (index + 1)
      rw [Nat.add_assoc, Nat.add_comm 1 records.length] at hih
      rw [List.map_cons, List.cons_append, walk, walk, List.length_cons]
      cases decoder.decode r with
      | error fault => rfl
      | ok event =>
          cases event with
          | none => exact hih
          | some e =>
              simp only
              split
              · rw [hih]
                rfl
              · exact hih

end Walk

theorem all_isOk_iff {items : List (Except LogError Event)} :
    items.all Except.isOk = true ↔ ∀ error, .error error ∉ items := by
  rw [List.all_eq_true]
  constructor
  · intro h error hmem
    cases h _ hmem
  · intro h item hmem
    cases item with
    | ok e => rfl
    | error error => exact absurd hmem (h error)

namespace Log

theorem items_events (data : List UInt8) (settings : Settings) :
    (events { data, settings }).items =
      walk { table := settings.table, strict := settings.strictLength } settings.filter 0
        (records { data, settings }).items :=
  EventIterator.items_eq_walk rfl

/-- **Appending is a homomorphism.** Let the front of a log be scanned without a fault. The records
of the whole log are those of the front and then what the back gives as a log of its own, moved
behind the front; so are its events, where every record of the front can be decoded. Where one
cannot, the events are those of the front. -/
theorem items_append {settings : Settings} {front : List UInt8} {read : List Record}
    (h : (records { data := front, settings }).items = read.map .ok) (back : List UInt8) :
    (records { data := front ++ back, settings }).items =
        (records { data := front, settings }).items ++
          (records { data := back, settings }).items.map (Scanner.movedItem front.length) ∧
      ((∀ error, .error error ∉ (events { data := front, settings }).items) →
        (events { data := front ++ back, settings }).items =
          (events { data := front, settings }).items ++
            (events { data := back, settings }).items.map
              (EventIterator.movedItem front.length read.length)) ∧
      ∀ index offset fault,
        (events { data := front, settings }).items.getLast? =
            some (.error (.undecodable index offset fault)) →
          (events { data := front ++ back, settings }).items =
            (events { data := front, settings }).items := by
  have hwhole : (records { data := front ++ back, settings }).items =
      read.map .ok ++
        (records { data := back, settings }).items.map (Scanner.movedItem front.length) :=
    Scanner.items_start_append h
  let decoder : Decoder := { table := settings.table, strict := settings.strictLength }
  let moved := (records { data := back, settings }).items.map (Scanner.movedItem front.length)
  have hevents : (events { data := front ++ back, settings }).items =
      (events { data := front, settings }).items ++
        if (events { data := front, settings }).items.all Except.isOk then
          (events { data := back, settings }).items.map
            (EventIterator.movedItem front.length read.length)
        else [] := by
    -- The whole log is walked as its front and, unless that ended in an error, its back.
    calc (events { data := front ++ back, settings }).items
        = walk decoder settings.filter 0 (records { data := front ++ back, settings }).items :=
          items_events _ settings
      _ = walk decoder settings.filter 0 (read.map .ok ++ moved) := by rw [hwhole]
      _ = walk decoder settings.filter 0 (read.map .ok) ++
            if (walk decoder settings.filter 0 (read.map .ok)).all Except.isOk then
              walk decoder settings.filter (0 + read.length) moved
            else [] := walk_append decoder settings.filter 0 read moved
      _ = _ := by rw [walk_moved, ← h, ← items_events, ← items_events]
  refine ⟨hwhole.trans (by rw [h]), ?_, ?_⟩
  · intro hok
    rw [hevents, if_pos (all_isOk_iff.mpr hok)]
  · intro index offset fault hlast
    have hmem := List.mem_of_getLast? hlast
    rw [hevents, if_neg fun hok => all_isOk_iff.mp hok _ hmem, List.append_nil]

def batchEnd : Record := ⟨0, 16, 0, List.replicate 8 0⟩

def noPayload : Record := ⟨0, 16, 0, []⟩

/-- The bytes of a log of one record that takes whole frames. -/
def single (r : Record) : List UInt8 :=
  Frame.magic ++ toLittleEndian 4 r.payload.length ++ toLittleEndian 4 r.checksum.toNat ++ r.payload

theorem items_append_batchEnd :
    (records { data := single batchEnd, settings := {} }).items = [.ok batchEnd] ∧
      (records { data := single batchEnd ++ [1], settings := {} }).items =
        [.ok batchEnd, .error (.shortRead 1 16 24)] ∧
      (events { data := single batchEnd ++ [1], settings := {} }).items =
        [.error (.fault (.shortRead 1 16 24))] ∧
      (records { data := single noPayload, settings := {} }).items = [.ok noPayload] ∧
      (events { data := single noPayload ++ [1], settings := {} }).items =
        [.error (.undecodable 0 0 (.truncated .eventType 16 4 0))] := by
  have hback : (records { data := [1], settings := {} }).items = [.error (.shortRead 1 16 0)] :=
    Scanner.items_of_fault rfl
  have hbackEvents : (events { data := [1], settings := {} }).items =
      [.error (.fault (.shortRead 1 16 0))] := by
    rw [items_events, hback]
    rfl
  have hbatch : (records { data := single batchEnd, settings := {} }).items =
      [batchEnd].map .ok := by
    rw [Scanner.items_of_record (r := batchEnd) rfl, Scanner.items_of_end rfl]
    rfl
  have hbatchEvents : (events { data := single batchEnd, settings := {} }).items = [] := by
    rw [items_events, hbatch]
    rfl
  have hempty : (records { data := single noPayload, settings := {} }).items =
      [noPayload].map .ok := by
    rw [Scanner.items_of_record (r := noPayload) rfl, Scanner.items_of_end rfl]
    rfl
  have hemptyEvents : (events { data := single noPayload, settings := {} }).items =
      [.error (.undecodable 0 0 (.truncated .eventType 16 4 0))] := by
    rw [items_events, hempty]
    rfl
  obtain ⟨hrecords, hevents, -⟩ := items_append hbatch [1]
  obtain ⟨-, -, hended⟩ := items_append hempty [1]
  refine ⟨hbatch, ?_, ?_, hempty, ?_⟩
  · rw [hrecords, hbatch, hback]
    rfl
  · have hok (error : LogError) :
        .error error ∉ (events { data := single batchEnd, settings := {} }).items := by
      intro hmem
      rw [hbatchEvents] at hmem
      cases hmem
    rw [hevents hok, hbatchEvents, hbackEvents]
    rfl
  · rw [hended 0 0 (.truncated .eventType 16 4 0) (by rw [hemptyEvents]; rfl), hemptyEvents]

end Log

end EventLog
