import EventLog.Log
import EventLog.Proofs.Address.Text
import EventLog.Proofs.Calendar.Count
import EventLog.Proofs.Event.Walk
import EventLog.Proofs.Schema.Order
import EventLog.Proofs.Wire.InTurn

set_option autoImplicit false

/-! # Reading what was written

A log is written entry by entry: each entry ends a batch or is an event, and is framed with or
without its checksum. Whatever the entries are, the events of the log are theirs, in order and at
their places (`Log.yields_events_of_written`).
-/

namespace EventLog

/-- What is written as one record: the end of a batch, with any payload, or an event. -/
inductive Entry where
  | batchEnd (payload : List UInt8)
  | event (content : EventContent)

namespace Entry

def payload : Entry → List UInt8
  | batchEnd payload => payload
  | event x => x.payload

/-- The end of a batch has at least eight bytes and begins with four zeros. The type of an event is
not zero, its timestamp lies from -9999-01-02 01:59:59 to 9999-12-30 22:00:00, and its values are of
the kinds that the schema table declares. -/
def Writable (table : Schema.Table) : Entry → Prop
  | batchEnd payload => 8 ≤ payload.length ∧ payload.take 4 = List.replicate 4 0
  | event x =>
      x.eventType ≠ 0 ∧ -377705023201 ≤ x.timestamp.toInt ∧ x.timestamp.toInt ≤ 253402207200 ∧
        ∃ specs, (⟨x.eventType, x.version⟩, specs) ∈ table.schemas ∧ FieldsHold specs x.values

theorem fits {table : Schema.Table} {x : EventContent} (h : (event x).Writable table) :
    x.Fits table := by
  obtain ⟨htype, hmin, hmax, specs, hspecs, hholds⟩ := h
  exact ⟨htype, hmin, hmax, specs, Schema.Table.get?_eq_some_iff_mem.mpr hspecs, hholds⟩

def content? : Entry → Option EventContent
  | batchEnd _ => none
  | event x => some x

/-- The record of an entry decodes to its event, under a strict decoder too. -/
theorem decode_eq {table : Schema.Table} {entry : Entry} {strict : Bool} {r : Record}
    (h : entry.Writable table) (hpayload : r.payload = entry.payload) :
    Decoder.decode { table, strict } r = .ok (entry.content?.map (·.event table r.offset)) := by
  cases entry with
  | batchEnd payload =>
      refine Decoder.decode_eq_none_iff.mpr ?_
      rw [hpayload]
      exact h
  | event x =>
      refine Decoder.decode_eq_some_iff.mpr ⟨x, [], fits h, ?_, fun _ => rfl, rfl⟩
      rw [hpayload, List.append_nil]
      rfl

end Entry

/-- The event says what was written in the frame at the given position. Its fields have the keys of
those declared, each where it first appears, and of several fields with one key the last one
counts. -/
structure EventContent.Recorded (x : EventContent) (table : Schema.Table) (offset : Nat)
    (e : Event) : Prop where
  eventType_eq : e.eventType = x.eventType
  typeName_eq : e.typeName = (table.typeNames[x.eventType.toNat]?).getD "Unknown"
  version_eq : e.version = x.version
  contextVersion_eq : e.contextVersion = 1
  offset_eq : e.offset = offset
  timestamp_eq : e.context.timestamp = x.timestamp
  exists_time : ∃ t : DateTime, e.context.timestampText = t.text ∧ t.Valid ∧
    t.seconds = x.timestamp.toInt
  user_eq : e.context.user = x.user
  address_eq : e.context.address =
    if x.w1 = 0 ∧ x.w2 = 0 ∧ x.w3 = 0 then .v4 x.w0 else .v6 x.w0 x.w1 x.w2 x.w3
  exists_fields : ∃ specs, (⟨x.eventType, x.version⟩, specs) ∈ table.schemas ∧
    e.data.keys = (specs.map FieldSpec.key).eraseDups ∧
    ∀ (i : Nat) (spec : FieldSpec) (value : FieldValue), specs[i]? = some spec →
      x.values[i]? = some value →
      (∀ (j : Nat) (later : FieldSpec), i < j → specs[j]? = some later → later.key ≠ spec.key) →
      e.data.get? spec.key = some value

theorem EventContent.recorded_event {x : EventContent} {table : Schema.Table} (h : x.Fits table)
    (offset : Nat) : x.Recorded table offset (x.event table offset) where
  eventType_eq := rfl
  typeName_eq := rfl
  version_eq := rfl
  contextVersion_eq := rfl
  offset_eq := rfl
  timestamp_eq := rfl
  exists_time :=
    have ⟨hvalid, hseconds⟩ := DateTime.seconds_ofSeconds x.timestamp.toInt
    ⟨.ofSeconds x.timestamp.toInt, rfl, hvalid, hseconds⟩
  user_eq := rfl
  address_eq := Address.ofWords_eq x.w0 x.w1 x.w2 x.w3
  exists_fields := by
    obtain ⟨specs, hspecs, hholds⟩ := h.declared
    have hdata : (x.event table offset).data = .ofList (fieldEntries specs x.values) := by
      rw [event, hspecs]
      rfl
    rw [hdata]
    refine ⟨specs, Schema.Table.get?_eq_some_iff_mem.mp hspecs, ?_, ?_⟩
    · exact Fields.keys_fieldEntries (Nat.le_of_eq hholds.length_eq)
    · exact fun i spec value => Fields.get?_fieldEntries

/-- An entry as it is written under a schema table: with or without its checksum, and with bytes of
any content that fill its frame up. -/
structure WrittenEntry (table : Schema.Table) where
  entry : Entry
  withChecksum : Bool
  fill : List UInt8
  writable : entry.Writable table
  length_payload : entry.payload.length < UInt32.size
  completes_fill : Completes entry.payload.length fill.length

namespace WrittenEntry

variable {table : Schema.Table}

def frame (w : WrittenEntry table) : WrittenFrame where
  checksum := if w.withChecksum then Checksum.compute w.entry.payload else 0
  payload := w.entry.payload
  fill := w.fill
  length_payload := w.length_payload
  completes_fill := w.completes_fill

theorem sealed_frame (w : WrittenEntry table) : w.frame.Sealed := by
  cases hchecksum : w.withChecksum with
  | true =>
      right
      simp only [frame, hchecksum, if_true]
  | false =>
      left
      simp only [frame, hchecksum, Bool.false_eq_true, if_false]

/-- The bytes of entries that are written one after another. -/
def bytes (entries : List (WrittenEntry table)) : List UInt8 :=
  (entries.map frame).flatMap WrittenFrame.bytes

/-- The events among entries that are written one after another from the given position, each with
the position of its frame. -/
def contents : Nat → List (WrittenEntry table) → List (Nat × EventContent)
  | _, [] => []
  | offset, w :: entries =>
      (w.entry.content?.map fun x => (offset, x)).toList ++
        contents (offset + w.frame.bytes.length) entries

/-- The walk over the records of entries gives their events. -/
theorem walk_records (strict : Bool) (index offset : Nat) (entries : List (WrittenEntry table)) :
    walk { table, strict } .all index
      ((WrittenFrame.records offset (entries.map frame)).map .ok) =
        (contents offset entries).map fun written => .ok (written.2.event table written.1) := by
  induction entries generalizing index offset with
  | nil => rfl
  | cons w entries ih =>
      have hdecode : Decoder.decode { table, strict } (w.frame.record offset) =
          .ok (w.entry.content?.map (·.event table offset)) := Entry.decode_eq w.writable rfl
      rw [List.map_cons, WrittenFrame.records, List.map_cons, walk, hdecode, contents,
        List.map_append, ← ih (index + 1)]
      cases w.entry.content? with
      | none => rfl
      | some x => rfl

theorem fits_of_mem_contents {offset : Nat} {entries : List (WrittenEntry table)}
    {written : Nat × EventContent} (h : written ∈ contents offset entries) :
    written.2.Fits table := by
  induction entries generalizing offset with
  | nil => cases h
  | cons w entries ih =>
      rcases List.mem_append.mp h with hfirst | hrest
      · have hwritable := w.writable
        cases hentry : w.entry with
        | batchEnd payload =>
            rw [hentry] at hfirst
            cases hfirst
        | event x =>
            rw [hentry] at hfirst hwritable
            cases List.mem_singleton.mp hfirst
            exact Entry.fits hwritable
      · exact ih hrest

end WrittenEntry

/-- **What was written is read.** For any schema table and any entries written under it, the event
iterator over their bytes gives one event for each of their events, in order, and then ends. Each
says what was written, with the position of its frame. This is so whether or not checksums are
checked and fields have to fill the payload. -/
theorem Log.yields_events_of_written (settings : Settings)
    (entries : List (WrittenEntry settings.table)) :
    ∃ events : List Event,
      Step.Yields EventIterator.next
        (Log.events
          { data := WrittenEntry.bytes entries, settings := { settings with filter := .all } })
        (events.map .ok) ∧
      List.Forall₂ (fun written e => written.2.Recorded settings.table written.1 e)
        (WrittenEntry.contents 0 entries) events := by
  have hsealed : ∀ f ∈ entries.map WrittenEntry.frame, f.Sealed := by
    intro f hf
    obtain ⟨w, -, rfl⟩ := List.mem_map.mp hf
    exact w.sealed_frame
  -- Two stages: the scanner gives the frames' records, the walk gives those records' events.
  have hitems : (Scanner.start (WrittenEntry.bytes entries) settings.validateChecksums).items =
      (WrittenFrame.records 0 (entries.map WrittenEntry.frame)).map .ok :=
    Scanner.items_start_eq_iff.mpr ⟨_, rfl, fun _ => hsealed, rfl⟩
  have hwalk : walk { table := settings.table, strict := settings.strictLength } .all 0
      (Scanner.start (WrittenEntry.bytes entries) settings.validateChecksums).items =
        (WrittenEntry.contents 0 entries).map fun written =>
          .ok (written.2.event settings.table written.1) := by
    rw [hitems]
    exact WrittenEntry.walk_records settings.strictLength 0 0 entries
  refine ⟨(WrittenEntry.contents 0 entries).map fun written =>
    written.2.event settings.table written.1, ?_, ?_⟩
  · rw [List.map_map]
    exact hwalk ▸ EventIterator.yields_walk rfl
  · rw [List.forall₂_map_right_iff, List.forall₂_same]
    exact fun written hmem =>
      EventContent.recorded_event (WrittenEntry.fits_of_mem_contents hmem) written.1

end EventLog
