import EventLog.Proofs.Wire.Event
import EventLog.Schema.Forum

set_option autoImplicit false

/-! # The one payload of an event

A strict decoder forgets nothing: where the fields of an event have different keys, the payload it
was decoded from is written from the event alone (`Decoder.payload_eq_wire`), so that two payloads
with equal events are equal. Fields of equal keys would share one entry of the map, and the values
of all but the last would be lost.
-/

namespace EventLog

/-! ## Entries of different keys -/

theorem putEntry_of_not_mem {key : String} {value : FieldValue}
    {entries : List (String × FieldValue)} (h : key ∉ entries.map Prod.fst) :
    putEntry key value entries = entries ++ [(key, value)] := by
  induction entries with
  | nil => rfl
  | cons entry rest ih =>
      rw [List.map_cons, List.mem_cons, not_or] at h
      rw [putEntry, if_neg (Ne.symm h.1), ih h.2, List.cons_append]

namespace Fields

/-- Entries of new and different keys come after those before. -/
theorem entries_foldl_insert {before : Fields} {entries : List (String × FieldValue)}
    (h : (before.entries ++ entries).map Prod.fst |>.Nodup) :
    (entries.foldl (fun fields entry => fields.insert entry.1 entry.2) before).entries =
      before.entries ++ entries := by
  induction entries generalizing before with
  | nil => rw [List.foldl_nil, List.append_nil]
  | cons entry rest ih =>
      have hnew : entry.1 ∉ before.entries.map Prod.fst := by
        rw [List.map_append, List.map_cons, List.nodup_append] at h
        intro hmem
        exact h.2.2 _ hmem _ List.mem_cons_self rfl
      have hinsert : (before.insert entry.1 entry.2).entries = before.entries ++ [entry] :=
        putEntry_of_not_mem hnew
      rw [List.foldl_cons, ih, hinsert, List.append_assoc, List.singleton_append]
      rwa [hinsert, List.append_assoc, List.singleton_append]

/-- The map of entries of different keys has these entries. -/
theorem entries_ofList {entries : List (String × FieldValue)}
    (h : (entries.map Prod.fst).Nodup) : (ofList entries).entries = entries := by
  rw [ofList, entries_foldl_insert]
  · rfl
  · exact h

end Fields

theorem map_fst_fieldEntries {specs : List FieldSpec} {values : List FieldValue}
    (h : FieldsHold specs values) :
    (fieldEntries specs values).map Prod.fst = specs.map FieldSpec.key := by
  refine List.map_fst_zip (Nat.le_of_eq ?_)
  rw [List.length_map, h.length_eq]

theorem map_snd_fieldEntries {specs : List FieldSpec} {values : List FieldValue}
    (h : FieldsHold specs values) : (fieldEntries specs values).map Prod.snd = values := by
  refine List.map_snd_zip (Nat.le_of_eq ?_)
  rw [List.length_map, h.length_eq]

/-! ## Writing an event -/

def Event.values (e : Event) : List FieldValue := e.data.entries.map Prod.snd

def Event.wire (e : Event) : List UInt8 :=
  toLittleEndian 4 e.eventType.toNat ++ toLittleEndian 2 e.version.toNat ++
    toLittleEndian 2 e.contextVersion.toNat ++
    toLittleEndian 8 e.context.timestamp.toUInt64.toNat ++ e.context.user.bytes ++
    e.context.address.octets ++ e.values.flatMap FieldValue.wire

/-- The keys that a schema table declares for a type and version are different. -/
def Schema.Table.KeysDiffer (table : Schema.Table) (key : EventKey) : Prop :=
  ∀ specs, table.get? key = some specs → (specs.map FieldSpec.key).Nodup

theorem EventContent.values_event {x : EventContent} {table : Schema.Table} {offset : Nat}
    {specs : List FieldSpec} (hget : table.get? x.key = some specs)
    (hholds : FieldsHold specs x.values) (hkeys : (specs.map FieldSpec.key).Nodup) :
    (x.event table offset).data.entries = fieldEntries specs x.values := by
  rw [event, hget, Option.getD_some]
  refine Fields.entries_ofList ?_
  rwa [map_fst_fieldEntries hholds]

namespace Decoder

/-- The payload that a strict decoder accepts is written from its event, whose fields are those
that the table declares. -/
theorem payload_eq_wire_of_strict {d : Decoder} {r : Record} {e : Event} (hstrict : d.strict = true)
    (hkeys : d.table.KeysDiffer ⟨e.eventType, e.version⟩) (h : d.decode r = .ok (some e)) :
    r.payload = e.wire ∧
      ∃ specs, d.table.get? ⟨e.eventType, e.version⟩ = some specs ∧
        e.data.keys = specs.map FieldSpec.key ∧ FieldsHold specs e.values := by
  obtain ⟨x, rest, hfits, hpayload, hrest, rfl⟩ := decode_eq_some_iff.mp h
  obtain ⟨specs, hget, hholds⟩ := hfits.declared
  have hentries : (x.event d.table r.offset).data.entries = fieldEntries specs x.values :=
    x.values_event hget hholds (hkeys specs hget)
  have hvalues : (x.event d.table r.offset).values = x.values := by
    rw [Event.values, hentries, map_snd_fieldEntries hholds]
  refine ⟨?_, specs, hget, ?_, ?_⟩
  · rw [hpayload, hrest hstrict, List.append_nil, Event.wire, hvalues]
    simp only [EventContent.payload, EventContent.event, EventContent.context,
      Address.octets_ofWords]
  · rw [Fields.keys, hentries, map_fst_fieldEntries hholds]
  · rwa [hvalues]

/-- **A strict decoder forgets nothing.** Where the fields of an event have different keys, the
payload of its record is written from the event alone, with the values that the table declares in
their order; payloads with events that agree in everything but their place are equal. -/
theorem payload_eq_wire {table : Schema.Table} {r : Record} {e : Event}
    (hkeys : table.KeysDiffer ⟨e.eventType, e.version⟩)
    (h : decode { table, strict := true } r = .ok (some e)) :
    (r.payload = e.wire ∧
      ∃ specs, table.get? ⟨e.eventType, e.version⟩ = some specs ∧
        e.data.keys = specs.map FieldSpec.key ∧ FieldsHold specs e.values) ∧
      ∀ (r' : Record) (e' : Event), decode { table, strict := true } r' = .ok (some e') →
        e'.eventType = e.eventType → e'.version = e.version →
        e'.contextVersion = e.contextVersion → e'.context = e.context → e'.data = e.data →
        r'.payload = r.payload := by
  have hwire := payload_eq_wire_of_strict rfl hkeys h
  refine ⟨hwire, ?_⟩
  intro r' e' h' htype hversion hcontextVersion hcontext hdata
  have hkeys' : table.KeysDiffer ⟨e'.eventType, e'.version⟩ := by
    rwa [htype, hversion]
  have hwire' := payload_eq_wire_of_strict rfl hkeys' h'
  calc r'.payload = e'.wire := hwire'.1
    _ = e.wire := by
        simp only [Event.wire, Event.values, htype, hversion, hcontextVersion, hcontext, hdata]
    _ = r.payload := hwire.1.symm

/-- The record of a message that was changed one second before 1970, from an IPv6 address and
without a reason. -/
def changeRecord : Record where
  offset := 8
  payloadOffset := 24
  checksum := 0
  payload :=
    [16, 0, 0, 0, 1, 0, 1, 0] ++ List.replicate 8 255 ++ List.replicate 16 170 ++
      [32, 1, 13, 184, 0, 0, 0, 0, 0, 0, 0, 0, 0, 0, 0, 1] ++
      List.replicate 16 187 ++ [2, 0, 0, 0, 0xC3, 0xA9] ++ [0, 0, 0, 0]

def changeEvent : Event where
  eventType := 16
  typeName := "CHANGE_DISCUSSION_THREAD_MESSAGE_CONTENT"
  version := 1
  contextVersion := 1
  context :=
    { timestamp := -1
      timestampText := "1969-12-31 23:59:59Z"
      user := ⟨List.replicate 16 170, rfl⟩
      address := .v6 0x20010DB8 0 0 1 }
  data :=
    { entries := [("id", .uuid ⟨List.replicate 16 187, rfl⟩), ("content", .string "é"),
        ("change_reason", .string "")]
      nodup_keys := by decide }
  offset := 8

theorem payload_eq_wire_changeRecord :
    Schema.Forum.table.KeysDiffer ⟨16, 1⟩ ∧
      decode { table := Schema.Forum.table, strict := true } changeRecord =
        .ok (some changeEvent) ∧
      changeRecord.payload = changeEvent.wire := by
  have hkeys : Schema.Forum.table.KeysDiffer ⟨16, 1⟩ := by
    intro specs hget
    cases hget
    decide
  have h : decode { table := Schema.Forum.table, strict := true } changeRecord =
      .ok (some changeEvent) := rfl
  exact ⟨hkeys, h, (payload_eq_wire hkeys h).1.1⟩

end Decoder

end EventLog
