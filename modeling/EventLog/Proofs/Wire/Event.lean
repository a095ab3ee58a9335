import EventLog.Event.Basic
import EventLog.Proofs.Wire.Field
import Mathlib.Data.List.Forall2

set_option autoImplicit false

/-! # Events on the wire

An `EventContent` is what a record says about one event. Its payload is written as a header, the
context and the fields, one after another. A decoder succeeds exactly on payloads that begin with
those of a content that fits the schema table, and gives the event of that content
(`Decoder.decode_eq_some_iff`); a strict decoder asks that nothing follows. A payload whose first
four bytes are zero ends a batch (`Decoder.decode_eq_none_iff`).
-/

namespace EventLog

/-- Values of the kinds that a list of fields declares, one for each. -/
def FieldsHold (specs : List FieldSpec) (values : List FieldValue) : Prop :=
  List.Forall₂ (fun spec v => spec.layout.Holds v) specs values

/-- The keys of fields with their values, in the order of the fields. -/
def fieldEntries (specs : List FieldSpec) (values : List FieldValue) :
    List (String × FieldValue) :=
  (specs.map FieldSpec.key).zip values

/-- What a record says about an event. The address is given by its four words. -/
structure EventContent where
  eventType : UInt32
  version : UInt16
  timestamp : Int64
  user : Uuid
  w0 : UInt32
  w1 : UInt32
  w2 : UInt32
  w3 : UInt32
  values : List FieldValue

namespace EventContent

def payload (x : EventContent) : List UInt8 :=
  toLittleEndian 4 x.eventType.toNat ++ toLittleEndian 2 x.version.toNat ++
    toLittleEndian 2 Context.version.toNat ++ toLittleEndian 8 x.timestamp.toUInt64.toNat ++
    x.user.bytes ++ Address.wordsBytes x.w0 x.w1 x.w2 x.w3 ++
    x.values.flatMap FieldValue.wire

/-- The key under which the fields of the content are declared. -/
def key (x : EventContent) : EventKey := ⟨x.eventType, x.version⟩

/-- Content that a record can carry under a schema table: its type does not end a batch, its
timestamp has a calendar text, and its values are of the kinds declared. -/
structure Fits (x : EventContent) (table : Schema.Table) : Prop where
  type_ne_zero : x.eventType ≠ 0
  min_le_timestamp : minTimestamp ≤ x.timestamp.toInt
  timestamp_le_max : x.timestamp.toInt ≤ maxTimestamp
  declared : ∃ specs, table.get? x.key = some specs ∧ FieldsHold specs x.values

def context (x : EventContent) : Context where
  timestamp := x.timestamp
  timestampText := timestampText x.timestamp
  user := x.user
  address := .ofWords x.w0 x.w1 x.w2 x.w3

/-- The event that the content makes under a schema table, for a record at the given position. -/
def event (x : EventContent) (table : Schema.Table) (offset : Nat) : Event where
  eventType := x.eventType
  typeName := table.typeName x.eventType
  version := x.version
  contextVersion := Context.version
  context := x.context
  data := .ofList (fieldEntries ((table.get? x.key).getD []) x.values)
  offset := offset

end EventContent

/-! ## Headers -/

def RecordHeader.wire (h : RecordHeader) : List UInt8 :=
  toLittleEndian 4 h.eventType.toNat ++ toLittleEndian 2 h.eventVersion.toNat ++
    toLittleEndian 2 h.contextVersion.toNat

theorem RecordHeader.readFrom_eq_ok_iff {c next : Cursor} {h : RecordHeader} :
    RecordHeader.readFrom c = .ok (h, next) ↔ c.Spans h.wire next := by
  rw [readFrom, wire, Cursor.spans_append, bind_eq_ok]
  constructor
  · rintro ⟨⟨n1, c1⟩, h1, hrest⟩
    obtain ⟨⟨n2, c2⟩, h2, hrest⟩ := bind_eq_ok.mp hrest
    obtain ⟨⟨n3, c3⟩, h3, hrest⟩ := bind_eq_ok.mp hrest
    rw [Cursor.number_eq_ok_iff] at h1 h2 h3
    cases hrest
    rw [UInt32.toNat_ofNat_of_lt' h1.1, UInt16.toNat_ofNat_of_lt' h2.1,
      UInt16.toNat_ofNat_of_lt' h3.1]
    exact ⟨c2, Cursor.spans_append.mpr ⟨c1, h1.2, h2.2⟩, h3.2⟩
  · rintro ⟨c2, h12, h3⟩
    obtain ⟨c1, h1, h2⟩ := Cursor.spans_append.mp h12
    refine ⟨(h.eventType.toNat, c1), Cursor.number_eq_ok_iff.mpr ⟨h.eventType.toNat_lt, h1⟩, ?_⟩
    refine bind_eq_ok.mpr ⟨(h.eventVersion.toNat, c2),
      Cursor.number_eq_ok_iff.mpr ⟨h.eventVersion.toNat_lt, h2⟩, ?_⟩
    refine bind_eq_ok.mpr ⟨(h.contextVersion.toNat, next),
      Cursor.number_eq_ok_iff.mpr ⟨h.contextVersion.toNat_lt, h3⟩, ?_⟩
    simp only [UInt32.ofNat_toNat, UInt16.ofNat_toNat]
    rfl

@[simp]
theorem RecordHeader.length_wire (h : RecordHeader) : h.wire.length = size := by
  simp [wire, size]

/-- Eight bytes are those of a header. -/
theorem RecordHeader.exists_wire {bytes : List UInt8} (h : bytes.length = size) :
    ∃ header : RecordHeader, bytes = header.wire := by
  rw [size] at h
  have h1 : (bytes.take 4).length = 4 := by simp [h]
  have h2 : ((bytes.drop 4).take 2).length = 2 := by simp [h]
  have h3 : (bytes.drop 6).length = 2 := by simp [h]
  -- Numbers of so many bytes fit their words, so no byte is lost on the way.
  have lt1 := ofLittleEndian_lt (bytes.take 4)
  have lt2 := ofLittleEndian_lt ((bytes.drop 4).take 2)
  have lt3 := ofLittleEndian_lt (bytes.drop 6)
  rw [h1] at lt1
  rw [h2] at lt2
  rw [h3] at lt3
  refine ⟨⟨UInt32.ofNat (ofLittleEndian (bytes.take 4)),
    UInt16.ofNat (ofLittleEndian ((bytes.drop 4).take 2)),
    UInt16.ofNat (ofLittleEndian (bytes.drop 6))⟩, ?_⟩
  rw [wire, UInt32.toNat_ofNat_of_lt' lt1, UInt16.toNat_ofNat_of_lt' lt2,
    UInt16.toNat_ofNat_of_lt' lt3, ← (eq_toLittleEndian_iff lt1).mpr ⟨h1, rfl⟩,
    ← (eq_toLittleEndian_iff lt2).mpr ⟨h2, rfl⟩, ← (eq_toLittleEndian_iff lt3).mpr ⟨h3, rfl⟩,
    List.append_assoc]
  calc bytes = bytes.take 4 ++ bytes.drop 4 := (List.take_append_drop 4 bytes).symm
    _ = bytes.take 4 ++ ((bytes.drop 4).take 2 ++ (bytes.drop 4).drop 2) := by
        rw [List.take_append_drop 2]
    _ = _ := by rw [List.drop_drop]

/-- A header of type zero starts with four zeros. -/
theorem RecordHeader.take_wire_eq_zeros_iff (h : RecordHeader) (rest : List UInt8) :
    (h.wire ++ rest).take 4 = List.replicate 4 0 ↔ h.eventType = 0 := by
  rw [wire, List.append_assoc, List.append_assoc, List.take_left' (length_toLittleEndian 4 _),
    eq_comm, eq_toLittleEndian_iff h.eventType.toNat_lt, ← UInt32.toNat_inj]
  exact ⟨fun hzero => hzero.2.symm, fun hzero => ⟨rfl, hzero.symm⟩⟩

/-! ## Contexts -/

namespace Context

def wire (x : Context) : List UInt8 :=
  toLittleEndian 8 x.timestamp.toUInt64.toNat ++ x.user.bytes ++ x.address.octets

/-- A context as it is read: its timestamp is supported and has its calendar text, and its address
is that of four words. -/
structure Readable (x : Context) : Prop where
  supported : timestampSupported x.timestamp = true
  text : x.timestampText = EventLog.timestampText x.timestamp
  address : ∃ w0 w1 w2 w3, x.address = Address.ofWords w0 w1 w2 w3

def readOrigin (timestamp : Int64) (c : Cursor) : Except Fault (Context × Cursor) := do
  let (user, c) ← c.uuid
  let (address, c) ← c.address
  return ({ timestamp, timestampText := EventLog.timestampText timestamp, user, address }, c)

/-- The timestamp is judged before anything after it is read. -/
theorem readFrom_eq (c : Cursor) :
    readFrom c = c.number .timestamp 8 >>= fun (n, afterTime) =>
      if timestampSupported (UInt64.ofNat n).toInt64 then
        readOrigin (UInt64.ofNat n).toInt64 afterTime
      else .error (.invalidTimestamp (UInt64.ofNat n).toInt64 c.position) := by
  unfold readFrom
  refine bind_congr fun ⟨n, afterTime⟩ => ?_
  by_cases h : timestampSupported (UInt64.ofNat n).toInt64 = true
  · simp only [h, Bool.not_true, Bool.false_eq_true, if_false, if_true]
    rfl
  · simp only [h, Bool.not_false, if_true, if_false, Bool.false_eq_true]
    rfl

theorem readOrigin_eq_ok_iff {timestamp : Int64} {c next : Cursor} {x : Context} :
    readOrigin timestamp c = .ok (x, next) ↔
      x.timestamp = timestamp ∧ x.timestampText = EventLog.timestampText timestamp ∧
      (∃ w0 w1 w2 w3, x.address = .ofWords w0 w1 w2 w3) ∧
      c.Spans (x.user.bytes ++ x.address.octets) next := by
  rw [readOrigin, bind_eq_ok, Cursor.spans_append]
  constructor
  · rintro ⟨⟨u, c1⟩, hu, hrest⟩
    obtain ⟨⟨a, c2⟩, ha, hrest⟩ := bind_eq_ok.mp hrest
    -- The address is given back by its words, since the text form need not show all of them.
    obtain ⟨w0, w1, w2, w3, rfl, hspans⟩ := Cursor.address_eq_ok_iff.mp ha
    cases hrest
    refine ⟨rfl, rfl, ⟨w0, w1, w2, w3, rfl⟩, c1, Cursor.uuid_eq_ok_iff.mp hu, ?_⟩
    rwa [Address.octets_ofWords]
  · rintro ⟨rfl, htext, ⟨w0, w1, w2, w3, haddress⟩, c1, hu, ha⟩
    rw [haddress, Address.octets_ofWords] at ha
    refine ⟨(x.user, c1), Cursor.uuid_eq_ok_iff.mpr hu, ?_⟩
    refine bind_eq_ok.mpr ⟨(x.address, next),
      Cursor.address_eq_ok_iff.mpr ⟨w0, w1, w2, w3, haddress, ha⟩, ?_⟩
    simp only [← htext]
    rfl

/-- A context is read exactly from its bytes. -/
theorem readFrom_eq_ok_iff {c next : Cursor} {x : Context} :
    readFrom c = .ok (x, next) ↔ x.Readable ∧ c.Spans x.wire next := by
  rw [readFrom_eq, bind_eq_ok, wire, List.append_assoc, Cursor.spans_append]
  constructor
  · rintro ⟨⟨n, c1⟩, hn, hrest⟩
    obtain ⟨hlt, h1⟩ := Cursor.number_eq_ok_iff.mp hn
    simp only at hrest
    split at hrest
    · next hs =>
        obtain ⟨htime, htext, haddress, h2⟩ := readOrigin_eq_ok_iff.mp hrest
        refine ⟨⟨?_, ?_, haddress⟩, c1, ?_, h2⟩
        · rwa [htime]
        · rwa [htime]
        · rwa [htime, UInt64.toUInt64_toInt64, UInt64.toNat_ofNat_of_lt' hlt]
    · cases hrest
  · rintro ⟨⟨hs, htext, haddress⟩, c1, h1, h2⟩
    refine ⟨(x.timestamp.toUInt64.toNat, c1),
      Cursor.number_eq_ok_iff.mpr ⟨x.timestamp.toUInt64.toNat_lt, h1⟩, ?_⟩
    simp only [UInt64.ofNat_toNat, Int64.toInt64_toUInt64, hs, if_true]
    exact readOrigin_eq_ok_iff.mpr ⟨rfl, htext, haddress, h2⟩

theorem readVersion_eq_ok_iff {version : UInt16} {c next : Cursor} {x : Context} :
    readVersion version c = .ok (x, next) ↔
      version = Context.version ∧ x.Readable ∧ c.Spans x.wire next := by
  unfold readVersion
  split
  · next hversion =>
      rw [readFrom_eq_ok_iff]
      exact (and_iff_right hversion).symm
  · next hversion => exact iff_of_false nofun fun h => hversion h.1

theorem length_wire {x : Context} (h : x.Readable) : x.wire.length = size := by
  obtain ⟨w0, w1, w2, w3, haddress⟩ := h.address
  rw [wire, haddress, Address.octets_ofWords, List.length_append, List.length_append,
    length_toLittleEndian, x.user.length_bytes, Address.length_wordsBytes]
  rfl

end Context

/-! ## Fields -/

namespace Payload

/-- Fields are read exactly from the wire forms of values of the kinds declared; their map is that
of the keys and values. -/
theorem readFields_eq_ok_iff {specs : List FieldSpec} {before fields : Fields}
    {c next : Cursor} :
    readFields before specs c = .ok (fields, next) ↔
      ∃ values, FieldsHold specs values ∧ c.Spans (values.flatMap FieldValue.wire) next ∧
        fields = (fieldEntries specs values).foldl
          (fun map entry => map.insert entry.1 entry.2) before := by
  -- On the fields that are declared; those read before are in the map already.
  induction specs generalizing before c with
  | nil =>
      simp only [readFields, FieldsHold, List.forall₂_nil_left_iff, exists_eq_left]
      constructor
      · intro h
        cases h
        exact ⟨Cursor.spans_nil.mpr rfl, rfl⟩
      · rintro ⟨hspans, rfl⟩
        rw [Cursor.spans_nil.mp hspans]
  | cons spec specs ih =>
      rw [readFields, bind_eq_ok]
      constructor
      · rintro ⟨⟨v, c'⟩, hv, hrest⟩
        obtain ⟨hholds, hspan⟩ := Cursor.field_eq_ok_iff.mp hv
        obtain ⟨values, hvalues, hspans, hfields⟩ := ih.mp hrest
        refine ⟨v :: values, .cons hholds hvalues, ?_, hfields⟩
        rw [List.flatMap_cons, Cursor.spans_append]
        exact ⟨c', hspan, hspans⟩
      · rintro ⟨values, hvalues, hspans, hfields⟩
        cases hvalues with
        | @cons _ v _ values hholds hvalues =>
            rw [List.flatMap_cons, Cursor.spans_append] at hspans
            obtain ⟨c', hspan, hspans⟩ := hspans
            refine ⟨(v, c'), Cursor.field_eq_ok_iff.mpr ⟨hholds, hspan⟩, ?_⟩
            exact ih.mpr ⟨values, hvalues, hspans, hfields⟩

theorem readFrom_eq_ok_iff {table : Schema.Table} {key : EventKey} {c next : Cursor}
    {fields : Fields} :
    readFrom table key c = .ok (fields, next) ↔
      ∃ specs values, table.get? key = some specs ∧ FieldsHold specs values ∧
        c.Spans (values.flatMap FieldValue.wire) next ∧
        fields = .ofList (fieldEntries specs values) := by
  unfold readFrom
  cases hget : table.get? key with
  | none => simp
  | some specs =>
      simp only [readFields_eq_ok_iff, Option.some.injEq, Fields.ofList, exists_and_left,
        exists_eq_left']

end Payload

/-! ## Events -/

namespace EventContent

theorem context_readable {x : EventContent} {table : Schema.Table} (h : x.Fits table) :
    x.context.Readable where
  supported := by
    simp only [context, timestampSupported, h.min_le_timestamp, h.timestamp_le_max, decide_true,
      Bool.and_self]
  text := rfl
  address := ⟨x.w0, x.w1, x.w2, x.w3, rfl⟩

def header (x : EventContent) : RecordHeader := ⟨x.eventType, x.version, Context.version⟩

/-- A context that can be read is made by its timestamp, its user and four words. -/
theorem exists_context {c : Context} (h : c.Readable) :
    minTimestamp ≤ c.timestamp.toInt ∧ c.timestamp.toInt ≤ maxTimestamp ∧
      ∃ w0 w1 w2 w3, ∀ eventType version values,
        context ⟨eventType, version, c.timestamp, c.user, w0, w1, w2, w3, values⟩ = c := by
  obtain ⟨hsupported, htext, w0, w1, w2, w3, haddress⟩ := h
  rw [timestampSupported, Bool.and_eq_true, decide_eq_true_iff, decide_eq_true_iff] at hsupported
  refine ⟨hsupported.1, hsupported.2, w0, w1, w2, w3, fun _ _ _ => ?_⟩
  rw [context, ← htext, ← haddress]

theorem payload_eq (x : EventContent) :
    x.payload = x.header.wire ++ (x.context.wire ++ x.values.flatMap FieldValue.wire) := by
  simp only [payload, header, RecordHeader.wire, Context.wire, context, Address.octets_ofWords,
    List.append_assoc]

end EventContent

namespace Decoder

/-- The event of the header, context and fields of a record. -/
def assemble (d : Decoder) (header : RecordHeader) (offset : Nat) (context : Context)
    (data : Fields) : Event where
  eventType := header.eventType
  typeName := d.table.typeName header.eventType
  version := header.eventVersion
  contextVersion := header.contextVersion
  context := context
  data := data
  offset := offset

theorem decodeBody_eq (d : Decoder) (header : RecordHeader) (offset : Nat) (c : Cursor) :
    d.decodeBody header offset c =
      Context.readVersion header.contextVersion c >>= fun (context, c) =>
        Payload.readFrom d.table header.key c >>= fun (data, c) =>
          if d.strict = true ∧ c.rest ≠ [] then .error (.trailingBytes c.rest.length c.position)
          else .ok (d.assemble header offset context data) := by
  unfold decodeBody
  refine bind_congr fun ⟨context, c1⟩ => ?_
  dsimp only
  refine bind_congr fun ⟨data, c2⟩ => ?_
  cases hs : d.strict with
  | false => simp only [Bool.false_eq_true, if_false, false_and]; rfl
  | true =>
      simp only [atEnd, if_true, true_and]
      by_cases hrest : c2.rest = []
      · simp only [hrest, List.isEmpty_nil, if_true, ne_eq, not_true, if_false]
        rfl
      · simp only [List.isEmpty_iff, hrest, if_false, ne_eq, not_false_eq_true, if_true]
        rfl

theorem decode_eq (d : Decoder) (r : Record) :
    d.decode r = RecordHeader.readFrom ⟨r.payloadOffset, r.payload⟩ >>= fun (header, c) =>
      if header.eventType = 0 then .ok none
      else (d.decodeBody header r.offset c).map some := by
  unfold decode
  refine bind_congr fun ⟨header, c⟩ => ?_
  simp only [RecordHeader.isSentinel, beq_iff_eq]
  split
  · rfl
  · cases d.decodeBody header r.offset c with
    | error fault => rfl
    | ok e => rfl

/-- The event of a record after its header is decoded exactly from a context and fields of the
kinds declared; under a strict decoder nothing follows them. -/
theorem decodeBody_eq_ok_iff {d : Decoder} {header : RecordHeader} {offset : Nat} {c : Cursor}
    {e : Event} :
    d.decodeBody header offset c = .ok e ↔
      header.contextVersion = Context.version ∧
      ∃ context specs values next, context.Readable ∧
        d.table.get? header.key = some specs ∧ FieldsHold specs values ∧
        c.Spans (context.wire ++ values.flatMap FieldValue.wire) next ∧
        (d.strict = true → next.rest = []) ∧
        e = d.assemble header offset context (.ofList (fieldEntries specs values)) := by
  rw [decodeBody_eq, bind_eq_ok]
  constructor
  · -- Context, fields and end of the payload are read in turn, each behind the one before.
    rintro ⟨⟨context, c1⟩, hcontext, hrest⟩
    obtain ⟨⟨data, c2⟩, hdata, hrest⟩ := bind_eq_ok.mp hrest
    obtain ⟨hversion, hreadable, hspan⟩ := Context.readVersion_eq_ok_iff.mp hcontext
    obtain ⟨specs, values, hget, hholds, hspans, rfl⟩ := Payload.readFrom_eq_ok_iff.mp hdata
    simp only at hrest
    split at hrest
    · cases hrest
    · next hstrict =>
        cases hrest
        refine ⟨hversion, context, specs, values, c2, hreadable, hget, hholds, ?_, ?_, rfl⟩
        · exact Cursor.spans_append.mpr ⟨c1, hspan, hspans⟩
        · intro hs
          by_contra hne
          exact hstrict ⟨hs, hne⟩
  · rintro ⟨hversion, context, specs, values, next, hreadable, hget, hholds, hspans, hstrict, rfl⟩
    obtain ⟨c1, hspan, hspans⟩ := Cursor.spans_append.mp hspans
    refine ⟨(context, c1), ?_, ?_⟩
    · exact Context.readVersion_eq_ok_iff.mpr ⟨hversion, hreadable, hspan⟩
    · refine bind_eq_ok.mpr ⟨(.ofList (fieldEntries specs values), next), ?_, ?_⟩
      · exact Payload.readFrom_eq_ok_iff.mpr ⟨specs, values, hget, hholds, hspans, rfl⟩
      · exact if_neg fun h => h.2 (hstrict h.1)

/-- **The payloads of events.** A record decodes to an event exactly when its payload begins with
that of a content that fits the schema table, and ends there under a strict decoder; the event is
the one that the content makes. -/
theorem decode_eq_some_iff {d : Decoder} {r : Record} {e : Event} :
    d.decode r = .ok (some e) ↔
      ∃ (x : EventContent) (rest : List UInt8), x.Fits d.table ∧ r.payload = x.payload ++ rest ∧
        (d.strict = true → rest = []) ∧ e = x.event d.table r.offset := by
  rw [decode_eq, bind_eq_ok]
  constructor
  · rintro ⟨⟨header, c1⟩, hheader, hbody⟩
    obtain ⟨hspan, -⟩ := RecordHeader.readFrom_eq_ok_iff.mp hheader
    simp only at hbody
    split at hbody
    · cases hbody
    · next htype =>
        obtain ⟨e', he', hsome⟩ := map_eq_ok.mp hbody
        cases hsome
        obtain ⟨hversion, context, specs, values, next, hreadable, hget, hholds, ⟨hbytes, -⟩,
          hstrict, rfl⟩ := decodeBody_eq_ok_iff.mp he'
        obtain ⟨hmin, hmax, w0, w1, w2, w3, hcontext⟩ := EventContent.exists_context hreadable
        -- The content is put together from what was read at each place.
        let x : EventContent :=
          { eventType := header.eventType, version := header.eventVersion,
            timestamp := context.timestamp, user := context.user, w0, w1, w2, w3, values }
        have hheader : x.header = header := by
          rw [EventContent.header, ← hversion]
        refine ⟨x, next.rest, ⟨htype, hmin, hmax, specs, hget, hholds⟩, ?_, hstrict, ?_⟩
        · rw [x.payload_eq, hheader, hcontext, List.append_assoc, ← hbytes]
          exact hspan
        · rw [assemble, EventContent.event, hversion, hcontext,
            show d.table.get? x.key = some specs from hget]
          rfl
  · rintro ⟨x, rest, hfits, hpayload, hstrict, rfl⟩
    obtain ⟨specs, hget, hholds⟩ := hfits.declared
    rw [x.payload_eq, List.append_assoc] at hpayload
    refine ⟨(x.header, ⟨r.payloadOffset + x.header.wire.length,
      x.context.wire ++ x.values.flatMap FieldValue.wire ++ rest⟩), ?_, ?_⟩
    · exact RecordHeader.readFrom_eq_ok_iff.mpr ⟨hpayload, rfl⟩
    · refine (if_neg hfits.type_ne_zero).trans (map_eq_ok.mpr ⟨_, ?_, rfl⟩)
      refine decodeBody_eq_ok_iff.mpr ⟨rfl, x.context, specs, x.values, ⟨_, rest⟩,
        EventContent.context_readable hfits, hget, hholds, ⟨rfl, rfl⟩, hstrict, ?_⟩
      rw [assemble, EventContent.event, hget]
      rfl

/-- A record ends a batch exactly when its payload has a whole header whose type is zero. -/
theorem decode_eq_none_iff {d : Decoder} {r : Record} :
    d.decode r = .ok none ↔
      RecordHeader.size ≤ r.payload.length ∧ r.payload.take 4 = List.replicate 4 0 := by
  rw [decode_eq, bind_eq_ok]
  constructor
  · rintro ⟨⟨header, c⟩, hheader, hbody⟩
    obtain ⟨hspan, -⟩ := RecordHeader.readFrom_eq_ok_iff.mp hheader
    simp only at hspan hbody
    split at hbody
    · next hzero =>
        rw [hspan, List.length_append, header.length_wire]
        exact ⟨Nat.le_add_right _ _, (header.take_wire_eq_zeros_iff c.rest).mpr hzero⟩
    · obtain ⟨e, -, hsome⟩ := map_eq_ok.mp hbody
      cases hsome
  · rintro ⟨hsize, hzeros⟩
    obtain ⟨header, hwire⟩ := RecordHeader.exists_wire (List.length_take_of_le hsize)
    -- Any eight bytes are a header, and the type is the first four of them.
    have hspan : r.payload = header.wire ++ r.payload.drop RecordHeader.size := by
      rw [← hwire, List.take_append_drop]
    rw [hspan, header.take_wire_eq_zeros_iff] at hzeros
    refine ⟨(header, ⟨r.payloadOffset + header.wire.length, r.payload.drop RecordHeader.size⟩),
      RecordHeader.readFrom_eq_ok_iff.mpr ⟨hspan, rfl⟩, ?_⟩
    exact if_pos hzeros

end Decoder

end EventLog
