import EventLog.Control.Outcome
import EventLog.Event.Basic
import EventLog.Proofs.Wire.Event

set_option autoImplicit false

/-! # Decoding at another place

Positions are absolute: they count from the start of the log. Reading the same bytes a number of
bytes further on gives the same values, or the same fault that many bytes further on. A reader with
this property is `Movable`; sequences of movable readers are movable, so that all of decoding is
(`Decoder.decode_moved`).
-/

namespace EventLog

/-- The same cursor, with the given number of bytes more before it. -/
def Cursor.moved (d : Nat) (c : Cursor) : Cursor := { c with position := c.position + d }

/-- The same fault, found the given number of bytes further on. -/
def Fault.moved (d : Nat) : Fault → Fault
  | framing found offset => framing found (offset + d)
  | shortRead remaining minimum offset => shortRead remaining minimum (offset + d)
  | truncatedRecord length remaining offset => truncatedRecord length remaining (offset + d)
  | checksum expected actual offset => checksum expected actual (offset + d)
  | unsupportedContextVersion version offset => unsupportedContextVersion version (offset + d)
  | unknownSchema key offset => unknownSchema key (offset + d)
  | encoding source offset => encoding source (offset + d)
  | truncated element offset need available => truncated element (offset + d) need available
  | invalidTimestamp seconds offset => invalidTimestamp seconds (offset + d)
  | trailingBytes remaining offset => trailingBytes remaining (offset + d)

/-- The same record, the given number of bytes further on. -/
def Record.moved (d : Nat) (r : Record) : Record :=
  { r with offset := r.offset + d, payloadOffset := r.payloadOffset + d }

/-- The same event, the given number of bytes further on. -/
def Event.moved (d : Nat) (e : Event) : Event := { e with offset := e.offset + d }

/-- A result the given number of bytes further on, where `move` moves the value. -/
def relocate {α : Type} (move : Nat → α → α) (d : Nat) : Except Fault α → Except Fault α
  | .ok a => .ok (move d a)
  | .error fault => .error (fault.moved d)

/-- A value that has no position, and the cursor behind it. -/
def movedPair {α : Type} (d : Nat) (p : α × Cursor) : α × Cursor := (p.1, p.2.moved d)

/-- A reader that gives the same at every place. -/
def Movable {α : Type} (read : Cursor → Except Fault (α × Cursor)) : Prop :=
  ∀ (c : Cursor) (d : Nat), read (c.moved d) = relocate movedPair d (read c)

/-! ## Sequences of readers -/

section Sequences

variable {α β : Type}

theorem movable_pure (a : α) : Movable fun c => .ok (a, c) := fun _ _ => rfl

theorem movable_bind {read : Cursor → Except Fault (α × Cursor)}
    {andThen : α × Cursor → Except Fault (β × Cursor)} (hread : Movable read)
    (hthen : ∀ a, Movable fun c => andThen (a, c)) :
    Movable fun c => read c >>= andThen := by
  intro c d
  simp only
  rw [hread c d]
  cases read c with
  | error fault => rfl
  | ok p => exact hthen p.1 p.2 d

/-- A reader that is movable as long as the value is fixed. -/
theorem movable_map {read : Cursor → Except Fault (α × Cursor)} (f : α → β)
    (hread : Movable read) : Movable fun c => read c >>= fun p => .ok (f p.1, p.2) :=
  movable_bind hread fun a => movable_pure (f a)

end Sequences

/-! ## Elements -/

namespace Cursor

theorem advance_moved (c : Cursor) (d n : Nat) :
    (c.moved d).advance n = (c.advance n).moved d := by
  simp only [advance, moved, Nat.add_right_comm]

theorem take_moved (c : Cursor) (d : Nat) (element : Element) (n : Nat) :
    (c.moved d).take element n = relocate movedPair d (c.take element n) := by
  unfold take
  by_cases h : hasAtLeast n c.rest = true
  · have hmoved : hasAtLeast n (c.moved d).rest = true := h
    rw [if_pos h, if_pos hmoved, advance_moved]
    rfl
  · have hmoved : ¬ hasAtLeast n (c.moved d).rest = true := h
    rw [if_neg h, if_neg hmoved]
    rfl

theorem movable_take (element : Element) (n : Nat) : Movable fun c => c.take element n :=
  fun c d => c.take_moved d element n

theorem movable_number (element : Element) (n : Nat) : Movable fun c => c.number element n :=
  movable_map ofLittleEndian (movable_take element n)

theorem movable_uuid : Movable uuid := by
  intro c d
  unfold uuid
  by_cases h : hasAtLeast 16 c.rest = true
  · have hmoved : hasAtLeast 16 (c.moved d).rest = true := h
    rw [dif_pos h, dif_pos hmoved]
    simp only [advance_moved]
    rfl
  · have hmoved : ¬ hasAtLeast 16 (c.moved d).rest = true := h
    rw [dif_neg h, dif_neg hmoved]
    rfl

theorem movable_address : Movable address :=
  movable_map Address.ofBytes (movable_take .address 16)

/-- A bad byte of a string is found that many bytes further on, too. -/
theorem movable_string : Movable string := by
  refine movable_bind (movable_number .string 4) fun length c d => ?_
  simp only [take_moved]
  cases c.take .string length with
  | error fault => rfl
  | ok p =>
      simp only [relocate, bind, Except.bind, movedPair]
      cases Utf8.toString? p.1 with
      | ok s => rfl
      | error source =>
          simp only [moved, Nat.add_right_comm c.position d]
          rfl

theorem movable_field (layout : Layout) : Movable fun c => c.field layout := by
  cases layout with
  | uuid => exact movable_map FieldValue.uuid movable_uuid
  | string => exact movable_map FieldValue.string movable_string
  | nonEmptyString => exact movable_map FieldValue.string movable_string
  | integer p => exact movable_map p.value (movable_number (.integer p) p.size)

end Cursor

/-! ## Headers, contexts and fields -/

theorem RecordHeader.movable_readFrom : Movable RecordHeader.readFrom := by
  refine movable_bind (Cursor.movable_number .eventType 4) fun eventType => ?_
  refine movable_bind (Cursor.movable_number .eventVersion 2) fun eventVersion => ?_
  exact movable_map
    (fun contextVersion => RecordHeader.mk (UInt32.ofNat eventType) (UInt16.ofNat eventVersion)
      (UInt16.ofNat contextVersion))
    (Cursor.movable_number .contextVersion 2)

namespace Context

theorem movable_readOrigin (timestamp : Int64) : Movable (readOrigin timestamp) := by
  refine movable_bind Cursor.movable_uuid fun user => ?_
  exact movable_map (Context.mk timestamp (EventLog.timestampText timestamp) user)
    Cursor.movable_address

theorem movable_readFrom : Movable readFrom := by
  intro c d
  have hnumber : (c.moved d).number .timestamp 8 =
      relocate movedPair d (c.number .timestamp 8) := Cursor.movable_number .timestamp 8 c d
  rw [readFrom_eq, readFrom_eq, hnumber]
  cases c.number .timestamp 8 with
  | error fault => rfl
  | ok p =>
      simp only [relocate, bind, Except.bind, movedPair]
      split
      · exact movable_readOrigin _ p.2 d
      · rfl

theorem movable_readVersion (version : UInt16) : Movable (readVersion version) := by
  intro c d
  unfold readVersion
  split
  · exact movable_readFrom c d
  · rfl

end Context

namespace Payload

theorem movable_readFields (before : Fields) (specs : List FieldSpec) :
    Movable (readFields before specs) := by
  induction specs generalizing before with
  | nil => exact movable_pure before
  | cons spec specs ih => exact movable_bind (Cursor.movable_field spec.layout) fun value => ih _

theorem movable_readFrom (table : Schema.Table) (key : EventKey) :
    Movable (readFrom table key) := by
  intro c d
  unfold readFrom
  cases table.get? key with
  | none => rfl
  | some specs => exact movable_readFields .empty specs c d

end Payload

/-! ## Events -/

namespace Decoder

theorem decodeBody_moved (decoder : Decoder) (header : RecordHeader) (offset : Nat) (c : Cursor)
    (d : Nat) :
    decoder.decodeBody header (offset + d) (c.moved d) =
      relocate Event.moved d (decoder.decodeBody header offset c) := by
  -- Each part is movable by itself; only the position of trailing bytes is left.
  rw [decodeBody_eq, decodeBody_eq, Context.movable_readVersion header.contextVersion c d]
  cases Context.readVersion header.contextVersion c with
  | error fault => rfl
  | ok p =>
      simp only [relocate, bind, Except.bind, movedPair]
      rw [Payload.movable_readFrom decoder.table header.key p.2 d]
      cases Payload.readFrom decoder.table header.key p.2 with
      | error fault => rfl
      | ok q =>
          simp only [relocate, movedPair, Cursor.moved]
          split
          · rfl
          · rfl

/-- **Decoding does not depend on the place of a record.** The same payload further on in a log
gives the same event or fault, that many bytes further on. -/
theorem decode_moved (decoder : Decoder) (r : Record) (d : Nat) :
    decoder.decode (r.moved d) =
      relocate (fun d => Option.map (Event.moved d)) d (decoder.decode r) := by
  rw [decode_eq, decode_eq]
  have hheader := RecordHeader.movable_readFrom ⟨r.payloadOffset, r.payload⟩ d
  simp only [Cursor.moved] at hheader
  simp only [Record.moved]
  rw [hheader]
  cases RecordHeader.readFrom ⟨r.payloadOffset, r.payload⟩ with
  | error fault => rfl
  | ok p =>
      simp only [relocate, bind, Except.bind, movedPair]
      split
      · rfl
      · rw [decodeBody_moved]
        cases decoder.decodeBody p.1 r.offset p.2 with
        | error fault => rfl
        | ok e => rfl

end Decoder

end EventLog
