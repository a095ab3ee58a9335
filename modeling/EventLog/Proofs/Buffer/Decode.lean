import EventLog.Proofs.Buffer.Place
import EventLog.Proofs.Wire.Fault

set_option autoImplicit false

/-! # Decoding a record by positions

The context and the fields of a record are each read from a position of its payload, which follows
from the sizes of what was read before. A decoder that computes them halts with no breach, and gives
what a decoder gives that goes on behind the header (`Buffer.matches_decode`).
-/

namespace EventLog.Buffer

/-! ## The parts of a payload -/

def headerFrom (p : Place) : Except Halt (RecordHeader × Place) := do
  let (eventType, p) ← p.number .eventType 4
  let (eventVersion, p) ← p.number .eventVersion 2
  let (contextVersion, p) ← p.number .contextVersion 2
  return (⟨UInt32.ofNat eventType, UInt16.ofNat eventVersion, UInt16.ofNat contextVersion⟩, p)

def originFrom (timestamp : Int64) (p : Place) : Except Halt (Context × Place) := do
  let (user, p) ← p.uuid
  let (address, p) ← p.address
  return ({ timestamp, timestampText := timestampText timestamp, user, address }, p)

def contextFrom (p : Place) : Except Halt (Context × Place) := do
  let offset ← p.position
  let (n, afterTime) ← p.number .timestamp 8
  let timestamp := (UInt64.ofNat n).toInt64
  if timestampSupported timestamp then originFrom timestamp afterTime
  else .error (.fault (.invalidTimestamp timestamp offset))

def contextOf (version : UInt16) (p : Place) : Except Halt (Context × Place) := do
  if version = Context.version then contextFrom p
  else do
    let offset ← p.position
    .error (.fault (.unsupportedContextVersion version offset))

def readFields (before : Fields) : List FieldSpec → Place → Except Halt (Fields × Place)
  | [], p => .ok (before, p)
  | spec :: specs, p => do
      let (value, p) ← p.field spec.layout
      readFields (before.insert spec.key value) specs p

/-- Reads the fields declared for a key at a place; where they start is reported before. -/
def fieldsFrom (table : Schema.Table) (key : EventKey) (p : Place) :
    Except Halt (Fields × Place) := do
  let offset ← p.position
  match table.get? key with
  | none => .error (.fault (.unknownSchema key offset))
  | some specs => readFields .empty specs p

/-- Reads at a position of a payload that starts at position `base` of the log; gives the number of
bytes that were read too. -/
def readAt {α : Type} (read : Place → Except Halt (α × Place)) (payload : List UInt8)
    (pos base : Nat) : Except Halt (α × Nat) := do
  let (a, q) ← read (← Place.enter payload pos base)
  let size ← minus q.pos pos
  return (a, size)

/-- Refuses the bytes of a payload from a position on, if there are any. -/
def atEnd (payload : List UInt8) (stop base : Nat) : Except Halt Unit := do
  if stop = payload.length then .ok ()
  else do
    let remaining ← minus payload.length stop
    let offset ← plus base stop
    .error (.fault (.trailingBytes remaining offset))

/-- Decodes what follows the header of a record. -/
def decodeBody (d : Decoder) (header : RecordHeader) (offset : Nat) (payload : List UInt8)
    (base : Nat) : Except Halt Event := do
  let (context, size) ← readAt (contextOf header.contextVersion) payload RecordHeader.size base
  let start ← plus RecordHeader.size size
  let (data, consumed) ← readAt (fieldsFrom d.table header.key) payload start base
  let stop ← plus start consumed
  if d.strict then atEnd payload stop base
  return d.assemble header offset context data

/-- The event of a record, if it carries one. -/
def decode (d : Decoder) (r : Record) : Except Halt (Option Event) := do
  let (header, _) ← headerFrom (← Place.enter r.payload 0 r.payloadOffset)
  if header.isSentinel then return none
  else do
    let event ← decodeBody d header r.offset r.payload r.payloadOffset
    return some event

/-! ## Agreement of the parts -/

section Agreement

variable {p : Place}

theorem agrees_headerFrom (hp : p.Sound) :
    Agrees p (headerFrom p) (RecordHeader.readFrom p.cursor) := by
  refine (hp.agrees_number .eventType nofun (by decide)).bind hp fun eventType p1 _ hp1 => ?_
  refine (hp1.agrees_number .eventVersion nofun (by decide)).bind hp1 fun eventVersion p2 _ hp2 => ?_
  exact (hp2.agrees_number .contextVersion nofun (by decide)).map (fun contextVersion =>
    RecordHeader.mk (UInt32.ofNat eventType) (UInt16.ofNat eventVersion)
      (UInt16.ofNat contextVersion)) hp2

theorem agrees_originFrom (timestamp : Int64) (hp : p.Sound) :
    Agrees p (originFrom timestamp p) (Context.readOrigin timestamp p.cursor) := by
  refine hp.agrees_uuid.bind hp fun user q _ hq => ?_
  exact hq.agrees_address.map (fun address =>
    Context.mk timestamp (timestampText timestamp) user address) hq

theorem agrees_contextFrom (hp : p.Sound) :
    Agrees p (contextFrom p) (Context.readFrom p.cursor) := by
  unfold contextFrom
  rw [hp.position_eq, Context.readFrom_eq]
  refine (hp.agrees_number .timestamp nofun (by decide)).bind hp fun n p1 _ hp1 => ?_
  dsimp only
  split
  · exact agrees_originFrom _ hp1
  · exact agrees_error trivial

theorem agrees_contextOf (hp : p.Sound) (version : UInt16) :
    Agrees p (contextOf version p) (Context.readVersion version p.cursor) := by
  unfold contextOf Context.readVersion
  split
  · exact agrees_contextFrom hp
  · rw [hp.position_eq]
    exact agrees_error trivial

theorem agrees_readFields (specs : List FieldSpec) (before : Fields) (hp : p.Sound) :
    Agrees p (readFields before specs p) (Payload.readFields before specs p.cursor) := by
  induction specs generalizing before p with
  | nil => exact agrees_ok before hp.reaches_self
  | cons spec specs ih =>
      exact (hp.agrees_field spec.layout).bind hp fun value q _ hq =>
        ih (before.insert spec.key value) hq

theorem agrees_fieldsFrom (table : Schema.Table) (key : EventKey) (hp : p.Sound) :
    Agrees p (fieldsFrom table key p) (Payload.readFrom table key p.cursor) := by
  unfold fieldsFrom Payload.readFrom
  rw [hp.position_eq]
  cases table.get? key with
  | none => exact agrees_error trivial
  | some specs => exact agrees_readFields specs .empty hp

end Agreement

/-! ## Agreement of the decoders -/

/-- A step over a buffer gives what one gives that computes no positions; a fault among it is not
about a position behind the end of the buffer. -/
def Matches {α : Type} (x : Except Halt α) (y : Except Fault α) : Prop :=
  x = y.mapError .fault ∧ ∀ fault, y = .error fault → Inside fault

theorem matches_error {α : Type} {fault : Fault} (h : Inside fault) :
    Matches (α := α) (.error (.fault fault)) (.error fault) :=
  ⟨rfl, fun _ hsame => Except.error.inj hsame ▸ h⟩

theorem matches_ok {α : Type} (a : α) : Matches (.ok a) (.ok a) := ⟨rfl, nofun⟩

theorem Matches.map {α β : Type} {x : Except Halt α} {y : Except Fault α} (f : α → β)
    (h : Matches x y) : Matches (x >>= fun a => .ok (f a)) (y >>= fun a => .ok (f a)) := by
  obtain ⟨rfl, hin⟩ := h
  cases y with
  | error fault => exact matches_error (hin fault rfl)
  | ok a => exact matches_ok (f a)

/-- What is left over is counted from the end of the payload. -/
theorem matches_atEnd {p : Place} (hp : p.Sound) :
    Matches (atEnd p.buffer p.pos p.base) (Decoder.atEnd p.cursor) := by
  have hpos := hp.pos_le
  have hrest : p.cursor.rest.isEmpty = true ↔ p.pos = p.buffer.length := by
    rw [List.isEmpty_iff, ← List.length_eq_zero_iff, p.length_rest_cursor]
    omega
  unfold atEnd Decoder.atEnd
  by_cases hend : p.pos = p.buffer.length
  · rw [if_pos hend, if_pos (hrest.mpr hend)]
    exact matches_ok ()
  · have hposition : plus p.base p.pos = .ok p.cursor.position := hp.position_eq
    rw [if_neg hend, if_neg (mt hrest.mp hend), minus_of_le hpos, ok_bind, hposition,
      p.length_rest_cursor]
    exact matches_error trivial

/-- What is read from a position is read at its place, and as many bytes as lie before the next. -/
theorem readAt_cases {α : Type} {read : Place → Except Halt (α × Place)} {p : Place}
    {y : Except Fault (α × Cursor)} (hp : p.Sound) (h : Agrees p (read p) y) :
    (∃ fault, readAt read p.buffer p.pos p.base = .error (.fault fault) ∧ y = .error fault ∧
      Inside fault) ∨
    ∃ a q, readAt read p.buffer p.pos p.base = .ok (a, q.pos - p.pos) ∧
      y = .ok (a, q.cursor) ∧ p.Reaches q := by
  have hread : readAt read p.buffer p.pos p.base =
      read p >>= fun (a, q) => minus q.pos p.pos >>= fun size => .ok (a, size) := by
    rw [readAt, Place.enter_of_le hp]
    rfl
  rw [hread]
  rcases h with ⟨fault, hx, hy, hin⟩ | ⟨a, q, hx, hy, hq⟩
  · exact .inl ⟨fault, by rw [hx]; rfl, hy, hin⟩
  · refine .inr ⟨a, q, ?_, hy, hq⟩
    rw [hx, ok_bind]
    dsimp only
    rw [minus_of_le hq.pos_le, ok_bind]

/-- The parts of a payload follow each other, so that each begins where a cursor stands that has
read the parts before it. -/
theorem matches_decodeBody (d : Decoder) (header : RecordHeader) (offset : Nat) {p : Place}
    (hp : p.Sound) (hpos : p.pos = RecordHeader.size) :
    Matches (decodeBody d header offset p.buffer p.base)
      (d.decodeBody header offset p.cursor) := by
  rw [decodeBody, Decoder.decodeBody, ← hpos]
  rcases readAt_cases hp (agrees_contextOf hp header.contextVersion) with
    ⟨fault, hx, hy, hin⟩ | ⟨x, q, hx, hy, hq⟩
  · rw [hx, hy]
    exact matches_error hin
  -- The context ends at `q`: its size leads to the same position as the cursor.
  have hqs := hq.sound hp
  rw [hx, hy, ok_bind, ok_bind]
  dsimp only
  rw [hq.plus_eq hp, ok_bind, ← hq.buffer_eq, ← hq.base_eq]
  rcases readAt_cases hqs (agrees_fieldsFrom d.table header.key hqs) with
    ⟨fault, hx, hy, hin⟩ | ⟨data, r, hx, hy, hr⟩
  · rw [hx, hy]
    exact matches_error hin
  rw [hx, hy, ok_bind, ok_bind]
  dsimp only
  rw [hr.plus_eq hqs, ok_bind]
  cases hstrict : d.strict with
  | false => exact matches_ok (d.assemble header offset x data)
  | true =>
      have hend := matches_atEnd (hr.sound hqs)
      rw [hr.buffer_eq, hr.base_eq] at hend
      exact hend.map fun _ => d.assemble header offset x data

/-- **A decoder that computes positions halts with no breach.** Where a payload has its place in a
log, it is decoded as by a decoder that computes none, and no position behind its end is reported. -/
theorem matches_decode (d : Decoder) {r : Record}
    (hroom : r.payloadOffset + r.payload.length < 2 ^ 63) :
    Matches (decode d r) (d.decode r) := by
  have hp : Place.Sound ⟨r.payload, 0, r.payloadOffset⟩ := ⟨Nat.zero_le _, hroom⟩
  rw [decode, Place.enter_of_le hp, ok_bind, Decoder.decode]
  show Matches _ (RecordHeader.readFrom (Place.cursor ⟨r.payload, 0, r.payloadOffset⟩) >>= _)
  rcases agrees_headerFrom hp with ⟨fault, hx, hy, hin⟩ | ⟨header, q, hx, hy, hq⟩
  · rw [hx, hy]
    exact matches_error hin
  -- A header has a fixed size, so that the body is decoded from where the cursor stands.
  have hpos : q.pos = RecordHeader.size := by
    have hposition := (RecordHeader.readFrom_eq_ok_iff.mp hy).2
    rw [header.length_wire] at hposition
    have hbase : q.base = r.payloadOffset := hq.base_eq
    have hsum : q.base + q.pos = r.payloadOffset + 0 + RecordHeader.size := hposition
    omega
  rw [hx, hy, ok_bind, ok_bind]
  dsimp only
  split
  · exact matches_ok none
  · have hbody := matches_decodeBody d header r.offset (hq.sound hp) hpos
    rw [hq.buffer_eq, hq.base_eq] at hbody
    exact hbody.map some

end EventLog.Buffer
