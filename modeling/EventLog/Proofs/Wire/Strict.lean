import EventLog.Proofs.Wire.Fault

set_option autoImplicit false

/-! # Strict and lenient decoding

Both kinds of decoder read a record in the same way up to its last field
(`Decoder.decode_eq_decodeFront`); they differ only where an event was read and bytes are left over.
What was read up to there depends on the bytes that were taken alone, so that a payload has one
beginning at most that a strict decoder accepts (`Decoder.strict_eq_lenient`).
-/

namespace EventLog

def Record.withPayload (r : Record) (payload : List UInt8) : Record := { r with payload }

def Record.cursor (r : Record) : Cursor := ⟨r.payloadOffset, r.payload⟩

namespace Decoder

/-! ## Up to the last field -/

/-- Decodes a record at a position up to its last field, whatever follows; gives the event, if the
record carries one, and the cursor behind what was read. -/
def decodeFront (table : Schema.Table) (offset : Nat) (c : Cursor) :
    Except Fault (Option Event × Cursor) :=
  RecordHeader.readFrom c >>= fun (header, c) =>
    if header.eventType = 0 then .ok (none, c)
    else Context.readVersion header.contextVersion c >>= fun (context, c) =>
      Payload.readFrom table header.key c >>= fun (data, c) =>
        .ok (some (assemble { table, strict := false } header offset context data), c)

/-- The event of a record that was decoded up to its last field. A strict decoder refuses what is
left over. -/
def closeFront (strict : Bool) : Option Event × Cursor → Except Fault (Option Event)
  | (none, _) => .ok none
  | (some e, c) =>
      if strict = true ∧ c.rest ≠ [] then .error (.trailingBytes c.rest.length c.position)
      else .ok (some e)

/-- Whether a decoder is strict matters behind the last field alone. -/
theorem decode_eq_decodeFront (d : Decoder) (r : Record) :
    d.decode r = decodeFront d.table r.offset r.cursor >>= closeFront d.strict := by
  rw [decode_eq, decodeFront, bind_assoc]
  -- Strictness is looked at once, when everything else has been read.
  refine bind_congr fun ⟨header, c⟩ => ?_
  dsimp only
  split
  · rfl
  · rw [decodeBody_eq]
    cases Context.readVersion header.contextVersion c with
    | error fault => rfl
    | ok afterContext =>
        simp only [bind, Except.bind]
        cases Payload.readFrom d.table header.key afterContext.2 with
        | error fault => rfl
        | ok afterFields =>
            simp only [closeFront]
            split <;> rfl

theorem decode_lenient (table : Schema.Table) (r : Record) :
    decode { table, strict := false } r =
      (decodeFront table r.offset r.cursor).map Prod.fst := by
  rw [decode_eq_decodeFront]
  cases decodeFront table r.offset r.cursor with
  | error fault => rfl
  | ok front =>
      obtain ⟨event, next⟩ := front
      cases event <;> rfl

/-- A payload that begins with that of a content is decoded up to where this ends. -/
theorem decodeFront_of_fits {table : Schema.Table} {x : EventContent} {c next : Cursor}
    (offset : Nat) (hfits : x.Fits table) (hspans : c.Spans x.payload next) :
    decodeFront table offset c = .ok (some (x.event table offset), next) := by
  obtain ⟨specs, hget, hholds⟩ := hfits.declared
  rw [x.payload_eq] at hspans
  -- The payload is header, context and fields, one behind the other.
  obtain ⟨c1, hheader, hspans⟩ := Cursor.spans_append.mp hspans
  obtain ⟨c2, hcontext, hfields⟩ := Cursor.spans_append.mp hspans
  have hversion : Context.readVersion x.header.contextVersion c1 = .ok (x.context, c2) :=
    Context.readVersion_eq_ok_iff.mpr ⟨rfl, EventContent.context_readable hfits, hcontext⟩
  have hread : Payload.readFrom table x.header.key c2 =
      .ok (.ofList (fieldEntries specs x.values), next) :=
    Payload.readFrom_eq_ok_iff.mpr ⟨specs, x.values, hget, hholds, hfields, rfl⟩
  rw [decodeFront, RecordHeader.readFrom_eq_ok_iff.mpr hheader]
  refine (if_neg hfits.type_ne_zero).trans ?_
  rw [hversion]
  show Payload.readFrom table x.header.key c2 >>= _ = _
  rw [hread, EventContent.event, hget]
  rfl

/-- The cursor behind the payload of a content with which that of a record begins. -/
theorem spans_payload {r : Record} {x : EventContent} {rest : List UInt8}
    (hpayload : r.payload = x.payload ++ rest) :
    r.cursor.Spans x.payload ⟨r.payloadOffset + x.payload.length, rest⟩ := ⟨hpayload, rfl⟩

/-- No fault up to the last field is about bytes that are left over. -/
theorem decodeFront_ne_trailingBytes (table : Schema.Table) (offset : Nat) (c : Cursor)
    (remaining position : Nat) :
    decodeFront table offset c ≠ .error (.trailingBytes remaining position) := by
  intro h
  -- No part of the front counts what is behind it.
  rcases bind_eq_error.mp h with hheader | ⟨⟨header, c1⟩, -, hbody⟩
  · exact RecordHeader.readsWithin_readFrom.ofElements hheader
  dsimp only at hbody
  split at hbody
  · cases hbody
  rcases bind_eq_error.mp hbody with hcontext | ⟨⟨context, c2⟩, -, hrest⟩
  · rcases Context.fault_of_readVersion hcontext with hfault | ⟨_, hfault⟩ | hfault
    · cases hfault
    · cases hfault
    · exact hfault
  rcases bind_eq_error.mp hrest with hfields | ⟨_, -, hend⟩
  · rcases Payload.fault_of_readFrom hfields with hfault | hfault
    · cases hfault
    · exact hfault
  · cases hend

/-! ## The beginning that a strict decoder accepts -/

/-- Where two contents fit a table, a payload begins with one of them at most, up to its length. -/
theorem length_payload_unique {table : Schema.Table} {r : Record} {x y : EventContent}
    {rest more : List UInt8} (hx : x.Fits table) (hy : y.Fits table)
    (hpayload : r.payload = x.payload ++ rest) (hpayload' : r.payload = y.payload ++ more) :
    x.payload.length = y.payload.length := by
  have hsame := (decodeFront_of_fits r.offset hx (spans_payload hpayload)).symm.trans
    (decodeFront_of_fits r.offset hy (spans_payload hpayload'))
  simp only [Except.ok.injEq, Prod.mk.injEq, Cursor.mk.injEq] at hsame
  exact Nat.add_left_cancel hsame.2.1

/-- A payload that begins with that of a content is accepted by a strict decoder if nothing is left
over. -/
theorem decode_strict_of_fits {table : Schema.Table} {r : Record} {x : EventContent}
    {rest : List UInt8} (hfits : x.Fits table) (hpayload : r.payload = x.payload ++ rest) :
    decode { table, strict := true } r =
      if rest = [] then .ok (some (x.event table r.offset))
      else .error (.trailingBytes rest.length (r.payloadOffset + x.payload.length)) := by
  rw [decode_eq_decodeFront, decodeFront_of_fits r.offset hfits (spans_payload hpayload)]
  show closeFront true (some _, ⟨_, rest⟩) = _
  by_cases hrest : rest = []
  · rw [closeFront, if_neg fun hleft => hleft.2 hrest, if_pos hrest]
  · rw [closeFront, if_pos ⟨rfl, hrest⟩, if_neg hrest]

/-- Where no event is read, it does not matter whether a decoder is strict. -/
theorem decode_strict_of_no_event {table : Schema.Table} {r : Record}
    (hnone : ∀ e, decode { table, strict := false } r ≠ .ok (some e)) :
    decode { table, strict := true } r = decode { table, strict := false } r := by
  rw [decode_lenient, decode_eq_decodeFront]
  cases hfront : decodeFront table r.offset r.cursor with
  | error fault => rfl
  | ok front =>
      obtain ⟨event, next⟩ := front
      cases event with
      | none => rfl
      | some e =>
          refine absurd ?_ (hnone e)
          rw [decode_lenient, hfront]
          rfl

theorem decode_lenient_ne_trailingBytes (table : Schema.Table) (r : Record)
    (remaining position : Nat) :
    decode { table, strict := false } r ≠ .error (.trailingBytes remaining position) := by
  rw [decode_lenient]
  intro htrailing
  cases hfront : decodeFront table r.offset r.cursor with
  | error fault =>
      rw [hfront] at htrailing
      cases htrailing
      exact decodeFront_ne_trailingBytes table r.offset r.cursor _ _ hfront
  | ok front =>
      rw [hfront] at htrailing
      cases htrailing

/-- **Strict decoding is lenient decoding and a look at the length.** Where a lenient decoder gives
an event, there is one length at which a strict decoder accepts the beginning of the payload; it
gives the same event, refuses whatever is behind, and a lenient decoder gives the event whatever is
behind. Everywhere else both decoders agree, and no fault of a lenient one is about bytes that are
left over. -/
theorem strict_eq_lenient (table : Schema.Table) (r : Record) :
    let lenient : Decoder := { table, strict := false }
    let strict : Decoder := { table, strict := true }
    (∀ e, lenient.decode r = .ok (some e) →
      ∃ n ≤ r.payload.length,
        strict.decode (r.withPayload (r.payload.take n)) = .ok (some e) ∧
        (∀ m ≤ r.payload.length, ∀ e',
          strict.decode (r.withPayload (r.payload.take m)) = .ok (some e') → m = n) ∧
        strict.decode r =
          (if n = r.payload.length then .ok (some e)
          else .error (.trailingBytes (r.payload.length - n) (r.payloadOffset + n))) ∧
        ∀ more, lenient.decode (r.withPayload (r.payload.take n ++ more)) = .ok (some e)) ∧
    ((∀ e, lenient.decode r ≠ .ok (some e)) → strict.decode r = lenient.decode r) ∧
    ∀ remaining offset, lenient.decode r ≠ .error (.trailingBytes remaining offset) := by
  intro lenient strict
  refine ⟨fun e h => ?_, decode_strict_of_no_event, decode_lenient_ne_trailingBytes table r⟩
  obtain ⟨x, rest, hfits, hpayload, -, rfl⟩ := decode_eq_some_iff.mp h
  have hlength : r.payload.length = x.payload.length + rest.length := by
    rw [hpayload, List.length_append]
  have htake : r.payload.take x.payload.length = x.payload := by rw [hpayload, List.take_left]
  refine ⟨x.payload.length, by omega, ?_, fun m hm e' h' => ?_, ?_, fun more => ?_⟩
  · have hwhole : (r.withPayload (r.payload.take x.payload.length)).payload = x.payload ++ [] := by
      rw [List.append_nil]
      exact htake
    exact decode_strict_of_fits hfits hwhole
  · -- What a strict decoder accepts is all of the payload of another content.
    obtain ⟨y, more, hy, hpayload', hmore, -⟩ := decode_eq_some_iff.mp h'
    rw [hmore rfl, List.append_nil] at hpayload'
    have hsplit : r.payload = y.payload ++ r.payload.drop m := by
      rw [← hpayload']
      exact (List.take_append_drop m r.payload).symm
    have hylength := congrArg List.length hpayload'
    rw [Record.withPayload, List.length_take_of_le hm] at hylength
    rw [hylength]
    exact length_payload_unique hy hfits hsplit hpayload
  · have hrest : rest = [] ↔ x.payload.length = r.payload.length := by
      rw [← List.length_eq_zero_iff]
      omega
    rw [decode_strict_of_fits hfits hpayload, if_congr hrest rfl rfl, hlength,
      Nat.add_sub_cancel_left]
  · exact decode_eq_some_iff.mpr ⟨x, more, hfits, by rw [htake]; rfl, nofun, rfl⟩

def bareTable : Schema.Table :=
  { typeNames := [], schemas := [(⟨2, 1⟩, [])], nodup_keys := by decide }

def barePayload : List UInt8 :=
  [2, 0, 0, 0, 1, 0, 1, 0] ++ List.replicate 8 0 ++ List.replicate 16 0xC5 ++ List.replicate 16 0

def bareEvent : Event where
  eventType := 2
  typeName := "Unknown"
  version := 1
  contextVersion := 1
  context :=
    { timestamp := 0
      timestampText := "1970-01-01 00:00:00Z"
      user := ⟨List.replicate 16 0xC5, rfl⟩
      address := .v4 0 }
  data := .empty
  offset := 0

/-- A record of the event, with two bytes behind it. -/
def leftoverRecord : Record := ⟨0, 16, 0, barePayload ++ [7, 7]⟩

theorem strict_eq_lenient_leftover :
    decode { table := bareTable, strict := false } leftoverRecord = .ok (some bareEvent) ∧
      decode { table := bareTable, strict := true }
        (leftoverRecord.withPayload (leftoverRecord.payload.take 48)) = .ok (some bareEvent) ∧
      decode { table := bareTable, strict := true } leftoverRecord =
        .error (.trailingBytes 2 64) := by
  have hlenient : decode { table := bareTable, strict := false } leftoverRecord =
      .ok (some bareEvent) := rfl
  have hstrict : decode { table := bareTable, strict := true }
      (leftoverRecord.withPayload (leftoverRecord.payload.take 48)) = .ok (some bareEvent) := rfl
  obtain ⟨n, -, -, hunique, hleft, -⟩ :=
    (strict_eq_lenient bareTable leftoverRecord).1 bareEvent hlenient
  obtain rfl : 48 = n := hunique 48 (by decide) bareEvent hstrict
  exact ⟨hlenient, hstrict, hleft⟩

end Decoder

end EventLog
