import EventLog.Proofs.Wire.Event

set_option autoImplicit false

/-! # Faults of a payload

A payload that cannot be decoded has a fault inside it. The readers of elements never pass the end
of the payload, so that an element is cut off by this end and not by another (`ReadsWithin`);
header and context have fixed sizes, so that the faults about them are found at fixed places
(`Decoder.pointsIntoPayload`).
-/

namespace EventLog

/-- The position behind the bytes that a cursor stands before. -/
def Cursor.stop (c : Cursor) : Nat := c.position + c.rest.length

theorem Cursor.Spans.stop_eq {c next : Cursor} {bytes : List UInt8} (h : c.Spans bytes next) :
    next.stop = c.stop := by
  rw [stop, stop, h.1, h.2, List.length_append, Nat.add_assoc]

theorem Cursor.Spans.position_le {c next : Cursor} {bytes : List UInt8} (h : c.Spans bytes next) :
    c.position ≤ next.position := by
  rw [h.2]
  exact Nat.le_add_right _ _

namespace Fault

/-- A fault of elements between two positions: one of them is cut off by the end, or is a string,
where there are strings among them, that is not UTF-8. -/
def OfElements (strings : Bool) (start stop : Nat) : Fault → Prop
  | truncated _ offset need available =>
      start ≤ offset ∧ available < need ∧ offset + available = stop
  | encoding _ offset => strings = true ∧ start + 4 ≤ offset ∧ offset < stop
  | _ => False

theorem OfElements.mono {strings : Bool} {start start' stop : Nat} {fault : Fault}
    (hle : start ≤ start') (h : fault.OfElements strings start' stop) :
    fault.OfElements strings start stop := by
  cases fault with
  | truncated element offset need available => exact ⟨Nat.le_trans hle h.1, h.2⟩
  | encoding source offset =>
      exact ⟨h.1, Nat.le_trans (Nat.add_le_add_right hle 4) h.2.1, h.2.2⟩
  | _ => exact h.elim

end Fault

/-- A reader of elements stays between the cursor and the end of its bytes, whether it succeeds or
not. -/
structure ReadsWithin (strings : Bool) {α : Type} (read : Cursor → Except Fault (α × Cursor)) :
    Prop where
  spans : ∀ {c next : Cursor} {a : α}, read c = .ok (a, next) → ∃ bytes, c.Spans bytes next
  ofElements : ∀ {c : Cursor} {fault : Fault}, read c = .error fault →
    fault.OfElements strings c.position c.stop

/-! ## Sequences of readers -/

section Sequences

variable {strings : Bool} {α β : Type}

theorem readsWithin_pure (a : α) : ReadsWithin strings fun c => .ok (a, c) where
  spans h := by
    cases h
    exact ⟨[], Cursor.spans_nil.mpr rfl⟩
  ofElements h := by cases h

theorem readsWithin_bind {read : Cursor → Except Fault (α × Cursor)}
    {andThen : α × Cursor → Except Fault (β × Cursor)} (hread : ReadsWithin strings read)
    (hthen : ∀ a, ReadsWithin strings fun c => andThen (a, c)) :
    ReadsWithin strings fun c => read c >>= andThen where
  spans h := by
    obtain ⟨⟨a, middle⟩, hfirst, hrest⟩ := bind_eq_ok.mp h
    obtain ⟨as, has⟩ := hread.spans hfirst
    obtain ⟨bs, hbs⟩ := (hthen a).spans hrest
    exact ⟨as ++ bs, Cursor.spans_append.mpr ⟨middle, has, hbs⟩⟩
  ofElements h := by
    rcases bind_eq_error.mp h with hfirst | ⟨⟨a, middle⟩, hfirst, hrest⟩
    · exact hread.ofElements hfirst
    · obtain ⟨as, has⟩ := hread.spans hfirst
      rw [← has.stop_eq]
      exact ((hthen a).ofElements hrest).mono has.position_le

theorem readsWithin_map {read : Cursor → Except Fault (α × Cursor)} (f : α → β)
    (hread : ReadsWithin strings read) :
    ReadsWithin strings fun c => read c >>= fun p => .ok (f p.1, p.2) :=
  readsWithin_bind hread fun a => readsWithin_pure (f a)

end Sequences

/-! ## Elements -/

namespace Cursor

variable {strings : Bool}

/-- An element is cut off where fewer bytes than it has are left. -/
theorem cutOff_ofElements {c : Cursor} {element : Element} {n : Nat}
    (h : ¬ hasAtLeast n c.rest = true) :
    (c.cutOff element n).OfElements strings c.position c.stop := by
  rw [hasAtLeast_iff, Nat.not_le] at h
  exact ⟨Nat.le_refl _, h, rfl⟩

theorem readsWithin_take (element : Element) (n : Nat) :
    ReadsWithin strings fun c => c.take element n where
  spans h := ⟨_, (take_eq_ok_iff.mp h).2⟩
  ofElements h := by
    unfold take at h
    split at h
    · cases h
    · next hcut =>
        cases h
        exact cutOff_ofElements hcut

theorem readsWithin_number (element : Element) (n : Nat) :
    ReadsWithin strings fun c => c.number element n :=
  readsWithin_map ofLittleEndian (readsWithin_take element n)

theorem readsWithin_uuid : ReadsWithin strings uuid where
  spans h := ⟨_, uuid_eq_ok_iff.mp h⟩
  ofElements h := by
    unfold uuid at h
    split at h
    · cases h
    · next hcut =>
        cases h
        exact cutOff_ofElements hcut

theorem readsWithin_address : ReadsWithin strings address :=
  readsWithin_map Address.ofBytes (readsWithin_take .address 16)

/-- The first bad byte of a string lies behind its length and before its end. -/
theorem readsWithin_string : ReadsWithin true string where
  spans h := ⟨_, (string_eq_ok_iff.mp h).2⟩
  ofElements {c fault} h := by
    -- The length, the bytes or their encoding can be at fault; the last lies inside the bytes.
    rcases bind_eq_error.mp h with hnumber | ⟨⟨length, start⟩, hnumber, hafter⟩
    · exact (readsWithin_number .string 4).ofElements hnumber
    have hspans := (number_eq_ok_iff.mp hnumber).2
    have hposition : start.position = c.position + 4 := by
      rw [hspans.2, length_toLittleEndian]
    rw [← hspans.stop_eq]
    rcases bind_eq_error.mp hafter with htake | ⟨⟨bytes, next⟩, htake, hutf⟩
    · exact ((readsWithin_take .string length).ofElements htake).mono hspans.position_le
    · have hbytes := (take_eq_ok_iff.mp htake).2
      cases htext : Utf8.toString? bytes with
      | ok s =>
          simp only [htext] at hutf
          cases hutf
      | error source =>
          simp only [htext] at hutf
          cases hutf
          have hvalid := Utf8.validUpTo_lt_length htext
          have hstop : start.stop = start.position + (bytes.length + next.rest.length) := by
            rw [stop, hbytes.1, List.length_append]
          exact ⟨rfl, by omega, by omega⟩

theorem readsWithin_field (layout : Layout) : ReadsWithin true fun c => c.field layout := by
  cases layout with
  | uuid => exact readsWithin_map FieldValue.uuid readsWithin_uuid
  | string => exact readsWithin_map FieldValue.string readsWithin_string
  | nonEmptyString => exact readsWithin_map FieldValue.string readsWithin_string
  | integer p => exact readsWithin_map p.value (readsWithin_number (.integer p) p.size)

end Cursor

/-! ## Headers, contexts and fields -/

theorem RecordHeader.readsWithin_readFrom : ReadsWithin false RecordHeader.readFrom := by
  refine readsWithin_bind (Cursor.readsWithin_number .eventType 4) fun eventType => ?_
  refine readsWithin_bind (Cursor.readsWithin_number .eventVersion 2) fun eventVersion => ?_
  exact readsWithin_map
    (fun contextVersion => RecordHeader.mk (UInt32.ofNat eventType) (UInt16.ofNat eventVersion)
      (UInt16.ofNat contextVersion))
    (Cursor.readsWithin_number .contextVersion 2)

namespace Context

theorem readsWithin_readOrigin (timestamp : Int64) : ReadsWithin false (readOrigin timestamp) := by
  refine readsWithin_bind Cursor.readsWithin_uuid fun user => ?_
  exact readsWithin_map (Context.mk timestamp (EventLog.timestampText timestamp) user)
    Cursor.readsWithin_address

/-- A context is at fault for its version or its timestamp, both found at its start, or because one
of its elements is cut off. -/
theorem fault_of_readVersion {version : UInt16} {c : Cursor} {fault : Fault}
    (h : readVersion version c = .error fault) :
    fault = .unsupportedContextVersion version c.position ∨
      (∃ seconds, fault = .invalidTimestamp seconds c.position) ∨
      fault.OfElements false c.position c.stop := by
  unfold readVersion at h
  split at h
  · rw [readFrom_eq] at h
    -- The timestamp is cut off, is refused, or one of the elements behind it is cut off.
    rcases bind_eq_error.mp h with htime | ⟨⟨n, afterTime⟩, htime, horigin⟩
    · exact .inr (.inr ((Cursor.readsWithin_number .timestamp 8).ofElements htime))
    · simp only at horigin
      split at horigin
      · have hspans := (Cursor.number_eq_ok_iff.mp htime).2
        have hfault := (readsWithin_readOrigin _).ofElements horigin
        rw [hspans.stop_eq] at hfault
        exact .inr (.inr (hfault.mono hspans.position_le))
      · cases horigin
        exact .inr (.inl ⟨_, rfl⟩)
  · cases h
    exact .inl rfl

end Context

namespace Payload

theorem readsWithin_readFields (before : Fields) (specs : List FieldSpec) :
    ReadsWithin true (readFields before specs) := by
  induction specs generalizing before with
  | nil => exact readsWithin_pure before
  | cons spec specs ih =>
      exact readsWithin_bind (Cursor.readsWithin_field spec.layout) fun value => ih _

theorem fault_of_readFrom {table : Schema.Table} {key : EventKey} {c : Cursor} {fault : Fault}
    (h : readFrom table key c = .error fault) :
    fault = .unknownSchema key c.position ∨ fault.OfElements true c.position c.stop := by
  unfold readFrom at h
  cases hget : table.get? key with
  | none =>
      rw [hget] at h
      cases h
      exact .inl rfl
  | some specs =>
      rw [hget] at h
      exact .inr ((readsWithin_readFields .empty specs).ofElements h)

end Payload

/-! ## Events -/

/-- What a fault of the payload between two positions says: context and fields are found at their
places behind the header, and bytes that are missing or left over are counted up to the end. -/
def Fault.PointsIntoPayload (start stop : Nat) : Fault → Prop
  | .truncated _ offset need available => available < need ∧ available = stop - offset
  | .trailingBytes remaining offset => 0 < remaining ∧ remaining = stop - offset
  | .encoding _ offset => start + 52 ≤ offset ∧ offset < stop
  | .unsupportedContextVersion _ offset
  | .invalidTimestamp _ offset => offset = start + 8
  | .unknownSchema _ offset => offset = start + 48
  | _ => False

def Fault.LiesIn (start stop : Nat) (fault : Fault) : Prop :=
  start ≤ fault.offset ∧ fault.offset ≤ stop ∧ fault.PointsIntoPayload start stop

/-- A fault of elements of the payload; strings follow the header and the context. -/
theorem Fault.OfElements.liesIn {strings : Bool} {start position stop : Nat} {fault : Fault}
    (hle : start ≤ position) (hstrings : strings = true → start + 48 ≤ position)
    (h : fault.OfElements strings position stop) : fault.LiesIn start stop := by
  cases fault with
  | truncated element offset need available =>
      obtain ⟨hstart, hneed, hstop⟩ := h
      exact ⟨Nat.le_trans hle hstart, by simp only [Fault.offset]; omega, hneed, by omega⟩
  | encoding source offset =>
      obtain ⟨hstring, hstart, hstop⟩ := h
      have := hstrings hstring
      refine ⟨?_, Nat.le_of_lt hstop, ?_, hstop⟩
      · simp only [Fault.offset]
        omega
      · omega
  | _ => exact h.elim

namespace Decoder

/-- The part of a payload behind its header. -/
theorem liesIn_of_decodeBody {d : Decoder} {header : RecordHeader} {offset start : Nat} {c : Cursor}
    {fault : Fault} (hposition : c.position = start + 8)
    (h : d.decodeBody header offset c = .error fault) : fault.LiesIn start c.stop := by
  have hstart : start ≤ c.position := by omega
  have hstop : c.position ≤ c.stop := Nat.le_add_right _ _
  rw [decodeBody_eq] at h
  rcases bind_eq_error.mp h with hcontext | ⟨⟨context, afterContext⟩, hcontext, hrest⟩
  · rcases Context.fault_of_readVersion hcontext with rfl | ⟨seconds, rfl⟩ | hfault
    · exact ⟨hstart, hstop, hposition⟩
    · exact ⟨hstart, hstop, hposition⟩
    · exact hfault.liesIn hstart fun hstrings => absurd hstrings Bool.false_ne_true
  obtain ⟨-, hreadable, hspans⟩ := Context.readVersion_eq_ok_iff.mp hcontext
  -- A context has forty bytes, so the fields begin 48 bytes into the payload.
  have hposition' : afterContext.position = start + 48 := by
    rw [hspans.2, Context.length_wire hreadable, hposition, Context.size]
  have hstart' : start ≤ afterContext.position := by omega
  have hstop' : afterContext.position ≤ afterContext.stop := Nat.le_add_right _ _
  rw [← hspans.stop_eq]
  rcases bind_eq_error.mp hrest with hfields | ⟨⟨data, next⟩, hfields, hend⟩
  · rcases Payload.fault_of_readFrom hfields with rfl | hfault
    · exact ⟨hstart', hstop', hposition'⟩
    · exact hfault.liesIn hstart' fun _ => Nat.le_of_eq hposition'.symm
  · obtain ⟨specs, values, -, -, hspans', -⟩ := Payload.readFrom_eq_ok_iff.mp hfields
    simp only at hend
    split at hend
    · next htrailing =>
        cases hend
        have hnext := hspans'.position_le
        have hleft := List.length_pos_iff.mpr htrailing.2
        rw [← hspans'.stop_eq]
        exact ⟨Nat.le_trans hstart' hnext, Nat.le_add_right _ _, hleft,
          (Nat.add_sub_cancel_left _ _).symm⟩
    · cases hend

/-- **Every fault of a record points into its payload.** -/
theorem pointsIntoPayload {d : Decoder} {r : Record} {fault : Fault}
    (h : d.decode r = .error fault) :
    fault.LiesIn r.payloadOffset (r.payloadOffset + r.payload.length) := by
  rw [decode_eq] at h
  rcases bind_eq_error.mp h with hheader | ⟨⟨header, c⟩, hheader, hbody⟩
  · have hfault := RecordHeader.readsWithin_readFrom.ofElements hheader
    exact hfault.liesIn (Nat.le_refl r.payloadOffset) fun hstrings =>
      absurd hstrings Bool.false_ne_true
  · have hspans := RecordHeader.readFrom_eq_ok_iff.mp hheader
    have hposition : c.position = r.payloadOffset + 8 := by
      rw [hspans.2, header.length_wire, RecordHeader.size]
    simp only at hbody
    split at hbody
    · cases hbody
    · cases hdecode : d.decodeBody header r.offset c with
      | ok e =>
          rw [hdecode] at hbody
          cases hbody
      | error fault' =>
          rw [hdecode] at hbody
          cases hbody
          have hfault := liesIn_of_decodeBody hposition hdecode
          rwa [hspans.stop_eq] at hfault

end Decoder

end EventLog
