import EventLog.Control.Outcome
import EventLog.Event.Payload
import EventLog.Proofs.Text.Utf8
import EventLog.Proofs.Wire.Address

set_option autoImplicit false

/-! # Elements on the wire

Every element of a record has one wire form: a number its bytes, lowest first, a string its length
and its UTF-8, an address four words with their highest bytes first. A reader succeeds exactly
when the cursor stands before the wire form of a value; it then gives that value and stands behind
it (`Cursor.field_eq_ok_iff`). The readers of longer elements are put together from such
equivalences, so that reading what was written and writing what was read are one statement.
-/

namespace EventLog

/-! ## Numbers of a fixed width -/

theorem ofLittleEndian_toLittleEndian_of_lt {width n : Nat} (h : n < Nat.pow 256 width) :
    ofLittleEndian (toLittleEndian width n) = n := by
  rw [ofLittleEndian_toLittleEndian, Nat.mod_eq_of_lt h]

/-- Bytes of a given width are the wire form of exactly one number. -/
theorem eq_toLittleEndian_iff {bytes : List UInt8} {width n : Nat} (h : n < Nat.pow 256 width) :
    bytes = toLittleEndian width n ↔ bytes.length = width ∧ ofLittleEndian bytes = n := by
  constructor
  · rintro rfl
    exact ⟨length_toLittleEndian width n, ofLittleEndian_toLittleEndian_of_lt h⟩
  · rintro ⟨rfl, rfl⟩
    exact (toLittleEndian_ofLittleEndian bytes).symm

/-! ## Wire forms of values -/

namespace FieldValue

/-- The bytes of a field. Signed integers are in two's complement. -/
def wire : FieldValue → List UInt8
  | uuid u => u.bytes
  | string s => toLittleEndian 4 (Utf8.ofString s).length ++ Utf8.ofString s
  | int16 n => toLittleEndian 2 n.toUInt16.toNat
  | uint16 n => toLittleEndian 2 n.toNat
  | int32 n => toLittleEndian 4 n.toUInt32.toNat
  | uint32 n => toLittleEndian 4 n.toNat
  | int64 n => toLittleEndian 8 n.toUInt64.toNat
  | uint64 n => toLittleEndian 8 n.toNat

end FieldValue

/-- A value of the type that a wire integer stands for. -/
def Primitive.Holds (p : Primitive) (v : FieldValue) : Prop :=
  match p with
  | .int16 | .privilegeValue => ∃ n, v = .int16 n
  | .uint16 | .privilegeEnum => ∃ n, v = .uint16 n
  | .int32 => ∃ n, v = .int32 n
  | .uint32 => ∃ n, v = .uint32 n
  | .int64 | .privilegeDuration => ∃ n, v = .int64 n
  | .uint64 => ∃ n, v = .uint64 n

/-- A value of the kind that a layout declares. The length of a string has to fit in its four
bytes. -/
def Layout.Holds (layout : Layout) (v : FieldValue) : Prop :=
  match layout with
  | .uuid => ∃ u, v = .uuid u
  | .string | .nonEmptyString => ∃ s, v = .string s ∧ (Utf8.ofString s).length < UInt32.size
  | .integer p => p.Holds v

theorem Primitive.holds_value (p : Primitive) (n : Nat) : p.Holds (p.value n) := by
  cases p <;> exact ⟨_, rfl⟩

theorem Primitive.wire_value {p : Primitive} {n : Nat} (h : n < Nat.pow 256 p.size) :
    (p.value n).wire = toLittleEndian p.size n := by
  cases p with
  | int16 | uint16 | privilegeEnum | privilegeValue =>
      exact congrArg (toLittleEndian 2) (UInt16.toNat_ofNat_of_lt' h)
  | int32 | uint32 => exact congrArg (toLittleEndian 4) (UInt32.toNat_ofNat_of_lt' h)
  | int64 | uint64 | privilegeDuration =>
      exact congrArg (toLittleEndian 8) (UInt64.toNat_ofNat_of_lt' h)

/-- A value of a wire type is made up by the number with its wire form. -/
theorem Primitive.exists_value {p : Primitive} {v : FieldValue} (h : p.Holds v) :
    ∃ n, n < Nat.pow 256 p.size ∧ v = p.value n := by
  -- A signed value is stored as the unsigned number of the same bits.
  cases p with
  | int16 | privilegeValue =>
      obtain ⟨n, rfl⟩ := h
      exact ⟨n.toUInt16.toNat, n.toUInt16.toNat_lt, by simp [value]⟩
  | uint16 | privilegeEnum =>
      obtain ⟨n, rfl⟩ := h
      exact ⟨n.toNat, n.toNat_lt, by simp [value]⟩
  | int32 =>
      obtain ⟨n, rfl⟩ := h
      exact ⟨n.toUInt32.toNat, n.toUInt32.toNat_lt, by simp [value]⟩
  | uint32 =>
      obtain ⟨n, rfl⟩ := h
      exact ⟨n.toNat, n.toNat_lt, by simp [value]⟩
  | int64 | privilegeDuration =>
      obtain ⟨n, rfl⟩ := h
      exact ⟨n.toUInt64.toNat, n.toUInt64.toNat_lt, by simp [value]⟩
  | uint64 =>
      obtain ⟨n, rfl⟩ := h
      exact ⟨n.toNat, n.toNat_lt, by simp [value]⟩

namespace Cursor

/-! ## Moving over bytes -/

/-- The given bytes lie between two cursors. -/
def Spans (c : Cursor) (bytes : List UInt8) (next : Cursor) : Prop :=
  c.rest = bytes ++ next.rest ∧ next.position = c.position + bytes.length

theorem spans_nil {c next : Cursor} : c.Spans [] next ↔ next = c := by
  cases c
  cases next
  simp only [Spans, List.nil_append, List.length_nil, Nat.add_zero, mk.injEq]
  exact ⟨fun h => ⟨h.2, h.1.symm⟩, fun h => ⟨h.2.symm, h.1⟩⟩

theorem spans_append {c next : Cursor} {as bs : List UInt8} :
    c.Spans (as ++ bs) next ↔ ∃ middle, c.Spans as middle ∧ middle.Spans bs next := by
  constructor
  · rintro ⟨hrest, hpos⟩
    refine ⟨⟨c.position + as.length, bs ++ next.rest⟩, ⟨?_, rfl⟩, rfl, ?_⟩
    · rw [hrest, List.append_assoc]
    · rw [hpos, List.length_append, Nat.add_assoc]
  · rintro ⟨middle, ⟨hrest, hpos⟩, hrest', hpos'⟩
    refine ⟨?_, ?_⟩
    · rw [hrest, hrest', List.append_assoc]
    · rw [hpos', hpos, List.length_append, Nat.add_assoc]

/-! ## Elements -/

theorem take_eq_ok_iff {c next : Cursor} {element : Element} {n : Nat} {bytes : List UInt8} :
    c.take element n = .ok (bytes, next) ↔ bytes.length = n ∧ c.Spans bytes next := by
  unfold take
  constructor
  · intro h
    split at h
    · next hle =>
        cases h
        rw [hasAtLeast_iff] at hle
        have hlen : (c.rest.take n).length = n := List.length_take_of_le hle
        refine ⟨hlen, ?_, ?_⟩
        · exact (List.take_append_drop n c.rest).symm
        · rw [hlen]
          rfl
    · cases h
  · -- What spans the bytes has them in front, so there are enough.
    rintro ⟨rfl, hrest, hpos⟩
    have hle : hasAtLeast bytes.length c.rest = true := by
      rw [hasAtLeast_iff, hrest, List.length_append]
      omega
    rw [if_pos hle, advance, ← hpos, hrest, List.take_left, List.drop_left]

theorem number_eq_ok_iff {c next : Cursor} {element : Element} {width n : Nat} :
    c.number element width = .ok (n, next) ↔
      n < Nat.pow 256 width ∧ c.Spans (toLittleEndian width n) next := by
  rw [number, bind_eq_ok]
  constructor
  · rintro ⟨⟨bytes, c'⟩, htake, hn⟩
    rw [take_eq_ok_iff] at htake
    cases hn
    obtain ⟨rfl, hspans⟩ := htake
    exact ⟨ofLittleEndian_lt bytes, by rwa [toLittleEndian_ofLittleEndian]⟩
  · rintro ⟨hlt, hspans⟩
    refine ⟨(toLittleEndian width n, next), ?_, ?_⟩
    · exact take_eq_ok_iff.mpr ⟨length_toLittleEndian width n, hspans⟩
    · show Except.ok (ofLittleEndian (toLittleEndian width n), next) = _
      rw [ofLittleEndian_toLittleEndian_of_lt hlt]

theorem uuid_eq_ok_iff {c next : Cursor} {u : Uuid} :
    c.uuid = .ok (u, next) ↔ c.Spans u.bytes next := by
  unfold uuid
  constructor
  · intro h
    split at h
    · next hle =>
        have htake : c.take .uuid 16 = .ok (c.rest.take 16, c.advance 16) := if_pos hle
        cases h
        exact (take_eq_ok_iff.mp htake).2
    · cases h
  · intro h
    -- The reader carries its own proof of the length, so it is compared with `take`.
    have htake : c.take .uuid 16 = .ok (u.bytes, next) :=
      take_eq_ok_iff.mpr ⟨u.length_bytes, h⟩
    unfold take at htake
    split at htake
    · next hle =>
        obtain ⟨hbytes, hnext⟩ := Prod.mk.inj (Except.ok.inj htake)
        rw [dif_pos hle, hnext]
        cases u
        cases hbytes
        rfl
    · cases htake

theorem address_eq_ok_iff {c next : Cursor} {a : Address} :
    c.address = .ok (a, next) ↔
      ∃ w0 w1 w2 w3, a = Address.ofWords w0 w1 w2 w3 ∧
        c.Spans (Address.wordsBytes w0 w1 w2 w3) next := by
  rw [address, bind_eq_ok]
  constructor
  · rintro ⟨⟨bytes, c'⟩, htake, ha⟩
    rw [take_eq_ok_iff] at htake
    cases ha
    obtain ⟨hlen, hspans⟩ := htake
    obtain ⟨w0, w1, w2, w3, rfl⟩ := Address.exists_wordsBytes hlen
    exact ⟨w0, w1, w2, w3, Address.ofBytes_wordsBytes w0 w1 w2 w3, hspans⟩
  · rintro ⟨w0, w1, w2, w3, rfl, hspans⟩
    refine ⟨(Address.wordsBytes w0 w1 w2 w3, next), ?_, ?_⟩
    · exact take_eq_ok_iff.mpr ⟨Address.length_wordsBytes w0 w1 w2 w3, hspans⟩
    · show Except.ok (Address.ofBytes (Address.wordsBytes w0 w1 w2 w3), next) = _
      rw [Address.ofBytes_wordsBytes]

theorem string_eq_ok_iff {c next : Cursor} {s : String} :
    c.string = .ok (s, next) ↔
      (Utf8.ofString s).length < UInt32.size ∧ c.Spans (FieldValue.string s).wire next := by
  rw [string, bind_eq_ok, FieldValue.wire, spans_append]
  constructor
  · rintro ⟨⟨length, c'⟩, hnumber, hafter⟩
    rw [number_eq_ok_iff] at hnumber
    obtain ⟨⟨bytes, c''⟩, htake, hutf⟩ := bind_eq_ok.mp hafter
    obtain ⟨rfl, hbytes⟩ := take_eq_ok_iff.mp htake
    cases ht : Utf8.toString? bytes with
    | error fault =>
        simp only [ht] at hutf
        cases hutf
    | ok t =>
        simp only [ht] at hutf
        cases hutf
        rw [Utf8.toString?_eq_ok_iff] at ht
        subst ht
        exact ⟨hnumber.1, c', hnumber.2, hbytes⟩
  · rintro ⟨hlt, middle, hlength, hbytes⟩
    refine ⟨((Utf8.ofString s).length, middle), number_eq_ok_iff.mpr ⟨hlt, hlength⟩, ?_⟩
    refine bind_eq_ok.mpr ⟨(Utf8.ofString s, next), take_eq_ok_iff.mpr ⟨rfl, hbytes⟩, ?_⟩
    -- A string's own encoding is read back as the string.
    have hutf : Utf8.toString? (Utf8.ofString s) = .ok s := Utf8.toString?_eq_ok_iff.mpr rfl
    simp only [hutf]
    rfl

/-- A field is read exactly from the wire form of a value that its layout holds. -/
theorem field_eq_ok_iff {c next : Cursor} {layout : Layout} {v : FieldValue} :
    c.field layout = .ok (v, next) ↔ layout.Holds v ∧ c.Spans v.wire next := by
  -- Strings that may and may not be empty are stored, and read, alike.
  cases layout with
  | uuid =>
      rw [field, bind_eq_ok]
      constructor
      · rintro ⟨⟨u, c'⟩, hu, h⟩
        cases h
        exact ⟨⟨u, rfl⟩, uuid_eq_ok_iff.mp hu⟩
      · rintro ⟨⟨u, rfl⟩, hspans⟩
        exact ⟨(u, next), uuid_eq_ok_iff.mpr hspans, rfl⟩
  | string | nonEmptyString =>
      rw [field, bind_eq_ok]
      constructor
      · rintro ⟨⟨s, c'⟩, hs, h⟩
        cases h
        obtain ⟨hlt, hspans⟩ := string_eq_ok_iff.mp hs
        exact ⟨⟨s, rfl, hlt⟩, hspans⟩
      · rintro ⟨⟨s, rfl, hlt⟩, hspans⟩
        exact ⟨(s, next), string_eq_ok_iff.mpr ⟨hlt, hspans⟩, rfl⟩
  | integer p =>
      rw [field, bind_eq_ok]
      constructor
      · rintro ⟨⟨n, c'⟩, hn, h⟩
        cases h
        obtain ⟨hlt, hspans⟩ := number_eq_ok_iff.mp hn
        rw [← Primitive.wire_value hlt] at hspans
        exact ⟨p.holds_value n, hspans⟩
      · rintro ⟨hholds, hspans⟩
        obtain ⟨n, hlt, rfl⟩ := Primitive.exists_value hholds
        rw [Primitive.wire_value hlt] at hspans
        exact ⟨(n, next), number_eq_ok_iff.mpr ⟨hlt, hspans⟩, rfl⟩

end Cursor

end EventLog
