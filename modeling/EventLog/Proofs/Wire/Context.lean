import EventLog.Proofs.Wire.Event
import EventLog.Proofs.Wire.InTurn

set_option autoImplicit false

/-! # Contexts on the wire

A context that is read at an offset is that of the forty bytes from there on
(`Context.read_eq_ok_iff`). Any forty bytes are those of a context, but it is read only if its
timestamp is supported; else the fault names the timestamp and stands at its first byte
(`Context.read_eq_error`).
-/

namespace EventLog.Context

variable {payload : List UInt8} {offset : Nat} {x : Context}

theorem read_eq (h : offset ≤ payload.length) (base : Nat) :
    read version payload offset base =
      (readFrom (.of payload offset base)).map Prod.fst := by
  unfold read
  rw [Cursor.at?_eq h, ok_bind]
  show readFrom _ >>= _ = _
  cases readFrom (.of payload offset base) with
  | error fault => rfl
  | ok p => rfl

/-- **A context is read exactly from its bytes**, wherever they stand. -/
theorem read_eq_ok_iff {base : Nat} :
    read version payload offset base = .ok x ↔
      offset ≤ payload.length ∧ x.Readable ∧ ∃ rest, payload.drop offset = x.wire ++ rest := by
  by_cases h : offset ≤ payload.length
  · rw [read_eq h, map_eq_ok]
    constructor
    · rintro ⟨⟨x, next⟩, hread, rfl⟩
      obtain ⟨hreadable, hspans⟩ := readFrom_eq_ok_iff.mp hread
      exact ⟨h, hreadable, next.rest, hspans.1⟩
    · rintro ⟨-, hreadable, rest, hrest⟩
      refine ⟨(x, ⟨base + offset + x.wire.length, rest⟩), ?_, rfl⟩
      exact readFrom_eq_ok_iff.mpr ⟨hreadable, hrest, rfl⟩
  · -- Past the end of the payload nothing can be read, not even an empty context.
    refine iff_of_false ?_ fun hread => h hread.1
    unfold read Cursor.at?
    rw [if_neg fun hleast => h (hasAtLeast_iff.mp hleast)]
    exact nofun

/-- The bytes of a context that was read. -/
theorem take_of_read {base : Nat} (h : read version payload offset base = .ok x) :
    (payload.drop offset).take size = x.wire := by
  obtain ⟨-, hreadable, rest, hrest⟩ := read_eq_ok_iff.mp h
  rw [hrest]
  exact List.take_left' (length_wire hreadable)

/-- Forty bytes that begin with a timestamp are those of a context. -/
theorem exists_wire {bytes : List UInt8} {timestamp : Int64} (hsize : bytes.length = size)
    (htime : bytes.take 8 = toLittleEndian 8 timestamp.toUInt64.toNat) :
    ∃ (user : Uuid) (w0 w1 w2 w3 : UInt32),
      bytes = wire { timestamp, timestampText := EventLog.timestampText timestamp, user,
                     address := .ofWords w0 w1 w2 w3 } := by
  have hlength : bytes.length = 40 := hsize
  let user : Uuid := ⟨(bytes.drop 8).take 16, by simp [hlength]⟩
  obtain ⟨w0, w1, w2, w3, hwords⟩ :=
    Address.exists_wordsBytes (show (bytes.drop 24).length = 16 by simp [hlength])
  refine ⟨user, w0, w1, w2, w3, ?_⟩
  unfold wire
  rw [Address.octets_ofWords, ← hwords, ← htime, List.append_assoc]
  calc bytes = bytes.take 8 ++ bytes.drop 8 := (List.take_append_drop 8 bytes).symm
    _ = bytes.take 8 ++ ((bytes.drop 8).take 16 ++ (bytes.drop 8).drop 16) := by
        rw [List.take_append_drop 16]
    _ = _ := by rw [List.drop_drop]

section

variable {timestamp : Int64} (base : Nat) (hfull : offset + size ≤ payload.length)
  (htime : (payload.drop offset).take 8 = toLittleEndian 8 timestamp.toUInt64.toNat)
include hfull htime

/-- A full context with a supported timestamp is read. -/
theorem exists_read_eq_ok (hsupported : timestampSupported timestamp = true) :
    ∃ x : Context, read version payload offset base = .ok x ∧ x.timestamp = timestamp := by
  have hsize : ((payload.drop offset).take size).length = size := by
    rw [List.length_take, List.length_drop]
    omega
  have htake : ((payload.drop offset).take size).take 8 =
      toLittleEndian 8 timestamp.toUInt64.toNat := by
    rw [List.take_take, ← htime]
    rfl
  -- Behind the timestamp any bytes are an id and an address.
  obtain ⟨user, w0, w1, w2, w3, hwire⟩ := exists_wire hsize htake
  let x : Context :=
    { timestamp, timestampText := EventLog.timestampText timestamp, user,
      address := .ofWords w0 w1 w2 w3 }
  have hreadable : x.Readable := ⟨hsupported, rfl, w0, w1, w2, w3, rfl⟩
  have hbytes : payload.drop offset = x.wire ++ (payload.drop offset).drop size := by
    rw [← hwire, List.take_append_drop]
  exact ⟨x, read_eq_ok_iff.mpr ⟨by omega, hreadable, _, hbytes⟩, rfl⟩

/-- A full context with another timestamp is a fault at the timestamp. -/
theorem read_eq_error (hsupported : timestampSupported timestamp = false) :
    read version payload offset base = .error (.invalidTimestamp timestamp (base + offset)) := by
  have hnumber : (Cursor.of payload offset base).number .timestamp 8 =
      .ok (timestamp.toUInt64.toNat, .of payload (offset + 8) base) := by
    refine Cursor.number_eq_ok_iff.mpr ⟨timestamp.toUInt64.toNat_lt, ?_, ?_⟩
    · show payload.drop offset = _ ++ payload.drop (offset + 8)
      rw [← htime, ← List.drop_drop, List.take_append_drop]
    · rw [length_toLittleEndian]
      exact (Nat.add_assoc base offset 8).symm
  rw [read_eq (by omega), readFrom_eq, hnumber, ok_bind]
  simp only [UInt64.ofNat_toNat, Int64.toInt64_toUInt64, hsupported, Bool.false_eq_true, if_false]
  rfl

end

end EventLog.Context
