import EventLog.Event.Render
import EventLog.Proofs.Json.RoundTrip

set_option autoImplicit false

/-! # What the document of an event means

The text of an event, on one line or on several, is read back as the object that describes the
event (`Event.parse_documentBytes`): its strings may hold any characters, and its integers come
from the full ranges of their kinds.
-/

namespace EventLog

/-! ## Integers of every kind -/

namespace Json

theorem inRange_of_signed {n : Int} (h : -9223372036854775808 ≤ n)
    (h' : n < 9223372036854775808) : InRange n := by
  simp only [InRange, UInt64.size]
  omega

theorem inRange_of_unsigned {n : Nat} (h : n < 18446744073709551616) : InRange n := by
  simp only [InRange, UInt64.size]
  omega

end Json

namespace FieldValue

/-- An integer is rendered as a number, any other value as its text. -/
theorem toJson_eq (v : FieldValue) : v.toJson = v.integer?.elim (.string v.text) .int := by
  cases v <;> rfl

theorem atomic_toJson (v : FieldValue) : v.toJson.Atomic := by
  -- Every integer field fits the range that the document's numbers have.
  cases v with
  | uuid u => exact trivial
  | string s => exact trivial
  | int16 n =>
      have hle := n.le_toInt
      have hlt := n.toInt_lt
      exact Json.inRange_of_signed (by omega) (by omega)
  | uint16 n =>
      have hlt := n.toNat_lt
      exact Json.inRange_of_unsigned (by omega)
  | int32 n =>
      have hle := n.le_toInt
      have hlt := n.toInt_lt
      exact Json.inRange_of_signed (by omega) (by omega)
  | uint32 n =>
      have hlt := n.toNat_lt
      exact Json.inRange_of_unsigned (by omega)
  | int64 n => exact Json.inRange_of_signed n.le_toInt n.toInt_lt
  | uint64 n => exact Json.inRange_of_unsigned n.toNat_lt

end FieldValue

/-! ## The object of an event -/

/-- A value without elements and members fits at any depth. -/
theorem Json.Atomic.fits {v : Json} (h : v.Atomic) (depth : Nat) : v.Fits depth := by
  cases v with
  | array xs => exact h.elim
  | object ms => exact h.elim
  | _ => cases depth <;> exact h

theorem Json.fits_string (s : String) (depth : Nat) : (Json.string s).Fits depth :=
  Json.Atomic.fits (v := .string s) trivial depth

theorem Fields.toJson_eq (fields : Fields) :
    fields.toJson = .object (fields.entries.map fun entry =>
      (entry.1, entry.2.integer?.elim (.string entry.2.text) .int)) := by
  simp only [Fields.toJson, FieldValue.toJson_eq]

theorem Fields.fits_toJson (fields : Fields) (depth : Nat) : fields.toJson.Fits (depth + 1) := by
  intro m hm
  obtain ⟨entry, -, rfl⟩ := List.mem_map.mp hm
  exact entry.2.atomic_toJson.fits depth

theorem Context.fits_toJson (c : Context) (depth : Nat) : c.toJson.Fits (depth + 1) := by
  have htimestamp : (Json.int c.timestamp.toInt).Fits depth :=
    (FieldValue.atomic_toJson (.int64 c.timestamp)).fits depth
  intro m hm
  simp only [List.mem_cons, List.not_mem_nil, or_false] at hm
  rcases hm with rfl | rfl | rfl | rfl
  · exact htimestamp
  · exact Json.fits_string _ depth
  · exact Json.fits_string _ depth
  · exact Json.fits_string _ depth

/-- An event is an object of objects of values without elements and members. -/
theorem Event.fits_toJson (e : Event) (depth : Nat) : e.toJson.Fits (depth + 2) := by
  have hnumber {n : Nat} (h : n < 18446744073709551616) : (Json.int n).Fits (depth + 1) :=
    Json.Atomic.fits (v := .int n) (Json.inRange_of_unsigned h) (depth + 1)
  have htype := e.eventType.toNat_lt
  have hversion := e.version.toNat_lt
  have hcontext := e.contextVersion.toNat_lt
  intro m hm
  simp only [List.mem_cons, List.not_mem_nil, or_false] at hm
  rcases hm with rfl | rfl | rfl | rfl | rfl | rfl
  · exact hnumber (by omega)
  · exact Json.fits_string e.typeName (depth + 1)
  · exact hnumber (by omega)
  · exact hnumber (by omega)
  · exact e.context.fits_toJson depth
  · exact e.data.fits_toJson depth

/-- **The text of an event means the event.** Every event has a text in either form, made of whole
characters; all of it is one document, which is read back as the object of the event, and so are
both forms as the same object. No key of the data appears twice (`Fields.nodup_keys`). -/
theorem Event.parse_documentBytes (e : Event) :
    (∀ indent, Utf8.toString? (e.documentBytes indent) = .ok (e.document indent) ∧
      Json.parse (e.documentBytes indent) = .ok e.toJson) ∧
    Json.parse (e.documentBytes false) = Json.parse (e.documentBytes true) ∧
    e.toJson = .object [
      ("type", .int e.eventType.toNat),
      ("type_name", .string e.typeName),
      ("version", .int e.version.toNat),
      ("context_version", .int e.contextVersion.toNat),
      ("context", .object [
        ("timestamp", .int e.context.timestamp.toInt),
        ("timestamp_str", .string e.context.timestampText),
        ("user_id", .string e.context.user.text),
        ("ip_address", .string e.context.address.text)]),
      ("data", .object (e.data.entries.map fun entry =>
        (entry.1, entry.2.integer?.elim (.string entry.2.text) .int)))] := by
  have hparse (indent : Bool) : Json.parse (e.documentBytes indent) = .ok e.toJson :=
    Json.parse_text (e.fits_toJson 125) indent
  refine ⟨fun indent => ⟨Utf8.toString?_eq_ok_iff.mpr rfl, hparse indent⟩, ?_, ?_⟩
  · rw [hparse, hparse]
  · rw [← Fields.toJson_eq]
    rfl

end EventLog
