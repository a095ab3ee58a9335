import EventLog.Proofs.Text.Malformed
import EventLog.Proofs.Wire.InTurn
import EventLog.Proofs.Wire.Truncation

set_option autoImplicit false

/-! # String fields

A string field whose bytes are all there is read exactly if they are UTF-8, and its value is then
the sequence of scalar values that they encode. Otherwise the fault points at the first byte behind
the longest well-formed beginning, and says whether the bytes from there on are cut off or how many
of them are invalid (`Cursor.field_of_text`). A string that is declared not to be empty is read like
any other.
-/

namespace EventLog

def Layout.IsText (layout : Layout) : Prop := layout = .string ∨ layout = .nonEmptyString

theorem Utf8.not_wellFormed_of_fault {bytes : List UInt8} {fault : Fault}
    (h : decode bytes = .error fault) : ¬WellFormed bytes := by
  rintro ⟨cs, hcs⟩
  rw [decode_eq_ok_iff.mpr hcs] at h
  cases h

namespace Cursor

def textLength (data : List UInt8) (offset : Nat) : Nat :=
  ofLittleEndian ((data.drop offset).take 4)

/-- The bytes of a string at an offset, behind its length. -/
def textBytes (data : List UInt8) (offset : Nat) : List UInt8 :=
  (data.drop (offset + 4)).take (textLength data offset)

/-- The length and the bytes of a string at an offset lie in the data. -/
def HoldsText (data : List UInt8) (offset : Nat) : Prop :=
  offset + 4 + textLength data offset ≤ data.length

/-- The bytes of an element that lie in the data are taken. -/
theorem take_of {data : List UInt8} {offset n : Nat} (h : offset + n ≤ data.length)
    (element : Element) (base : Nat) :
    (of data offset base).take element n =
      .ok ((data.drop offset).take n, of data (offset + n) base) := by
  have hrest : hasAtLeast n (data.drop offset) = true := by
    rw [hasAtLeast_iff, List.length_drop]
    omega
  unfold take
  rw [← advance_of]
  exact if_pos hrest

/-- What is read of a string field depends on its bytes alone. -/
theorem field_of_isText {layout : Layout} (hlayout : layout.IsText) {data : List UInt8}
    {offset : Nat} (h : HoldsText data offset) (base : Nat) :
    (of data offset base).field layout =
      (readText (base + offset + 4)
        (textBytes data offset, of data (offset + (4 + textLength data offset)) base)).map
          fun p => (.string p.1, p.2) := by
  -- The offset of the text that is reported counts from the length field's end.
  have hnumber : (of data offset base).number .string 4 =
      .ok (textLength data offset, of data (offset + 4) base) := by
    unfold HoldsText at h
    unfold number
    rw [take_of (by omega)]
    rfl
  have hstring : (of data offset base).string = readText (base + offset + 4)
      (textBytes data offset, of data (offset + (4 + textLength data offset)) base) := by
    calc (of data offset base).string
        = (of data (offset + 4) base).take .string (textLength data offset) >>=
            readText (of data (offset + 4) base).position := by
          rw [string_eq, hnumber]
          rfl
      _ = readText (base + (offset + 4))
            (textBytes data offset, of data (offset + 4 + textLength data offset) base) := by
          rw [take_of h]
          rfl
      _ = _ := by rw [← Nat.add_assoc, Nat.add_assoc offset 4]
  have hfield : (of data offset base).field layout =
      (of data offset base).string.map fun p => (.string p.1, p.2) := by
    rcases hlayout with rfl | rfl <;> rfl
  rw [hfield, hstring]

/-- A string field that is read by itself takes four bytes and those of the string. -/
theorem readAt_of_isText {layout : Layout} (hlayout : layout.IsText) {data : List UInt8}
    {offset : Nat} (h : HoldsText data offset) :
    layout.readAt data offset = (at? data offset 0 >>= fun c => c.field layout).map
      fun p => (p.1, 4 + textLength data offset) := by
  have hoffset : offset ≤ data.length := by
    unfold HoldsText at h
    omega
  have hsize : (of data (offset + (4 + textLength data offset)) 0).position -
      (of data offset 0).position = 4 + textLength data offset := by
    simp only [of]
    omega
  rw [Layout.readAt, at?_eq hoffset, ok_bind, ok_bind, field_of_isText hlayout h]
  unfold readText
  dsimp only
  cases Utf8.toString? (textBytes data offset) with
  | error source => rfl
  | ok s => exact congrArg (fun size => Except.ok (FieldValue.string s, size)) hsize

/-- Bytes are made sense of as the string that they encode, or there is a fault in them. -/
theorem readText_cases (bytes : List UInt8) :
    (∃ s : String, Utf8.encode s.toList = bytes ∧
      ∀ position next, readText position (bytes, next) = .ok (s, next)) ∨
    ∃ source, Utf8.decode bytes = .error source ∧ ∀ position next,
      readText position (bytes, next) = .error (.encoding source (position + source.validUpTo)) := by
  cases hdecode : Utf8.decode bytes with
  | ok cs =>
      refine .inl ⟨String.ofList cs, ?_, ?_⟩
      · rw [String.toList_ofList]
        exact (Utf8.decode_eq_ok_iff.mp hdecode).symm
      · intro position next
        simp [readText, Utf8.toString?, hdecode, Except.map]
  | error source =>
      refine .inr ⟨source, rfl, ?_⟩
      intro position next
      simp [readText, Utf8.toString?, hdecode, Except.map]

/-- **A string field is read exactly if its bytes are UTF-8.** Its value is then the sequence of
scalar values that they encode, and the length and the bytes are taken. Otherwise the fault points
behind the longest well-formed beginning, and its sentence tells a scalar value that is cut off from
invalid bytes: as many as begin like a scalar value, and one byte at least. -/
theorem field_of_text {layout : Layout} (hlayout : layout.IsText) {data : List UInt8}
    {offset : Nat} (h : HoldsText data offset) (base : Nat) :
    let bytes := textBytes data offset
    let read := fun base => at? data offset base >>= fun c => c.field layout
    ((∃ value next, read base = .ok (value, next)) ↔ Utf8.WellFormed bytes) ∧
    (∀ value next, read base = .ok (value, next) →
      (∃ s : String, value = .string s ∧ Utf8.encode s.toList = bytes) ∧
      next = of data (offset + (4 + textLength data offset)) base) ∧
    (layout.readAt data offset = (read 0).map fun p => (p.1, 4 + textLength data offset)) ∧
    (¬Utf8.WellFormed bytes → ∃ source : Utf8.Fault,
      let behind := bytes.drop source.validUpTo
      read base = .error (.encoding source (base + offset + 4 + source.validUpTo)) ∧
      IsGreatest (Utf8.wellFormedLengths bytes) source.validUpTo ∧
      (source.message = s!"incomplete utf-8 byte sequence from index {source.validUpTo}" ↔
        Utf8.BeginsScalar behind) ∧
      (¬Utf8.BeginsScalar behind → ∃ n k, n ≤ 3 ∧ n = max 1 k ∧
        IsGreatest (Utf8.openingLengths behind) k ∧
        source.message =
          s!"invalid utf-8 sequence of {n} bytes from index {source.validUpTo}")) := by
  intro bytes read
  have hread (base : Nat) : read base = (readText (base + offset + 4)
      (bytes, of data (offset + (4 + textLength data offset)) base)).map
        fun p => (.string p.1, p.2) := by
    have hoffset : offset ≤ data.length := by
      unfold HoldsText at h
      omega
    show at? data offset base >>= _ = _
    rw [at?_eq hoffset]
    exact field_of_isText hlayout h base
  have hwhole := readAt_of_isText hlayout h
  -- Everything is read off one case distinction: the bytes are an encoding or they are not.
  rcases readText_cases bytes with ⟨s, hs, htext⟩ | ⟨source, hdecode, htext⟩
  · have hwell : Utf8.WellFormed bytes := ⟨s.toList, hs.symm⟩
    have hok := hread base
    rw [htext] at hok
    refine ⟨⟨fun _ => hwell, fun _ => ⟨_, _, hok⟩⟩, ?_, hwhole, fun hnot => absurd hwell hnot⟩
    intro value next hvalue
    rw [hok] at hvalue
    cases hvalue
    exact ⟨⟨s, rfl, hs⟩, rfl⟩
  · have hbad := Utf8.not_wellFormed_of_fault hdecode
    have herror := hread base
    rw [htext] at herror
    obtain ⟨hgreatest, hbreaks⟩ := Utf8.fault_of_decode hdecode
    refine ⟨⟨?_, fun hwell => absurd hwell hbad⟩, ?_, hwhole, fun _ => ⟨source, herror, hgreatest,
      Utf8.Fault.message_eq_incomplete_iff hbreaks, Utf8.Fault.message_eq_invalid hbreaks⟩⟩
    · rintro ⟨value, next, hvalue⟩
      rw [herror] at hvalue
      cases hvalue
    · intro value next hvalue
      rw [herror] at hvalue
      cases hvalue

/-- A string of three bytes, the second of which is followed by one that does not continue it. -/
def brokenText : List UInt8 := [3, 0, 0, 0, 0x61, 0xC3, 0x28]

theorem field_of_text_broken :
    HoldsText brokenText 0 ∧ ¬Utf8.WellFormed (textBytes brokenText 0) ∧
      (at? brokenText 0 100 >>= fun c => c.field .string) =
        .error (.encoding ⟨1, some 1⟩ 105) ∧
      IsGreatest (Utf8.wellFormedLengths (textBytes brokenText 0)) 1 := by
  have hholds : HoldsText brokenText 0 := by
    unfold HoldsText
    decide
  have hdecode : Utf8.decode (textBytes brokenText 0) = .error ⟨1, some 1⟩ := rfl
  have hbad := Utf8.not_wellFormed_of_fault hdecode
  have hread : (at? brokenText 0 100 >>= fun c => c.field .string) =
      .error (.encoding ⟨1, some 1⟩ 105) := rfl
  obtain ⟨-, -, -, hfault⟩ := field_of_text (.inl rfl) hholds 100
  obtain ⟨source, herror, hgreatest, -⟩ := hfault hbad
  have hsource := hread.symm.trans herror
  simp only [Except.error.injEq, Fault.encoding.injEq] at hsource
  obtain ⟨rfl, -⟩ := hsource
  exact ⟨hholds, hbad, hread, hgreatest⟩

end Cursor

end EventLog
