import EventLog.Event.Render
import EventLog.Proofs.Address.Text
import EventLog.Proofs.Wire.Context

set_option autoImplicit false

/-! # The origin of a context

The document of a context holds its time as a number, and its user and address as texts. As no two
users and no two addresses have the same text (`Uuid.text_inj`, `Address.text_inj`), these three
members tell the forty bytes that the context was read from (`Context.members_tell_bytes`).
-/

namespace EventLog

/-! ## Texts of users -/

theorem length_hexByte (b : UInt8) : (hexByte b).length = 2 :=
  length_paddedDigits (by decide) (by decide) b.toNat_lt

theorem hexByte_ne_nil (b : UInt8) : hexByte b ≠ [] := paddedDigits_ne_nil _ _ _

/-- The digits of bytes tell the bytes. -/
theorem flatMap_hexByte_inj {bytes bytes' : List UInt8}
    (h : bytes.flatMap hexByte = bytes'.flatMap hexByte) : bytes = bytes' := by
  induction bytes generalizing bytes' with
  | nil =>
      cases bytes' with
      | nil => rfl
      | cons b' bytes' => exact absurd (List.append_eq_nil_iff.mp h.symm).1 (hexByte_ne_nil b')
  | cons b bytes ih =>
      cases bytes' with
      | nil => exact absurd (List.append_eq_nil_iff.mp h).1 (hexByte_ne_nil b)
      | cons b' bytes' =>
          -- Each byte takes two digits, so the first bytes end at the same place.
          have hlength : (hexByte b).length = (hexByte b').length := by
            rw [length_hexByte, length_hexByte]
          obtain ⟨hb, hbytes⟩ := List.append_inj h hlength
          rw [UInt8.toNat_inj.mp (paddedDigits_inj (by decide) (by decide) hb), ih hbytes]

namespace Uuid

/-- The pieces of a list make it up, if their sizes do. -/
theorem flatten_groups {sizes : List Nat} {bytes : List UInt8} (h : bytes.length ≤ sizes.sum) :
    (groups sizes bytes).flatten = bytes := by
  induction sizes generalizing bytes with
  | nil => exact (List.length_eq_zero_iff.mp (Nat.le_zero.mp h)).symm
  | cons n sizes ih =>
      rw [List.sum_cons] at h
      have hrest : (bytes.drop n).length ≤ sizes.sum := by
        rw [List.length_drop]
        omega
      rw [groups, List.flatten_cons, ih hrest, List.take_append_drop]

/-- The text of an identifier without its hyphens. -/
theorem splitOn_text (u : Uuid) :
    u.text.toList.splitOn '-' =
      (groups [4, 2, 2, 2, 6] u.bytes).map fun group => group.flatMap hexByte := by
  have htext : u.text.toList = ['-'].intercalate
      ((groups [4, 2, 2, 2, 6] u.bytes).map fun group => group.flatMap hexByte) := by
    rw [text, String.toList_intercalate, List.map_map]
    refine congrArg _ (List.map_congr_left fun group _ => ?_)
    exact String.toList_ofList
  rw [htext]
  -- A dash is no hexadecimal digit, so the groups come back whole.
  refine List.splitOn_intercalate '-' ?_ nofun
  intro piece hpiece hmem
  obtain ⟨group, -, rfl⟩ := List.mem_map.mp hpiece
  obtain ⟨b, -, hdigit⟩ := List.mem_flatMap.mp hmem
  obtain ⟨d, hd, hc⟩ := exists_digit_of_mem_paddedDigits (by decide) hdigit
  have hall : ∀ d < 16, '-' ≠ d.digitChar := by decide
  exact hall d hd hc

/-- **No two identifiers have the same text.** -/
theorem text_inj {u u' : Uuid} (h : u.text = u'.text) : u = u' := by
  -- Without its dashes, the text is the two digits of every byte in turn.
  have hbytes (v : Uuid) : (v.text.toList.splitOn '-').flatten = v.bytes.flatMap hexByte := by
    let pieces := groups [4, 2, 2, 2, 6] v.bytes
    calc (v.text.toList.splitOn '-').flatten
        = pieces.flatMap fun piece => piece.flatMap hexByte := by
          rw [splitOn_text, List.flatMap_def]
      _ = pieces.flatten.flatMap hexByte := by
          rw [List.flatten_eq_flatMap, List.flatMap_assoc]
          rfl
      _ = v.bytes.flatMap hexByte := by rw [flatten_groups (Nat.le_of_eq v.length_bytes)]
  have hflat : u.bytes.flatMap hexByte = u'.bytes.flatMap hexByte := by
    rw [← hbytes, h, hbytes]
  cases u
  cases u'
  rw [Uuid.mk.injEq]
  exact flatMap_hexByte_inj hflat

end Uuid

/-! ## Documents of contexts -/

def Json.member? (name : String) : Json → Option Json
  | object members => members.lookup name
  | _ => none

namespace Context

variable {payload : List UInt8} {offset base : Nat} {x : Context}

/-- The address of a context is that of its last sixteen bytes. -/
theorem address_of_read (h : read version payload offset base = .ok x) :
    x.address = .ofBytes ((payload.drop (offset + 24)).take 16) := by
  obtain ⟨-, ⟨-, -, w0, w1, w2, w3, haddress⟩, rest, hrest⟩ := read_eq_ok_iff.mp h
  have hfront : (toLittleEndian 8 x.timestamp.toUInt64.toNat ++ x.user.bytes).length = 24 := by
    rw [List.length_append, length_toLittleEndian, x.user.length_bytes]
  have hoctets : x.address.octets.length = 16 := by
    rw [haddress, Address.octets_ofWords, Address.length_wordsBytes]
  rw [← List.drop_drop, hrest, wire, List.append_assoc, List.drop_left' hfront,
    List.take_left' hoctets, haddress, Address.octets_ofWords, Address.ofBytes_wordsBytes]

/-- Contexts of equal time, user and address are written alike. -/
theorem wire_eq_of_text {x' : Context} (htime : x.timestamp = x'.timestamp)
    (huser : x.user.text = x'.user.text) (haddress : x.address.text = x'.address.text) :
    x.wire = x'.wire := by
  rw [wire, wire, htime, Uuid.text_inj huser, Address.text_inj haddress]

/-- The members of a document that tell the bytes of its context. -/
def tellingMembers : List String := ["timestamp", "user_id", "ip_address"]

/-- **Three members of its document tell the bytes of a context.** Contexts whose documents agree
on the time, the user and the address were read from the same forty bytes. The address is that of
the last sixteen, and its text tells these: it is a dotted IPv4 address exactly if all words but the
first are zero; otherwise it is written in one of the forms of an IPv6 address, which is read as the
eight groups, and no IPv4 address is written like that. -/
theorem members_tell_bytes :
    (∀ (payload payload' : List UInt8) (offset offset' base base' : Nat) (x x' : Context),
      read version payload offset base = .ok x → read version payload' offset' base' = .ok x' →
      (∀ name ∈ tellingMembers, x.toJson.member? name = x'.toJson.member? name) →
        (payload.drop offset).take size = (payload'.drop offset').take size) ∧
    (∀ (payload : List UInt8) (offset base : Nat) (x : Context),
      read version payload offset base = .ok x →
        x.toJson.member? "ip_address" =
          some (.string (Address.ofBytes ((payload.drop (offset + 24)).take 16)).text)) ∧
    (∀ bytes bytes' : List UInt8, bytes.length = 16 → bytes'.length = 16 →
      ((Address.ofBytes bytes).text = (Address.ofBytes bytes').text ↔ bytes = bytes')) ∧
    (∀ w0 w1 w2 w3 : UInt32,
      let text := (Address.ofBytes (Address.wordsBytes w0 w1 w2 w3)).text
      ((∃ word, text = Address.dotted word) ↔ w1 = 0 ∧ w2 = 0 ∧ w3 = 0) ∧
      (w1 = 0 ∧ w2 = 0 ∧ w3 = 0 → text = Address.dotted w0) ∧
      (¬(w1 = 0 ∧ w2 = 0 ∧ w3 = 0) → Address.V6Text w0 w1 w2 w3 text ∧
        Address.readV6? text.toList = some (Address.groups w0 w1 w2 w3))) ∧
    ∀ word w0 w1 w2 w3 : UInt32, Address.dotted word ≠ (Address.v6 w0 w1 w2 w3).text := by
  refine ⟨?_, ?_, ?_, ?_, Address.dotted_ne_text⟩
  · intro payload payload' offset offset' base base' x x' hread hread' hmembers
    have htime := hmembers "timestamp" (by decide)
    have huser := hmembers "user_id" (by decide)
    have haddress := hmembers "ip_address" (by decide)
    rw [take_of_read hread, take_of_read hread']
    refine wire_eq_of_text ?_ ?_ ?_
    · exact Int64.toInt_inj.mp (Json.int.inj (Option.some.inj htime))
    · exact Json.string.inj (Option.some.inj huser)
    · exact Json.string.inj (Option.some.inj haddress)
  · intro payload offset base x hread
    rw [← address_of_read hread]
    rfl
  · intro bytes bytes' hlength hlength'
    constructor
    · exact Address.text_ofBytes_inj hlength hlength'
    · intro heq
      rw [heq]
  · intro w0 w1 w2 w3
    rw [Address.ofBytes_wordsBytes]
    refine ⟨Address.exists_dotted_iff, ?_, ?_⟩
    · intro hzero
      rw [Address.ofWords_eq, if_pos hzero]
      rfl
    · intro hnonzero
      rw [Address.ofWords_eq, if_neg hnonzero]
      have hform := Address.v6Text_text w0 w1 w2 w3
      exact ⟨hform, hform.read⟩

/-- A context whose address is one of those set aside for documentation. -/
def documentation : Context where
  timestamp := 1500000000
  timestampText := EventLog.timestampText 1500000000
  user := ⟨List.replicate 15 0 ++ [42], rfl⟩
  address := .ofWords 0x20010DB8 0 0 1

theorem readable_documentation : documentation.Readable :=
  ⟨by decide, rfl, 0x20010DB8, 0, 0, 1, rfl⟩

theorem members_tell_bytes_documentation :
    (∃ x x' : Context, read version documentation.wire 0 0 = .ok x ∧
      read version (7 :: documentation.wire) 1 200 = .ok x' ∧
      (∀ name ∈ tellingMembers, x.toJson.member? name = x'.toJson.member? name) ∧
      (documentation.wire.drop 0).take size = ((7 :: documentation.wire).drop 1).take size) ∧
    Address.V6Text 0x20010DB8 0 0 1 documentation.address.text ∧
      Address.readV6? documentation.address.text.toList =
        some [0x2001, 0xDB8, 0, 0, 0, 0, 0, 1] := by
  have hread : read version documentation.wire 0 0 = .ok documentation :=
    read_eq_ok_iff.mpr ⟨by decide, readable_documentation, [], (List.append_nil _).symm⟩
  have hread' : read version (7 :: documentation.wire) 1 200 = .ok documentation :=
    read_eq_ok_iff.mpr ⟨by decide, readable_documentation, [], (List.append_nil _).symm⟩
  refine ⟨⟨documentation, documentation, hread, hread', fun _ _ => rfl, ?_⟩, ?_⟩
  · exact members_tell_bytes.1 _ _ 0 1 0 200 _ _ hread hread' fun _ _ => rfl
  · have hforms := members_tell_bytes.2.2.2.1 0x20010DB8 0 0 1
    rw [Address.ofBytes_wordsBytes] at hforms
    exact hforms.2.2 (by decide)

end Context

end EventLog
