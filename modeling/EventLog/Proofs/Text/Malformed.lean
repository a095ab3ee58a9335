import EventLog.Proofs.Text.Utf8
import Mathlib.Data.List.Infix
import Mathlib.Order.Bounds.Basic

set_option autoImplicit false

/-! # Bytes that are not UTF-8

Bytes that do not encode scalar values have a longest beginning that does. What follows it is all
there is of a scalar value that is cut off, or it begins like one only for up to three bytes. A
fault of the decoder says exactly that (`Utf8.fault_of_decode`).

The beginnings of scalar values are told apart by the classes of their bytes (`Opening`), so that
the branches of the decoder can be followed one by one.
-/

namespace EventLog.Utf8

def WellFormed (bytes : List UInt8) : Prop := ∃ cs, bytes = encode cs

/-- The bytes are a beginning of the encoding of a scalar value, and not all of it. -/
def BeginsScalar (bytes : List UInt8) : Prop :=
  ∃ c : Char, bytes <+: String.utf8EncodeChar c ∧ bytes ≠ String.utf8EncodeChar c

/-- The lengths of the well-formed beginnings of some bytes. -/
def wellFormedLengths (bytes : List UInt8) : Set Nat :=
  {n | n ≤ bytes.length ∧ WellFormed (bytes.take n)}

/-- The lengths for which some bytes begin like a scalar value. -/
def openingLengths (bytes : List UInt8) : Set Nat :=
  {n | n ≤ bytes.length ∧ BeginsScalar (bytes.take n)}

/-! ## Beginnings of scalar values -/

theorem BeginsScalar.of_front {bytes longer : List UInt8} (h : BeginsScalar longer)
    (hfront : bytes <+: longer) : BeginsScalar bytes := by
  obtain ⟨c, hlonger, hne⟩ := h
  refine ⟨c, hfront.trans hlonger, ?_⟩
  rintro rfl
  exact hne (hlonger.eq_of_length_le hfront.length_le)

/-- The beginnings of scalar values by the classes of their bytes. -/
inductive Opening : List UInt8 → Prop where
  | nil : Opening []
  | one {a : UInt8} {n : Nat} (ha : trailing a = some n) (hn : 0 < n) : Opening [a]
  | two {a b : UInt8} {n : Nat} (ha : trailing a = some n) (hn : 1 < n)
      (hb : secondAllowed a b = true) : Opening [a, b]
  | three {a b c : UInt8} {n : Nat} (ha : trailing a = some n) (hn : 2 < n)
      (hb : secondAllowed a b = true) (hc : continues c = true) : Opening [a, b, c]

theorem Opening.length_le {bytes : List UInt8} (h : Opening bytes) : bytes.length ≤ 3 := by
  cases h <;> simp

/-- After every first byte of a longer scalar value there is a byte that goes on with it. -/
theorem exists_secondAllowed (a : UInt8) : ∃ b, secondAllowed a b = true := by
  by_cases hlow : a.toNat = 0xE0 ∨ a.toNat = 0xF0
  · obtain ⟨b, hb⟩ := exists_byte (n := if a.toNat = 0xE0 then 0xA0 else 0x90) (by split <;> omega)
    refine ⟨b, secondAllowed_iff.mpr ?_⟩
    split at hb <;> omega
  · obtain ⟨b, hb⟩ := exists_byte (n := 0x80) (by omega)
    exact ⟨b, secondAllowed_iff.mpr (by omega)⟩

/-- A first byte is followed by three bytes at most. -/
theorem trailing_le {a : UInt8} {n : Nat} (ha : trailing a = some n) : n ≤ 3 := by
  rw [trailing_eq_some_iff] at ha
  omega

/-- Every opening can be completed. -/
theorem Opening.exists_scalar_append {bytes : List UInt8} (h : Opening bytes) :
    ∃ more c, more ≠ [] ∧ Scalar (bytes ++ more) c := by
  have hcontinues : continues 0x80 = true := rfl
  -- What is open is completed by the lowest bytes that may still follow.
  cases h with
  | nil => exact ⟨_, _, List.cons_ne_nil 0 [], .one (by decide)⟩
  | @one a n ha hn =>
      obtain ⟨b, hb⟩ := exists_secondAllowed a
      have hle := trailing_le ha
      obtain rfl | rfl | rfl : n = 1 ∨ n = 2 ∨ n = 3 := by omega
      · exact ⟨_, _, List.cons_ne_nil b [], .two ha hb⟩
      · exact ⟨_, _, List.cons_ne_nil b [0x80], .three ha hb hcontinues⟩
      · exact ⟨_, _, List.cons_ne_nil b [0x80, 0x80], .four ha hb hcontinues hcontinues⟩
  | @two a b n ha hn hb =>
      have hle := trailing_le ha
      obtain rfl | rfl : n = 2 ∨ n = 3 := by omega
      · exact ⟨_, _, List.cons_ne_nil 0x80 [], .three ha hb hcontinues⟩
      · exact ⟨_, _, List.cons_ne_nil 0x80 [0x80], .four ha hb hcontinues hcontinues⟩
  | @three a b c n ha hn hb hc =>
      have hle := trailing_le ha
      obtain rfl : n = 3 := by omega
      exact ⟨_, _, List.cons_ne_nil 0x80 [], .four ha hb hc hcontinues⟩

theorem beginsScalar_iff {bytes : List UInt8} : BeginsScalar bytes ↔ Opening bytes := by
  constructor
  · rintro ⟨v, hfront, hne⟩
    have hscalar : Scalar (String.utf8EncodeChar v) v := scalar_iff.mpr rfl
    generalize String.utf8EncodeChar v = whole at hfront hne hscalar
    -- A beginning that is not the whole has fewer bytes, which are in the classes of the whole.
    cases hscalar with
    | one ha =>
        simp only [List.prefix_cons_iff, List.prefix_nil] at hfront
        rcases hfront with rfl | ⟨_, rfl, rfl⟩
        · exact .nil
        · exact absurd rfl hne
    | two ha hb =>
        simp only [List.prefix_cons_iff, List.prefix_nil] at hfront
        rcases hfront with rfl | ⟨_, rfl, rfl | ⟨_, rfl, rfl⟩⟩
        · exact .nil
        · exact .one ha (by decide)
        · exact absurd rfl hne
    | three ha hb hc =>
        simp only [List.prefix_cons_iff, List.prefix_nil] at hfront
        rcases hfront with rfl | ⟨_, rfl, rfl | ⟨_, rfl, rfl | ⟨_, rfl, rfl⟩⟩⟩
        · exact .nil
        · exact .one ha (by decide)
        · exact .two ha (by decide) hb
        · exact absurd rfl hne
    | four ha hb hc hd =>
        simp only [List.prefix_cons_iff, List.prefix_nil] at hfront
        rcases hfront with rfl | ⟨_, rfl, rfl | ⟨_, rfl, rfl | ⟨_, rfl, rfl | ⟨_, rfl, rfl⟩⟩⟩⟩
        · exact .nil
        · exact .one ha (by decide)
        · exact .two ha (by decide) hb
        · exact .three ha (by decide) hb hc
        · exact absurd rfl hne
  · intro h
    obtain ⟨more, v, hmore, hscalar⟩ := h.exists_scalar_append
    refine ⟨v, ?_, ?_⟩
    · rw [← hscalar.eq_utf8EncodeChar]
      exact List.prefix_append bytes more
    · rw [← hscalar.eq_utf8EncodeChar]
      simpa using hmore

/-! ## Where decoding stops -/

/-- What follows the longest well-formed beginning, and the number of its bytes that a fault calls
invalid: none if all of it begins a scalar value, and else the bytes that begin like one, but one
byte at least. -/
inductive BreaksOff : List UInt8 → Option Nat → Prop where
  | incomplete {rest : List UInt8} (hne : rest ≠ []) (h : BeginsScalar rest) : BreaksOff rest none
  | invalid {rest : List UInt8} {k : Nat} (hk : k < rest.length)
      (h : BeginsScalar (rest.take k)) (hnot : ¬BeginsScalar (rest.take (k + 1))) :
      BreaksOff rest (some (max 1 k))

/-- A fault describes the bytes behind the first `done` ones of a text. -/
def Fault.Describes (fault : Fault) (done : Nat) (bytes : List UInt8) : Prop :=
  ∃ cs rest, bytes = encode cs ++ rest ∧ fault.validUpTo = done + (encode cs).length ∧
    BreaksOff rest fault.invalidLength

/-! ### The byte that breaks off -/

section

variable {a b c d : UInt8} {n : Nat}

theorem breaksOff_first (ha : trailing a = none) (rest : List UInt8) :
    BreaksOff (a :: rest) (some 1) := by
  refine .invalid (k := 0) (by simp) (beginsScalar_iff.mpr .nil) ?_
  intro hbegins
  cases beginsScalar_iff.mp hbegins with
  | one ha' => simp [ha] at ha'

theorem breaksOff_second (ha : trailing a = some n) (hn : 0 < n)
    (hb : ¬secondAllowed a b = true) (rest : List UInt8) :
    BreaksOff (a :: b :: rest) (some 1) := by
  refine .invalid (k := 1) (by simp) (beginsScalar_iff.mpr (.one ha hn)) ?_
  intro hbegins
  cases beginsScalar_iff.mp hbegins with
  | two _ _ hb' => exact hb hb'

theorem breaksOff_third (ha : trailing a = some n) (hn : 1 < n) (hb : secondAllowed a b = true)
    (hc : ¬continues c = true) (rest : List UInt8) :
    BreaksOff (a :: b :: c :: rest) (some 2) := by
  refine .invalid (k := 2) (by simp) (beginsScalar_iff.mpr (.two ha hn hb)) ?_
  intro hbegins
  cases beginsScalar_iff.mp hbegins with
  | three _ _ _ hc' => exact hc hc'

/-- No four bytes are a beginning that is not the whole, whatever the last one is. -/
theorem breaksOff_fourth (ha : trailing a = some n) (hn : 2 < n) (hb : secondAllowed a b = true)
    (hc : continues c = true) (rest : List UInt8) :
    BreaksOff (a :: b :: c :: d :: rest) (some 3) := by
  refine .invalid (k := 3) (by simp) (beginsScalar_iff.mpr (.three ha hn hb hc)) ?_
  intro hbegins
  have hlength := (beginsScalar_iff.mp hbegins).length_le
  simp at hlength

end

/-! ### The faults of the decoder -/

/-- The last branch of the decoder is that of three bytes behind the first. -/
theorem two_lt_of_ne {n : Nat} (h0 : n ≠ 0) (h1 : n ≠ 1) (h2 : n ≠ 2) : 2 < n := by omega

theorem Fault.Describes.here {done : Nat} {rest : List UInt8} {length : Option Nat}
    (h : BreaksOff rest length) : Fault.Describes ⟨done, length⟩ done rest :=
  ⟨[], rest, rfl, rfl, h⟩

/-- A fault behind a scalar value is one of the whole. -/
theorem Fault.Describes.behind {fault : Fault} {done : Nat} {taken rest : List UInt8} {c : Char}
    (h : fault.Describes (done + taken.length) rest) (hc : Scalar taken c) :
    fault.Describes done (taken ++ rest) := by
  obtain ⟨cs, more, rfl, hvalid, hbreaks⟩ := h
  refine ⟨c :: cs, more, ?_, ?_, hbreaks⟩
  · rw [encode_cons, ← hc.eq_utf8EncodeChar, List.append_assoc]
  · rw [hvalid, encode_cons, ← hc.eq_utf8EncodeChar, List.length_append, Nat.add_assoc]

/-- Either a scalar value is taken and the rest is decoded, or the bytes break off here. -/
theorem describes_of_decodeFrom {done : Nat} {acc : List Char} {bytes : List UInt8} {fault : Fault}
    (h : decodeFrom done acc bytes = .error fault) : fault.Describes done bytes := by
  have hcut {rest : List UInt8} (hrest : Opening rest) (hne : rest ≠ []) : BreaksOff rest none :=
    .incomplete hne (beginsScalar_iff.mpr hrest)
  -- One case per branch of the decoder: a scalar value is passed, or the bytes break off.
  fun_induction decodeFrom done acc bytes with
  | case1 => cases h
  | case2 done acc a rest ha =>
      cases h
      exact .here (breaksOff_first ha rest)
  | case3 done acc a rest ha ih => exact (ih h).behind (.one ha)
  | case4 done acc a ha =>
      cases h
      exact .here (hcut (.one ha (by decide)) (by simp))
  | case5 done acc a ha b rest hb ih => exact (ih h).behind (.two ha hb)
  | case6 done acc a ha b rest hb =>
      cases h
      exact .here (breaksOff_second ha (by decide) hb rest)
  | case7 done acc a ha =>
      cases h
      exact .here (hcut (.one ha (by decide)) (by simp))
  | case8 done acc a ha b hb =>
      cases h
      exact .here (hcut (.two ha (by decide) hb) (by simp))
  | case9 done acc a ha b hb c rest hc ih => exact (ih h).behind (.three ha hb hc)
  | case10 done acc a ha b hb c rest hc =>
      cases h
      exact .here (breaksOff_third ha (by decide) hb hc rest)
  | case11 done acc a ha b rest hb =>
      cases h
      exact .here (breaksOff_second ha (by decide) hb rest)
  | case12 done acc a n h0 h1 h2 ha =>
      cases h
      have hn := two_lt_of_ne h0 h1 h2
      exact .here (hcut (.one ha (by omega)) (by simp))
  | case13 done acc a n h0 h1 h2 ha b hb =>
      cases h
      have hn := two_lt_of_ne h0 h1 h2
      exact .here (hcut (.two ha (by omega) hb) (by simp))
  | case14 done acc a n h0 h1 h2 ha b hb c hc =>
      cases h
      exact .here (hcut (.three ha (two_lt_of_ne h0 h1 h2) hb hc) (by simp))
  | case15 done acc a n h0 h1 h2 ha b hb c hc d rest hd ih =>
      have hn := two_lt_of_ne h0 h1 h2
      have hle := trailing_le ha
      obtain rfl : n = 3 := by omega
      exact (ih h).behind (.four ha hb hc hd)
  | case16 done acc a n h0 h1 h2 ha b hb c hc d rest hd =>
      cases h
      exact .here (breaksOff_fourth ha (two_lt_of_ne h0 h1 h2) hb hc rest)
  | case17 done acc a n h0 h1 h2 ha b hb c rest hc =>
      cases h
      have hn := two_lt_of_ne h0 h1 h2
      exact .here (breaksOff_third ha (by omega) hb hc rest)
  | case18 done acc a n h0 h1 h2 ha b rest hb =>
      cases h
      have hn := two_lt_of_ne h0 h1 h2
      exact .here (breaksOff_second ha (by omega) hb rest)

/-- A well-formed beginning is decoded before what follows. -/
theorem decodeFrom_encode_append (done : Nat) (acc cs : List Char) (rest : List UInt8) :
    decodeFrom done acc (encode cs ++ rest) =
      decodeFrom (done + (encode cs).length) (cs.reverse ++ acc) rest := by
  induction cs generalizing done acc with
  | nil => simp [encode_nil]
  | cons c cs ih =>
      calc decodeFrom done acc (encode (c :: cs) ++ rest)
          = decodeFrom done acc (String.utf8EncodeChar c ++ (encode cs ++ rest)) := by
            rw [encode_cons, List.append_assoc]
        _ = decodeFrom (done + (String.utf8EncodeChar c).length) (c :: acc) (encode cs ++ rest) :=
            (scalar_iff.mpr rfl).decodeFrom_append done acc _
        _ = decodeFrom (done + (encode (c :: cs)).length) ((c :: cs).reverse ++ acc) rest := by
            rw [ih, encode_cons, List.length_append, Nat.add_assoc, List.reverse_cons,
              List.append_assoc, List.singleton_append]

/-- A fault is found behind every well-formed beginning. -/
theorem le_validUpTo {bytes : List UInt8} {fault : Fault} (h : decode bytes = .error fault) {n : Nat}
    (hn : n ∈ wellFormedLengths bytes) : n ≤ fault.validUpTo := by
  obtain ⟨hle, cs, hcs⟩ := hn
  rw [decode, ← List.take_append_drop n bytes, hcs, decodeFrom_encode_append] at h
  have hlength : (encode cs).length = n := by
    rw [← hcs, List.length_take, Nat.min_eq_left hle]
  have hafter := (validUpTo_of_decodeFrom h).1
  omega

/-- **A fault says where the longest well-formed beginning ends, and what follows it**: all there is
of a scalar value that is cut off, or else the bytes that begin like one. -/
theorem fault_of_decode {bytes : List UInt8} {fault : Fault} (h : decode bytes = .error fault) :
    IsGreatest (wellFormedLengths bytes) fault.validUpTo ∧
      BreaksOff (bytes.drop fault.validUpTo) fault.invalidLength := by
  obtain ⟨cs, rest, rfl, hvalid, hbreaks⟩ := describes_of_decodeFrom h
  rw [Nat.zero_add] at hvalid
  refine ⟨⟨⟨?_, cs, ?_⟩, fun n hn => le_validUpTo h hn⟩, ?_⟩
  · simp [hvalid]
  · rw [hvalid, List.take_left]
  · rw [hvalid, List.drop_left]
    exact hbreaks

/-! ## What a fault says -/

namespace BreaksOff

variable {rest : List UInt8}

/-- A fault calls no bytes invalid exactly where all that is left begins a scalar value. -/
theorem eq_none_iff {length : Option Nat} (h : BreaksOff rest length) :
    length = none ↔ BeginsScalar rest := by
  cases h with
  | incomplete _ hbegins => simp [hbegins]
  | @invalid k hk _ hnot =>
      have hwhole : ¬BeginsScalar rest := by
        intro hbegins
        exact hnot (hbegins.of_front (List.take_prefix (k + 1) rest))
      simp [hwhole]

/-- Otherwise it counts the bytes that begin like a scalar value, but one byte at least. -/
theorem length_eq {n : Nat} (h : BreaksOff rest (some n)) :
    n ≤ 3 ∧ ∃ k, IsGreatest (openingLengths rest) k ∧ n = max 1 k := by
  cases h with
  | @invalid k hk hbegins hnot =>
      have hlength := (beginsScalar_iff.mp hbegins).length_le
      rw [List.length_take, Nat.min_eq_left (Nat.le_of_lt hk)] at hlength
      refine ⟨by omega, k, ⟨⟨Nat.le_of_lt hk, hbegins⟩, ?_⟩, rfl⟩
      intro m hm
      by_contra hlt
      exact hnot (hm.2.of_front (List.take_prefix_take_left (by omega)))

end BreaksOff

/-- The two sentences about a fault are different ones. -/
theorem incomplete_ne_invalid (n i j : Nat) :
    s!"incomplete utf-8 byte sequence from index {i}" ≠
      s!"invalid utf-8 sequence of {n} bytes from index {j}" := by
  intro h
  have hletter := congrArg (fun s => s.toList[2]?) h
  simp [toString, String.toList_append] at hletter

namespace Fault

variable {fault : Fault} {rest : List UInt8}

theorem message_eq_incomplete_iff (h : BreaksOff rest fault.invalidLength) :
    fault.message = s!"incomplete utf-8 byte sequence from index {fault.validUpTo}" ↔
      BeginsScalar rest := by
  rw [← h.eq_none_iff]
  unfold message
  cases fault.invalidLength with
  | none => simp
  | some n => simpa using (incomplete_ne_invalid n fault.validUpTo fault.validUpTo).symm

theorem message_eq_invalid (h : BreaksOff rest fault.invalidLength) (hrest : ¬BeginsScalar rest) :
    ∃ n k, n ≤ 3 ∧ n = max 1 k ∧ IsGreatest (openingLengths rest) k ∧
      fault.message = s!"invalid utf-8 sequence of {n} bytes from index {fault.validUpTo}" := by
  cases hlength : fault.invalidLength with
  | none => exact absurd (h.eq_none_iff.mp hlength) hrest
  | some n =>
      rw [hlength] at h
      obtain ⟨hle, k, hgreatest, hn⟩ := h.length_eq
      refine ⟨n, k, hle, hn, hgreatest, ?_⟩
      unfold message
      rw [hlength]

end Fault

end EventLog.Utf8
