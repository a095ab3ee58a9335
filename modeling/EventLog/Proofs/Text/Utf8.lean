import EventLog.Text.Utf8

set_option autoImplicit false

/-! # Reading back UTF-8

Decoding accepts exactly the encodings of sequences of scalar values (`decode_eq_ok_iff`). The
bytes of one scalar value are described by the classes of bytes that the decoder tells apart
(`Scalar`); these are the bytes that the encoding of the value has (`scalar_iff`), so that the
decoder can be followed one scalar value at a time.
-/

namespace EventLog.Utf8

/-! ## Code points -/

theorem toNat_ofNat {n : Nat} (h : n < 0xD800 ∨ (0xDFFF < n ∧ n < 0x110000)) :
    (Char.ofNat n).toNat = n := by
  rw [Char.ofNat, dif_pos (show n.isValidChar from h)]
  rfl

theorem toNat_scalar (c : Char) :
    c.toNat < 0xD800 ∨ (0xDFFF < c.toNat ∧ c.toNat < 0x110000) := c.valid

/-! ## Classes of bytes -/

theorem trailing_eq_some_iff {a : UInt8} {n : Nat} :
    trailing a = some n ↔
      (n = 0 ∧ a.toNat < 0x80) ∨ (n = 1 ∧ 0xC2 ≤ a.toNat ∧ a.toNat < 0xE0) ∨
      (n = 2 ∧ 0xE0 ≤ a.toNat ∧ a.toNat < 0xF0) ∨ (n = 3 ∧ 0xF0 ≤ a.toNat ∧ a.toNat < 0xF5) := by
  simp only [trailing, UInt8.lt_iff_toNat_lt, UInt8.reduceToNat]
  repeat' split
  all_goals
    simp only [Option.some.injEq, reduceCtorEq, false_iff]
    omega

theorem continues_iff {b : UInt8} : continues b = true ↔ 0x80 ≤ b.toNat ∧ b.toNat < 0xC0 := by
  simp [continues, UInt8.lt_iff_toNat_lt, UInt8.le_iff_toNat_le]

/-- The second byte continues the scalar value, without an overlong form, a surrogate or a value
that is too great. -/
theorem secondAllowed_iff {a b : UInt8} :
    secondAllowed a b = true ↔
      (0x80 ≤ b.toNat ∧ b.toNat < 0xC0) ∧ (a.toNat = 0xE0 → 0xA0 ≤ b.toNat) ∧
      (a.toNat = 0xED → b.toNat < 0xA0) ∧ (a.toNat = 0xF0 → 0x90 ≤ b.toNat) ∧
      (a.toNat = 0xF4 → b.toNat < 0x90) := by
  simp only [secondAllowed, ← UInt8.toNat_inj, UInt8.reduceToNat]
  repeat' split
  all_goals
    simp only [continues_iff, Bool.and_eq_true, decide_eq_true_eq, UInt8.lt_iff_toNat_lt,
      UInt8.le_iff_toNat_le, UInt8.reduceToNat]
    omega

/-- The low six bits of a byte that continues a scalar value. -/
theorem payload_eq {b : UInt8} (h : 0x80 ≤ b.toNat ∧ b.toNat < 0xC0) :
    payload b = b.toNat - 0x80 := by
  rw [payload]
  omega

/-! ## One scalar value -/

/-- The bytes that the decoder takes for one scalar value. -/
inductive Scalar : List UInt8 → Char → Prop where
  | one {a : UInt8} (ha : trailing a = some 0) : Scalar [a] (Char.ofNat a.toNat)
  | two {a b : UInt8} (ha : trailing a = some 1) (hb : secondAllowed a b = true) :
      Scalar [a, b] (Char.ofNat (a.toNat % 32 * 64 + payload b))
  | three {a b c : UInt8} (ha : trailing a = some 2) (hb : secondAllowed a b = true)
      (hc : continues c = true) :
      Scalar [a, b, c] (Char.ofNat ((a.toNat % 16 * 64 + payload b) * 64 + payload c))
  | four {a b c d : UInt8} (ha : trailing a = some 3) (hb : secondAllowed a b = true)
      (hc : continues c = true) (hd : continues d = true) :
      Scalar [a, b, c, d]
        (Char.ofNat (((a.toNat % 8 * 64 + payload b) * 64 + payload c) * 64 + payload d))

/-- The decoder takes the bytes of a scalar value at once. -/
theorem Scalar.decodeFrom_append {bytes : List UInt8} {c : Char} (h : Scalar bytes c) (done : Nat)
    (acc : List Char) (rest : List UInt8) :
    decodeFrom done acc (bytes ++ rest) = decodeFrom (done + bytes.length) (c :: acc) rest := by
  cases h with
  | one ha =>
      rw [decodeFrom.eq_def]
      simp [ha]
  | two ha hb =>
      rw [decodeFrom.eq_def]
      simp [ha, hb]
  | three ha hb hc =>
      rw [decodeFrom.eq_def]
      simp [ha, hb, hc]
  | four ha hb hc hd =>
      rw [decodeFrom.eq_def]
      simp [ha, hb, hc, hd]

theorem ofNat_eq_of_toNat {n : Nat} {b : UInt8} (h : n = b.toNat) : UInt8.ofNat n = b := by
  rw [h, UInt8.ofNat_toNat]

/-- The bytes that the decoder takes for a scalar value are its encoding. -/
theorem Scalar.eq_utf8EncodeChar {bytes : List UInt8} {c : Char} (h : Scalar bytes c) :
    bytes = String.utf8EncodeChar c := by
  -- By length: the lead byte and the payloads are what the encoder cuts the number into.
  cases h with
  | @one a ha =>
      rw [trailing_eq_some_iff] at ha
      have hv : (Char.ofNat a.toNat).val.toNat = a.toNat := toNat_ofNat (by omega)
      rw [String.utf8EncodeChar, hv, if_pos (by omega), ofNat_eq_of_toNat rfl]
  | @two a b ha hb =>
      rw [trailing_eq_some_iff] at ha
      rw [secondAllowed_iff] at hb
      have hb' := payload_eq hb.1
      have hv := toNat_ofNat (n := a.toNat % 32 * 64 + payload b) (by omega)
      rw [Char.toNat] at hv
      rw [String.utf8EncodeChar, hv, if_neg (by omega), if_pos (by omega)]
      rw [ofNat_eq_of_toNat (b := a) (by omega), ofNat_eq_of_toNat (b := b) (by omega)]
  | @three a b c ha hb hc =>
      rw [trailing_eq_some_iff] at ha
      rw [secondAllowed_iff] at hb
      rw [continues_iff] at hc
      have hb' := payload_eq hb.1
      have hc' := payload_eq hc
      have hv := toNat_ofNat (n := (a.toNat % 16 * 64 + payload b) * 64 + payload c) (by omega)
      rw [Char.toNat] at hv
      rw [String.utf8EncodeChar, hv, if_neg (by omega), if_neg (by omega), if_pos (by omega)]
      rw [ofNat_eq_of_toNat (b := a) (by omega), ofNat_eq_of_toNat (b := b) (by omega),
        ofNat_eq_of_toNat (b := c) (by omega)]
  | @four a b c d ha hb hc hd =>
      rw [trailing_eq_some_iff] at ha
      rw [secondAllowed_iff] at hb
      rw [continues_iff] at hc hd
      have hb' := payload_eq hb.1
      have hc' := payload_eq hc
      have hd' := payload_eq hd
      have hv := toNat_ofNat
        (n := ((a.toNat % 8 * 64 + payload b) * 64 + payload c) * 64 + payload d) (by omega)
      rw [Char.toNat] at hv
      rw [String.utf8EncodeChar, hv, if_neg (by omega), if_neg (by omega), if_neg (by omega)]
      rw [ofNat_eq_of_toNat (b := a) (by omega), ofNat_eq_of_toNat (b := b) (by omega),
        ofNat_eq_of_toNat (b := c) (by omega), ofNat_eq_of_toNat (b := d) (by omega)]

theorem exists_byte {n : Nat} (h : n < 256) : ∃ b : UInt8, b.toNat = n :=
  ⟨UInt8.ofNat n, by rw [UInt8.toNat_ofNat', Nat.mod_eq_of_lt h]⟩

/-- Every scalar value is taken from some bytes: its bits in groups of six, the first byte saying
how many groups there are. -/
theorem exists_scalar (v : Char) : ∃ bytes, Scalar bytes v := by
  have hv := toNat_scalar v
  -- The last six bits always make the last byte, so it is shared by the longer forms.
  by_cases h1 : v.toNat < 0x80
  · obtain ⟨a, ha⟩ := exists_byte (n := v.toNat) (by omega)
    have h := Scalar.one (a := a) (trailing_eq_some_iff.mpr (by omega))
    rw [ha, Char.ofNat_toNat] at h
    exact ⟨_, h⟩
  obtain ⟨d, hd⟩ := exists_byte (n := 0x80 + v.toNat % 64) (by omega)
  by_cases h2 : v.toNat < 0x800
  · obtain ⟨a, ha⟩ := exists_byte (n := 0xC0 + v.toNat / 64) (by omega)
    have h := Scalar.two (a := a) (b := d) (trailing_eq_some_iff.mpr (by omega))
      (secondAllowed_iff.mpr (by omega))
    have value : a.toNat % 32 * 64 + payload d = v.toNat := by
      simp only [payload]
      omega
    rw [value, Char.ofNat_toNat] at h
    exact ⟨_, h⟩
  obtain ⟨c, hc⟩ := exists_byte (n := 0x80 + v.toNat / 64 % 64) (by omega)
  by_cases h3 : v.toNat < 0x10000
  · obtain ⟨a, ha⟩ := exists_byte (n := 0xE0 + v.toNat / 4096) (by omega)
    have h := Scalar.three (a := a) (b := c) (c := d) (trailing_eq_some_iff.mpr (by omega))
      (secondAllowed_iff.mpr (by omega)) (continues_iff.mpr (by omega))
    have value : (a.toNat % 16 * 64 + payload c) * 64 + payload d = v.toNat := by
      simp only [payload]
      omega
    rw [value, Char.ofNat_toNat] at h
    exact ⟨_, h⟩
  · obtain ⟨b, hb⟩ := exists_byte (n := 0x80 + v.toNat / 4096 % 64) (by omega)
    obtain ⟨a, ha⟩ := exists_byte (n := 0xF0 + v.toNat / 262144) (by omega)
    have h := Scalar.four (a := a) (b := b) (c := c) (d := d)
      (trailing_eq_some_iff.mpr (by omega)) (secondAllowed_iff.mpr (by omega))
      (continues_iff.mpr (by omega)) (continues_iff.mpr (by omega))
    have value : ((a.toNat % 8 * 64 + payload b) * 64 + payload c) * 64 + payload d
        = v.toNat := by
      simp only [payload]
      omega
    rw [value, Char.ofNat_toNat] at h
    exact ⟨_, h⟩

theorem scalar_iff {bytes : List UInt8} {v : Char} :
    Scalar bytes v ↔ bytes = String.utf8EncodeChar v := by
  constructor
  · exact Scalar.eq_utf8EncodeChar
  · rintro rfl
    obtain ⟨bytes, h⟩ := exists_scalar v
    rwa [h.eq_utf8EncodeChar] at h

/-- The bytes of a scalar value: one byte for an ASCII character, and else bytes from 0x80 on. -/
theorem mem_utf8EncodeChar {c : Char} {b : UInt8} (h : b ∈ String.utf8EncodeChar c) :
    (c.toNat < 0x80 ∧ b.toNat = c.toNat) ∨ 0x80 ≤ b.toNat := by
  obtain hscalar : Scalar (String.utf8EncodeChar c) c := scalar_iff.mpr rfl
  generalize String.utf8EncodeChar c = bytes at h hscalar
  -- Only the form of one byte has a byte below 0x80.
  cases hscalar with
  | one ha =>
      rw [trailing_eq_some_iff] at ha
      rw [List.mem_singleton] at h
      rw [toNat_ofNat (by omega), h]
      omega
  | two ha hb =>
      rw [trailing_eq_some_iff] at ha
      rw [secondAllowed_iff] at hb
      simp only [List.mem_cons, List.not_mem_nil, or_false] at h
      rcases h with rfl | rfl <;> omega
  | three ha hb hc =>
      rw [trailing_eq_some_iff] at ha
      rw [secondAllowed_iff] at hb
      rw [continues_iff] at hc
      simp only [List.mem_cons, List.not_mem_nil, or_false] at h
      rcases h with rfl | rfl | rfl <;> omega
  | four ha hb hc hd =>
      rw [trailing_eq_some_iff] at ha
      rw [secondAllowed_iff] at hb
      rw [continues_iff] at hc hd
      simp only [List.mem_cons, List.not_mem_nil, or_false] at h
      rcases h with rfl | rfl | rfl | rfl <;> omega

/-- An ASCII character is stored as the byte of its number. -/
theorem utf8EncodeChar_of_lt {c : Char} (h : c.toNat < 0x80) :
    String.utf8EncodeChar c = [UInt8.ofNat c.toNat] := by
  have hone : c.val.toNat ≤ 0x7F := Nat.le_of_lt_succ h
  rw [String.utf8EncodeChar, if_pos hone]
  rfl

/-! ## Sequences of scalar values -/

theorem encode_nil : encode [] = [] := rfl

@[simp]
theorem encode_cons (c : Char) (cs : List Char) :
    encode (c :: cs) = String.utf8EncodeChar c ++ encode cs := List.flatMap_cons

theorem encode_append (cs ds : List Char) : encode (cs ++ ds) = encode cs ++ encode ds :=
  List.flatMap_append

theorem decodeFrom_encode (done : Nat) (acc cs : List Char) :
    decodeFrom done acc (encode cs) = .ok (acc.reverse ++ cs) := by
  induction cs generalizing done acc with
  | nil => rw [encode, List.flatMap_nil, decodeFrom, List.append_nil]
  | cons c cs ih =>
      rw [encode_cons, (scalar_iff.mpr rfl).decodeFrom_append, ih, List.reverse_cons,
        List.append_assoc, List.singleton_append]

/-- What is decoded from the rest goes on from a scalar value taken before it. -/
theorem Scalar.encode_append {taken rest : List UInt8} {c : Char} {acc cs : List Char}
    (hc : Scalar taken c) (h : ∃ ds, cs = (c :: acc).reverse ++ ds ∧ rest = encode ds) :
    ∃ ds, cs = acc.reverse ++ ds ∧ taken ++ rest = encode ds := by
  obtain ⟨ds, rfl, rfl⟩ := h
  refine ⟨c :: ds, ?_, ?_⟩
  · rw [List.reverse_cons, List.append_assoc, List.singleton_append]
  · rw [encode_cons, ← hc.eq_utf8EncodeChar]

/-- The bytes are the encoding of what was decoded after the accumulated scalar values. -/
theorem eq_encode_of_decodeFrom {done : Nat} {acc : List Char} {bytes : List UInt8}
    {cs : List Char} (h : decodeFrom done acc bytes = .ok cs) :
    ∃ ds, cs = acc.reverse ++ ds ∧ bytes = encode ds := by
  -- Each length of a scalar value goes on with the rest; every other case is a fault.
  fun_induction decodeFrom done acc bytes with
  | case1 done acc =>
      cases h
      exact ⟨[], by rw [List.append_nil], rfl⟩
  | case3 done acc a rest ha ih => exact (Scalar.one ha).encode_append (ih h)
  | case5 done acc a ha b rest hb ih => exact (Scalar.two ha hb).encode_append (ih h)
  | case9 done acc a ha b hb c rest hc ih => exact (Scalar.three ha hb hc).encode_append (ih h)
  | case15 done acc a n h0 h1 h2 ha b hb c hc d rest hd ih =>
      have hn : n = 3 := by
        rcases trailing_eq_some_iff.mp ha with h | h | h | h
        · exact (h0 h.1).elim
        · exact (h1 h.1).elim
        · exact (h2 h.1).elim
        · exact h.1
      subst hn
      exact (Scalar.four ha hb hc hd).encode_append (ih h)
  | _ => cases h

/-- Bytes are decoded exactly when they encode scalar values, which are those decoded. -/
theorem decode_eq_ok_iff {bytes : List UInt8} {cs : List Char} :
    decode bytes = .ok cs ↔ bytes = encode cs := by
  constructor
  · intro h
    obtain ⟨ds, rfl, rfl⟩ := eq_encode_of_decodeFrom h
    rfl
  · rintro rfl
    exact decodeFrom_encode 0 [] cs

theorem toString?_eq_ok_iff {bytes : List UInt8} {s : String} :
    toString? bytes = .ok s ↔ bytes = ofString s := by
  rw [toString?, ofString, ← decode_eq_ok_iff]
  constructor
  · intro h
    cases hd : decode bytes with
    | error fault =>
        rw [hd] at h
        cases h
    | ok cs =>
        rw [hd] at h
        cases h
        rw [String.toList_ofList]
  · intro h
    rw [h]
    exact congrArg Except.ok String.ofList_toList

/-! ## Bytes that are not UTF-8 -/

/-- The longest well-formed beginning of bytes that are not UTF-8 is not all of them. -/
theorem validUpTo_of_decodeFrom {done : Nat} {acc : List Char} {bytes : List UInt8} {fault : Fault}
    (h : decodeFrom done acc bytes = .error fault) :
    done ≤ fault.validUpTo ∧ fault.validUpTo < done + bytes.length := by
  -- A scalar value of any length leaves fewer bytes; every other case is a fault.
  fun_induction decodeFrom done acc bytes with
  | case1 => cases h
  | case3 done acc a rest ha ih
  | case5 done acc a ha b rest hb ih
  | case9 done acc a ha b hb c rest hc ih
  | case15 done acc a n h0 h1 h2 ha b hb c hc d rest hd ih =>
      have := ih h
      simp only [List.length_cons]
      omega
  | _ =>
      cases h
      simp only [List.length_cons]
      omega

theorem validUpTo_lt_length {bytes : List UInt8} {fault : Fault}
    (h : toString? bytes = .error fault) : fault.validUpTo < bytes.length := by
  rw [toString?] at h
  cases hdecode : decode bytes with
  | error fault' =>
      rw [hdecode] at h
      cases h
      rw [← Nat.zero_add bytes.length]
      exact (validUpTo_of_decodeFrom hdecode).2
  | ok cs =>
      rw [hdecode] at h
      cases h

end EventLog.Utf8
