import EventLog.Json.Printer
import EventLog.Json.Token
import EventLog.Proofs.Json.Number

set_option autoImplicit false

/-! # Reading printed strings

A string is printed in quotes with some of its characters escaped. Whatever characters it has, and
whatever follows the closing quote, it is read as one token (`tokens_quoted`), whose value is the
string (`stringValue_pieces`).
-/

namespace EventLog.Json

/-! ## Pieces of a character -/

/-- The pieces of a string token that the printed form of a character is read as. -/
def pieces (c : Char) : List Piece :=
  if c = '"' ∨ c = '\\' then [.byte (UInt8.ofNat c.toNat)]
  else if c.toNat < 0x20 then
    match controlLetter? c with
    | some _ => [.byte (UInt8.ofNat c.toNat)]
    | none => [.unit c.toNat]
  else (String.utf8EncodeChar c).map .byte

/-- Bytes that stand for themselves inside a string are read one by one. -/
theorem stringRest_plain {bytes : List UInt8}
    (h : ∀ b ∈ bytes, b ≠ 0x22 ∧ b ≠ 0x5C ∧ ¬b < 0x20) (acc : List Piece) (rest : List UInt8) :
    stringRest acc (bytes ++ rest) = stringRest ((bytes.map .byte).reverse ++ acc) rest := by
  induction bytes generalizing acc with
  | nil => rfl
  | cons b bytes ih =>
      obtain ⟨⟨hquote, hbackslash, hcontrol⟩, hbytes⟩ := List.forall_mem_cons.mp h
      rw [List.cons_append, stringRest.eq_def]
      simp only [if_neg hquote, if_neg hbackslash, if_neg hcontrol]
      rw [ih hbytes, List.map_cons, List.reverse_cons, List.append_assoc, List.singleton_append]

/-- A character that needs no escape is read as its bytes. -/
theorem stringRest_char {c : Char} (hself : ¬(c = '"' ∨ c = '\\')) (hcontrol : ¬c.toNat < 0x20)
    (acc : List Piece) (rest : List UInt8) :
    stringRest acc (String.utf8EncodeChar c ++ rest) =
      stringRest (((String.utf8EncodeChar c).map .byte).reverse ++ acc) rest := by
  refine stringRest_plain (fun b hb => ?_) acc rest
  simp only [ne_eq, ← UInt8.toNat_inj, UInt8.lt_iff_toNat_lt, UInt8.reduceToNat]
  rw [not_or] at hself
  have hquote : c.toNat ≠ 34 := fun h => hself.1 (Char.toNat_inj.mp h)
  have hbackslash : c.toNat ≠ 92 := fun h => hself.2 (Char.toNat_inj.mp h)
  have := Utf8.mem_utf8EncodeChar hb
  omega

/-- An escape of two characters is read as the byte that it stands for. -/
theorem stringRest_letter {e b : UInt8} (hletter : e ≠ 0x75) (h : escapedByte? e = some b)
    (acc : List Piece) (rest : List UInt8) :
    stringRest acc (0x5C :: e :: rest) = stringRest (.byte b :: acc) rest := by
  rw [stringRest.eq_def]
  simp [hletter, h]

/-- An escape of four hexadecimal digits is read as the unit of these digits. -/
theorem stringRest_unit {h1 h2 h3 h4 : UInt8} {u : Nat} (h : hexUnit? h1 h2 h3 h4 = some u)
    (acc : List Piece) (rest : List UInt8) :
    stringRest acc (0x5C :: 0x75 :: h1 :: h2 :: h3 :: h4 :: rest) =
      stringRest (.unit u :: acc) rest := by
  rw [stringRest.eq_def]
  simp [h]

/-- The four hexadecimal digits of a control character. -/
theorem exists_hexUnit {n : Nat} (h : n < 0x20) :
    ∃ h1 h2 h3 h4 : UInt8,
      Utf8.encode (paddedDigits 16 4 n) = [h1, h2, h3, h4] ∧ hexUnit? h1 h2 h3 h4 = some n := by
  have hdigits : ∀ n < 0x20, Utf8.encode (paddedDigits 16 4 n) =
      [0x30, 0x30, if n < 16 then 0x30 else 0x31, UInt8.ofNat (n % 16).digitChar.toNat] ∧
      hexUnit? 0x30 0x30 (if n < 16 then 0x30 else 0x31) (UInt8.ofNat (n % 16).digitChar.toNat) =
        some n := by
    decide +kernel
  exact ⟨_, _, _, _, hdigits n h⟩

/-- The printed form of a character is read as its pieces. -/
theorem stringRest_escape (c : Char) (acc : List Piece) (rest : List UInt8) :
    stringRest acc (Utf8.encode (escape c) ++ rest) =
      stringRest ((pieces c).reverse ++ acc) rest := by
  -- The three ways to write a character: a letter, a unit of four digits, the character itself.
  by_cases hself : c = '"' ∨ c = '\\'
  · rw [escape, if_pos hself, pieces, if_pos hself]
    rcases hself with rfl | rfl
    · exact stringRest_letter (by decide) rfl acc rest
    · exact stringRest_letter (by decide) rfl acc rest
  by_cases hcontrol : c.toNat < 0x20
  · rw [escape, if_neg hself, if_pos hcontrol, pieces, if_neg hself, if_pos hcontrol]
    by_cases hletter : controlLetter? c = none
    · obtain ⟨h1, h2, h3, h4, hdigits, hunit⟩ := exists_hexUnit hcontrol
      rw [hletter]
      show stringRest acc (0x5C :: 0x75 :: (Utf8.encode (paddedDigits 16 4 c.toNat) ++ rest)) = _
      rw [hdigits]
      exact stringRest_unit hunit acc rest
    · have hcases : c = '\x08' ∨ c = '\t' ∨ c = '\n' ∨ c = '\x0c' ∨ c = '\r' := by
        by_contra hnone
        simp only [not_or] at hnone
        exact hletter (by simp only [controlLetter?, hnone, if_false])
      rcases hcases with rfl | rfl | rfl | rfl | rfl
      · exact stringRest_letter (e := 0x62) (by decide) rfl acc rest
      · exact stringRest_letter (e := 0x74) (by decide) rfl acc rest
      · exact stringRest_letter (e := 0x6E) (by decide) rfl acc rest
      · exact stringRest_letter (e := 0x66) (by decide) rfl acc rest
      · exact stringRest_letter (e := 0x72) (by decide) rfl acc rest
  · rw [escape, if_neg hself, if_neg hcontrol, pieces, if_neg hself, if_neg hcontrol,
      Utf8.encode_cons, Utf8.encode_nil, List.append_nil]
    exact stringRest_char hself hcontrol acc rest

/-! ## The value of the pieces -/

theorem contentBytes_bytes (atEnd : Problem) (acc bytes : List UInt8) (more : List Piece) :
    contentBytes atEnd acc (bytes.map .byte ++ more) =
      contentBytes atEnd (bytes.reverse ++ acc) more := by
  induction bytes generalizing acc with
  | nil => rfl
  | cons b bytes ih =>
      rw [List.map_cons, List.cons_append, contentBytes, ih, List.reverse_cons, List.append_assoc,
        List.singleton_append]

/-- No character is a surrogate, so the unit of its number stands for it alone. -/
theorem contentBytes_unit (atEnd : Problem) (acc : List UInt8) (c : Char) (more : List Piece) :
    contentBytes atEnd acc (.unit c.toNat :: more) =
      contentBytes atEnd ((String.utf8EncodeChar c).reverse ++ acc) more := by
  have hscalar := Utf8.toNat_scalar c
  have htrailing : isTrailing c.toNat = false := by
    simp only [isTrailing, Bool.and_eq_false_iff, decide_eq_false_iff_not]
    omega
  have hleading : isLeading c.toNat = false := by
    simp only [isLeading, Bool.and_eq_false_iff, decide_eq_false_iff_not]
    omega
  rw [contentBytes.eq_def]
  simp only [htrailing, hleading, reversedBytes, Char.ofNat_toNat, Bool.false_eq_true, if_false]

/-- The pieces of a character stand for its bytes. -/
theorem contentBytes_pieces (atEnd : Problem) (acc : List UInt8) (c : Char) (more : List Piece) :
    contentBytes atEnd acc (pieces c ++ more) =
      contentBytes atEnd ((String.utf8EncodeChar c).reverse ++ acc) more := by
  -- Below 0x80 the character's encoding is the one byte that stands for it.
  have hbyte (h : c.toNat < 0x80) :
      contentBytes atEnd acc ([.byte (UInt8.ofNat c.toNat)] ++ more) =
        contentBytes atEnd ((String.utf8EncodeChar c).reverse ++ acc) more := by
    rw [Utf8.utf8EncodeChar_of_lt h]
    exact contentBytes_bytes atEnd acc [UInt8.ofNat c.toNat] more
  rw [pieces]
  split
  · next hself =>
      refine hbyte ?_
      rcases hself with rfl | rfl <;> decide
  · split
    · next hcontrol =>
        split
        · exact hbyte (Nat.lt_trans hcontrol (by decide))
        · exact contentBytes_unit atEnd acc c more
    · exact contentBytes_bytes atEnd acc _ more

theorem contentBytes_flatMap (atEnd : Problem) (acc : List UInt8) (cs : List Char) :
    contentBytes atEnd acc (cs.flatMap pieces) = .ok (acc.reverse ++ Utf8.encode cs) := by
  induction cs generalizing acc with
  | nil => rw [List.flatMap_nil, contentBytes, Utf8.encode_nil, List.append_nil]
  | cons c cs ih =>
      rw [List.flatMap_cons, contentBytes_pieces, ih, Utf8.encode_cons, List.reverse_append,
        List.reverse_reverse, List.append_assoc]

/-- The value of the token that a printed string is read as is the string. -/
theorem stringValue_pieces (s : String) : stringValue (s.toList.flatMap pieces) none = .ok s := by
  have hvalue : Utf8.toString? (Utf8.encode s.toList) = .ok s := Utf8.toString?_eq_ok_iff.mpr rfl
  refine bind_eq_ok.mpr ⟨_, contentBytes_flatMap _ [] s.toList, ?_⟩
  simp only [List.reverse_nil, List.nil_append, hvalue]
  rfl

/-! ## The token of a string -/

theorem stringRest_flatMap (cs : List Char) (acc : List Piece) (rest : List UInt8) :
    stringRest acc (Utf8.encode (cs.flatMap escape) ++ 0x22 :: rest) =
      (acc.reverse ++ cs.flatMap pieces, none, rest) := by
  induction cs generalizing acc with
  | nil =>
      rw [List.flatMap_nil, List.flatMap_nil, Utf8.encode_nil, List.nil_append, List.append_nil,
        stringRest.eq_def]
      rfl
  | cons c cs ih =>
      rw [List.flatMap_cons, List.flatMap_cons, Utf8.encode_append, List.append_assoc,
        stringRest_escape, ih, List.reverse_append, List.reverse_reverse, List.append_assoc]

/-- **A printed string is one token**, whatever follows it. -/
theorem tokens_quoted (s : String) (cs : List Char) :
    tokens (Utf8.encode (quoted s ++ cs)) =
      .string (s.toList.flatMap pieces) none :: tokens (Utf8.encode cs) := by
  have hbytes : Utf8.encode (quoted s ++ cs) =
      0x22 :: (Utf8.encode (s.toList.flatMap escape) ++ 0x22 :: Utf8.encode cs) := by
    rw [quoted, List.cons_append, List.append_assoc, Utf8.encode_cons, Utf8.encode_append]
    rfl
  have htoken (rest : List UInt8) : token 0x22 rest = stringToken rest := rfl
  rw [hbytes, tokens_cons rfl, htoken]
  simp only [stringToken, stringRest_flatMap, List.reverse_nil, List.nil_append]

end EventLog.Json
