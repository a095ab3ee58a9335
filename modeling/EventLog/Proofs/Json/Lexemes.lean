import EventLog.Proofs.Json.Sequence
import EventLog.Proofs.Json.Tokens
import Mathlib.Data.List.Forall2

set_option autoImplicit false

/-! # Strings and numbers however they are written

A character of a string may be written as it is, with a letter behind a backslash, or by one or two
units of UTF-16 in hexadecimal digits of either case (`Json.CharText`). Each of these is read as
pieces that stand for the character (`Json.CharText.exists_pieces`), so that a string is read as one
token with its value, whatever follows its closing quote (`Json.StringText.exists_token`). A number
of any form is read as one token, if what follows does not continue it (`Json.NumberText.exists_token`).
-/

namespace EventLog.Json

/-! ## Strings -/

def HexDigit (c : Char) (d : Nat) : Prop := d < 16 ∧ (c = d.digitChar ∨ c = d.digitChar.toUpper)

instance (c : Char) (d : Nat) : Decidable (HexDigit c d) :=
  inferInstanceAs (Decidable (d < 16 ∧ (c = d.digitChar ∨ c = d.digitChar.toUpper)))

def UnitText (n : Nat) (text : List Char) : Prop :=
  List.Forall₂ HexDigit text [n / 0x1000, n / 0x100 % 16, n / 0x10 % 16, n % 16]

/-- The characters that have an escape of two characters, each with the second one of them. -/
def escapeLetters : List (Char × Char) :=
  [('"', '"'), ('\\', '\\'), ('/', '/'), ('\x08', 'b'), ('\x0c', 'f'), ('\n', 'n'), ('\r', 'r'),
    ('\t', 't')]

/-- The ways in which a character may be written inside a string. -/
inductive CharText (c : Char) : List Char → Prop
  | plain (hself : ¬(c = '"' ∨ c = '\\')) (hcontrol : ¬c.toNat < 0x20) : CharText c [c]
  | letter {e : Char} (h : (c, e) ∈ escapeLetters) : CharText c ['\\', e]
  | unit {text : List Char} (h : UnitText c.toNat text) : CharText c ('\\' :: 'u' :: text)
  /-- A character beyond 16 bits, by a leading and a trailing surrogate. -/
  | pair {leading trailing : List Char} (hc : 0x10000 ≤ c.toNat)
      (hleading : UnitText (0xD800 + (c.toNat - 0x10000) / 0x400) leading)
      (htrailing : UnitText (0xDC00 + (c.toNat - 0x10000) % 0x400) trailing) :
      CharText c ('\\' :: 'u' :: (leading ++ '\\' :: 'u' :: trailing))

def StringText (s : String) (text : List Char) : Prop :=
  ∃ parts, List.Forall₂ CharText s.toList parts ∧ text = '"' :: (parts.flatten ++ ['"'])

/-- A string may be written as it is if none of its characters needs an escape. -/
theorem stringText_of_plain {s : String}
    (h : s.toList.all fun c => !(c == '"' || c == '\\' || c.toNat < 0x20)) :
    StringText s ('"' :: (s.toList ++ ['"'])) := by
  refine ⟨s.toList.map fun c => [c], ?_, ?_⟩
  · rw [List.forall₂_map_right_iff, List.forall₂_same]
    intro c hc
    have hplain := List.all_eq_true.mp h c hc
    simp only [Bool.not_eq_true', Bool.or_eq_false_iff, beq_eq_false_iff_ne,
      decide_eq_false_iff_not] at hplain
    exact .plain (not_or.mpr hplain.1) hplain.2
  · rw [← List.flatMap_def, List.flatMap_singleton']

theorem exists_unitText {n : Nat} (h : n < 0x10000) : ∃ text, UnitText n text := by
  refine ⟨[(n / 0x1000).digitChar, (n / 0x100 % 16).digitChar, (n / 0x10 % 16).digitChar,
    (n % 16).digitChar], ?_⟩
  exact .cons ⟨by omega, .inl rfl⟩ (.cons ⟨by omega, .inl rfl⟩
    (.cons ⟨by omega, .inl rfl⟩ (.cons ⟨by omega, .inl rfl⟩ .nil)))

/-- Every string can be written. -/
theorem exists_stringText (s : String) : ∃ text, StringText s text := by
  have hchar (c : Char) : ∃ text, CharText c text := by
    have hscalar := Utf8.toNat_scalar c
    by_cases hc : c.toNat < 0x10000
    · obtain ⟨text, htext⟩ := exists_unitText hc
      exact ⟨_, .unit htext⟩
    · obtain ⟨leading, hleading⟩ :=
        exists_unitText (n := 0xD800 + (c.toNat - 0x10000) / 0x400) (by omega)
      obtain ⟨trailing, htrailing⟩ :=
        exists_unitText (n := 0xDC00 + (c.toNat - 0x10000) % 0x400) (by omega)
      exact ⟨_, .pair (by omega) hleading htrailing⟩
  obtain ⟨parts, hparts⟩ := exists_forall₂ fun c (_ : c ∈ s.toList) => hchar c
  exact ⟨_, parts, hparts, rfl⟩

theorem HexDigit.encode {c : Char} {d : Nat} (h : HexDigit c d) :
    ∃ b, String.utf8EncodeChar c = [b] ∧ hexValue? b = some d := by
  have hlower : ∀ d < 16, d.digitChar.toNat < 0x80 ∧
      hexValue? (UInt8.ofNat d.digitChar.toNat) = some d := by
    decide
  have hupper : ∀ d < 16, d.digitChar.toUpper.toNat < 0x80 ∧
      hexValue? (UInt8.ofNat d.digitChar.toUpper.toNat) = some d := by
    decide
  obtain ⟨hd, rfl | rfl⟩ := h
  · exact ⟨_, Utf8.utf8EncodeChar_of_lt (hlower d hd).1, (hlower d hd).2⟩
  · exact ⟨_, Utf8.utf8EncodeChar_of_lt (hupper d hd).1, (hupper d hd).2⟩

/-- Four hexadecimal digits are read as the unit of their number. -/
theorem UnitText.stringRest {n : Nat} {text : List Char} (h : UnitText n text) (acc : List Piece)
    (rest : List UInt8) :
    stringRest acc (Utf8.encode ('\\' :: 'u' :: text) ++ rest) = stringRest (.unit n :: acc) rest := by
  simp only [UnitText, List.forall₂_cons_right_iff, List.forall₂_nil_right_iff] at h
  obtain ⟨c1, _, h1, ⟨c2, _, h2, ⟨c3, _, h3, ⟨c4, _, h4, rfl, rfl⟩, rfl⟩, rfl⟩, rfl⟩ := h
  obtain ⟨b1, hb1, hvalue1⟩ := h1.encode
  obtain ⟨b2, hb2, hvalue2⟩ := h2.encode
  obtain ⟨b3, hb3, hvalue3⟩ := h3.encode
  obtain ⟨b4, hb4, hvalue4⟩ := h4.encode
  have htext : Utf8.encode ['\\', 'u', c1, c2, c3, c4] = [0x5C, 0x75, b1, b2, b3, b4] := by
    simp only [Utf8.encode_cons, hb1, hb2, hb3, hb4]
    rfl
  -- The four digits are those of `n` to base 16, so adding them up again gives `n`.
  have hunit : hexUnit? b1 b2 b3 b4 = some n := by
    have hn : ((n / 0x1000 * 16 + n / 0x100 % 16) * 16 + n / 0x10 % 16) * 16 + n % 16 = n := by
      omega
    simp only [hexUnit?, hvalue1, hvalue2, hvalue3, hvalue4, bind, Option.bind, pure, hn]
  rw [htext]
  exact stringRest_unit hunit acc rest

/-- Two surrogates stand for the character that they make up. -/
theorem contentBytes_pair (atEnd : Problem) (acc : List UInt8) {c : Char} (hc : 0x10000 ≤ c.toNat)
    (more : List Piece) :
    contentBytes atEnd acc (.unit (0xD800 + (c.toNat - 0x10000) / 0x400) ::
        .unit (0xDC00 + (c.toNat - 0x10000) % 0x400) :: more) =
      contentBytes atEnd ((String.utf8EncodeChar c).reverse ++ acc) more := by
  have hscalar := Utf8.toNat_scalar c
  -- Joining the two halves undoes the split, and neither half can be taken for the other.
  have hnumber : (0xD800 + (c.toNat - 0x10000) / 0x400 - 0xD800) * 0x400 +
      (0xDC00 + (c.toNat - 0x10000) % 0x400 - 0xDC00) + 0x10000 = c.toNat := by
    omega
  have hnotTrailing : isTrailing (0xD800 + (c.toNat - 0x10000) / 0x400) = false := by
    simp only [isTrailing, Bool.and_eq_false_iff, decide_eq_false_iff_not]
    omega
  have hleading : isLeading (0xD800 + (c.toNat - 0x10000) / 0x400) = true := by
    simp only [isLeading, Bool.and_eq_true, decide_eq_true_eq]
    omega
  have htrailing : isTrailing (0xDC00 + (c.toNat - 0x10000) % 0x400) = true := by
    simp only [isTrailing, Bool.and_eq_true, decide_eq_true_eq]
    omega
  rw [contentBytes.eq_def]
  simp only [hnotTrailing, hleading, htrailing, hnumber, reversedBytes, Char.ofNat_toNat,
    Bool.false_eq_true, if_false, if_true]

/-- The text of a character inside a string is read as these pieces, which stand for it. -/
structure PiecesOf (c : Char) (text : List Char) (ps : List Piece) : Prop where
  read : ∀ acc rest, stringRest acc (Utf8.encode text ++ rest) = stringRest (ps.reverse ++ acc) rest
  value : ∀ atEnd acc more, contentBytes atEnd acc (ps ++ more) =
    contentBytes atEnd ((String.utf8EncodeChar c).reverse ++ acc) more

/-- **However a character is written, it is read as itself.** -/
theorem CharText.exists_pieces {c : Char} {text : List Char} (h : CharText c text) :
    ∃ ps, PiecesOf c text ps := by
  -- One case per way to write a character: itself, a letter, a unit, a pair of units.
  cases h with
  | plain hself hcontrol =>
      refine ⟨(String.utf8EncodeChar c).map .byte, fun acc rest => ?_, fun atEnd acc more => ?_⟩
      · rw [Utf8.encode_cons, Utf8.encode_nil, List.append_nil]
        exact stringRest_char hself hcontrol acc rest
      · exact contentBytes_bytes atEnd acc _ more
  | @letter e h =>
      have hletters : ∀ p ∈ escapeLetters, Plain p.1 ∧ Plain p.2 ∧ UInt8.ofNat p.2.toNat ≠ 0x75 ∧
          escapedByte? (UInt8.ofNat p.2.toNat) = some (UInt8.ofNat p.1.toNat) := by
        decide
      obtain ⟨hc, he, hne, hescaped⟩ := hletters (c, e) h
      refine ⟨[.byte (UInt8.ofNat c.toNat)], fun acc rest => ?_, fun atEnd acc more => ?_⟩
      · have htext : Utf8.encode ['\\', e] = [0x5C, UInt8.ofNat e.toNat] := by
          rw [Utf8.encode_cons, Utf8.encode_cons, Utf8.utf8EncodeChar_of_lt he.2]
          rfl
        rw [htext]
        exact stringRest_letter hne hescaped acc rest
      · rw [Utf8.utf8EncodeChar_of_lt hc.2]
        exact contentBytes_bytes atEnd acc [UInt8.ofNat c.toNat] more
  | unit h =>
      exact ⟨[.unit c.toNat], h.stringRest, fun atEnd acc more => contentBytes_unit atEnd acc c more⟩
  | @pair leading trailing hc hleading htrailing =>
      refine ⟨[.unit _, .unit _], fun acc rest => ?_,
        fun atEnd acc more => contentBytes_pair atEnd acc hc more⟩
      have htext : '\\' :: 'u' :: (leading ++ '\\' :: 'u' :: trailing) =
          ('\\' :: 'u' :: leading) ++ '\\' :: 'u' :: trailing := rfl
      rw [htext, Utf8.encode_append, List.append_assoc, hleading.stringRest, htrailing.stringRest]
      rfl

/-- The characters of a string, one after another. -/
theorem exists_pieces_flatten {cs : List Char} {parts : List (List Char)}
    (h : List.Forall₂ CharText cs parts) :
    ∃ ps, (∀ acc rest, stringRest acc (Utf8.encode parts.flatten ++ rest) =
        stringRest (ps.reverse ++ acc) rest) ∧
      ∀ atEnd acc, contentBytes atEnd acc ps = .ok (acc.reverse ++ Utf8.encode cs) := by
  induction h with
  | nil =>
      refine ⟨[], fun acc rest => rfl, fun atEnd acc => ?_⟩
      rw [contentBytes, Utf8.encode_nil, List.append_nil]
  | cons hc _ ih =>
      obtain ⟨ps, hps⟩ := hc.exists_pieces
      obtain ⟨more, hread, hvalue⟩ := ih
      refine ⟨ps ++ more, fun acc rest => ?_, fun atEnd acc => ?_⟩
      · rw [List.flatten_cons, Utf8.encode_append, List.append_assoc, hps.read, hread,
          List.reverse_append, List.append_assoc]
      · rw [hps.value, hvalue, Utf8.encode_cons, List.reverse_append, List.reverse_reverse,
          List.append_assoc]

/-- **However a string is written, it is read as one token with its value.** -/
theorem StringText.exists_token {s : String} {text : List Char} (h : StringText s text) :
    ∃ pieces, stringValue pieces none = .ok s ∧ Spells text [.string pieces none] := by
  obtain ⟨parts, hparts, rfl⟩ := h
  obtain ⟨ps, hread, hvalue⟩ := exists_pieces_flatten hparts
  refine ⟨ps, ?_, fun more _ => ?_⟩
  · have hstring : Utf8.toString? (Utf8.encode s.toList) = .ok s := Utf8.toString?_eq_ok_iff.mpr rfl
    refine bind_eq_ok.mpr ⟨_, hvalue _ [], ?_⟩
    simp only [List.reverse_nil, List.nil_append, hstring]
    rfl
  · have hbytes : Utf8.encode ('"' :: (parts.flatten ++ ['"']) ++ more) =
        0x22 :: (Utf8.encode parts.flatten ++ 0x22 :: Utf8.encode more) := by
      rw [List.cons_append, List.append_assoc, Utf8.encode_cons, Utf8.encode_append]
      rfl
    -- The quotation mark that ends the text is the first one that is not escaped.
    have hclose (acc : List Piece) (rest : List UInt8) :
        stringRest acc (0x22 :: rest) = (acc.reverse, none, rest) := by
      rw [stringRest.eq_def]
      rfl
    have htoken (rest : List UInt8) : token 0x22 rest = stringToken rest := rfl
    rw [lex, hbytes, tokens_cons rfl, htoken]
    simp only [stringToken, hread, hclose, List.reverse_append, List.reverse_reverse,
      List.reverse_nil, List.nil_append]
    rfl

/-! ## Numbers -/

def DigitsText (text : List Char) : Prop := text ≠ [] ∧ ∀ c ∈ text, c.isDigit = true

/-- The digits before a point: no zero stands before other digits. -/
def WholeText (text : List Char) : Prop :=
  DigitsText text ∧ (text.head? = some '0' → text = ['0'])

/-- A point with the digits behind it, which may be missing. -/
inductive FractionText : List Char → Prop
  | absent : FractionText []
  | digits {text : List Char} (h : DigitsText text) : FractionText ('.' :: text)

/-- An exponent, with a sign or without, which may be missing. -/
inductive ExponentText : List Char → Prop
  | absent : ExponentText []
  | digits {e : Char} {sign text : List Char} (he : e = 'e' ∨ e = 'E')
      (hsign : sign = [] ∨ sign = ['+'] ∨ sign = ['-']) (h : DigitsText text) :
      ExponentText (e :: (sign ++ text))

/-- The texts of numbers. -/
inductive NumberText : List Char → Prop
  | intro {sign whole fraction exponent : List Char} (hsign : sign = [] ∨ sign = ['-'])
      (hwhole : WholeText whole) (hfraction : FractionText fraction)
      (hexponent : ExponentText exponent) :
      NumberText (sign ++ (whole ++ (fraction ++ exponent)))

theorem toNat_of_isDigit {c : Char} (h : c.isDigit = true) : 48 ≤ c.toNat ∧ c.toNat ≤ 57 := by
  simpa [Char.isDigit, UInt32.le_iff_toNat_le] using h

theorem DigitsText.plain {text : List Char} (h : DigitsText text) : ∀ c ∈ text, Plain c := by
  intro c hc
  have := toNat_of_isDigit (h.2 c hc)
  rw [Plain]
  omega

theorem DigitsText.encode_ne_nil {text : List Char} (h : DigitsText text) :
    Utf8.encode text ≠ [] := by
  rw [Utf8.encode_of_plain h.plain, Ne, List.map_eq_nil_iff]
  exact h.1

theorem DigitsText.isDigit {text : List Char} (h : DigitsText text) :
    ∀ b ∈ Utf8.encode text, isDigit b = true := by
  rw [Utf8.encode_of_plain h.plain]
  intro b hb
  obtain ⟨c, hc, rfl⟩ := List.mem_map.mp hb
  have hdigit := toNat_of_isDigit (h.2 c hc)
  rw [isDigit_iff, UInt8.toNat_ofNat_of_lt' (by simp only [UInt8.size]; omega)]
  exact hdigit

theorem DigitsText.someDigits {text : List Char} (h : DigitsText text) {rest : List UInt8}
    (hrest : EndsDigits rest) : someDigits (Utf8.encode text ++ rest) = .ok (Utf8.encode text, rest) :=
  someDigits_append h.encode_ne_nil h.isDigit hrest

theorem WholeText.wholePart {text : List Char} (h : WholeText text) {rest : List UInt8}
    (hrest : EndsDigits rest) : wholePart (Utf8.encode text ++ rest) = .ok (Utf8.encode text, rest) := by
  obtain ⟨hdigits, hzero⟩ := h
  -- A zero in front stands alone, which is what the reader checks.
  have hfirst : ¬((Utf8.encode text).head? = some 0x30 ∧ 1 < (Utf8.encode text).length) := by
    rw [Utf8.encode_of_plain hdigits.plain, List.head?_map, List.length_map]
    rintro ⟨hhead, hlength⟩
    obtain ⟨c, hc, hbyte⟩ := Option.map_eq_some_iff.mp hhead
    have hdigit := toNat_of_isDigit (hdigits.2 c (List.mem_of_head? hc))
    have hnumber := congrArg UInt8.toNat hbyte
    rw [UInt8.toNat_ofNat_of_lt' (by simp only [UInt8.size]; omega)] at hnumber
    have hcZero : c = '0' := Char.toNat_inj.mp hnumber
    rw [hzero (hcZero ▸ hc)] at hlength
    exact absurd hlength (by decide)
  rw [Json.wholePart, hdigits.someDigits hrest]
  exact if_neg hfirst

def EndsFraction (rest : List UInt8) : Prop := EndsDigits rest ∧ rest.head? ≠ some 0x2E

theorem FractionText.exists_fractionPart {text : List Char} (h : FractionText text) :
    ∃ fraction, ∀ rest, EndsFraction rest → EndsDigits (Utf8.encode text ++ rest) ∧
      fractionPart (Utf8.encode text ++ rest) = .ok (fraction, rest) := by
  cases h with
  | absent =>
      refine ⟨none, fun rest hrest => ⟨hrest.1, ?_⟩⟩
      rw [Utf8.encode_nil, List.nil_append]
      cases rest with
      | nil => rfl
      | cons b rest =>
          -- Without a point the reader takes nothing, as long as none follows.
          have hb : b ≠ 0x2E := fun heq => hrest.2 (congrArg some heq)
          rw [fractionPart, if_neg hb]
  | @digits text h =>
      refine ⟨some (Utf8.encode text), fun rest hrest => ?_⟩
      have hbytes : Utf8.encode ('.' :: text) ++ rest = 0x2E :: (Utf8.encode text ++ rest) := rfl
      rw [hbytes, fractionPart, if_pos rfl, h.someDigits hrest.1]
      exact ⟨endsDigits_cons rfl _, rfl⟩

theorem exponentSign_digits {bytes : List UInt8} (hne : bytes ≠ [])
    (hdigits : ∀ b ∈ bytes, isDigit b = true) (rest : List UInt8) :
    exponentSign (bytes ++ rest) = (false, bytes ++ rest) := by
  cases bytes with
  | nil => exact absurd rfl hne
  | cons b bytes =>
      have hb := hdigits b List.mem_cons_self
      have hplus : b ≠ 0x2B := by
        rintro rfl
        cases hb
      have hminus : b ≠ 0x2D := by
        rintro rfl
        cases hb
      rw [List.cons_append, exponentSign, if_neg hplus, if_neg hminus]

theorem ExponentText.exists_exponentPart {text : List Char} (h : ExponentText text) :
    ∃ exponent, ∀ rest, EndsNumber rest → EndsFraction (Utf8.encode text ++ rest) ∧
      exponentPart (Utf8.encode text ++ rest) = .ok (exponent, rest) := by
  cases h with
  | absent =>
      refine ⟨none, fun rest hrest => ⟨⟨hrest.endsDigits, ?_⟩, exponentPart_eq hrest⟩⟩
      intro hpoint
      exact (hrest _ hpoint).2.1 rfl
  | @digits e sign text he hsign h =>
      obtain ⟨b, hb, hbytes⟩ : ∃ b, (b = 0x65 ∨ b = 0x45) ∧ String.utf8EncodeChar e = [b] := by
        rcases he with rfl | rfl
        · exact ⟨0x65, .inl rfl, rfl⟩
        · exact ⟨0x45, .inr rfl, rfl⟩
      -- The sign is a plus, a minus or absent; digits follow in each case.
      obtain ⟨negative, hread⟩ : ∃ negative, ∀ rest,
          exponentSign (Utf8.encode (sign ++ text) ++ rest) =
            (negative, Utf8.encode text ++ rest) := by
        rcases hsign with rfl | rfl | rfl
        · exact ⟨false, exponentSign_digits h.encode_ne_nil h.isDigit⟩
        · exact ⟨false, fun rest => rfl⟩
        · exact ⟨true, fun rest => rfl⟩
      refine ⟨some (if negative then -(accumulate 0 (Utf8.encode text)).1
        else (accumulate 0 (Utf8.encode text)).1), fun rest hrest => ?_⟩
      rw [Utf8.encode_cons, hbytes, List.singleton_append, List.cons_append]
      refine ⟨⟨endsDigits_cons ?_ _, ?_⟩, ?_⟩
      · rcases hb with rfl | rfl <;> rfl
      · rcases hb with rfl | rfl <;> simp
      · rw [exponentPart, if_pos hb, hread, h.someDigits hrest.endsDigits]
        rfl

/-- The parts of a number without its sign. -/
theorem exists_unsignedNumber {whole fraction exponent : List Char} (hwhole : WholeText whole)
    (hfraction : FractionText fraction) (hexponent : ExponentText exponent) (negative : Bool) :
    ∃ n, ∀ rest, EndsNumber rest →
      unsignedNumber negative (Utf8.encode (whole ++ (fraction ++ exponent)) ++ rest) =
        .ok (n, rest) := by
  obtain ⟨e, he⟩ := hexponent.exists_exponentPart
  obtain ⟨f, hf⟩ := hfraction.exists_fractionPart
  refine ⟨numeral negative (Utf8.encode whole) f e, fun rest hrest => ?_⟩
  obtain ⟨hendFraction, hreadExponent⟩ := he rest hrest
  obtain ⟨hendDigits, hreadFraction⟩ := hf _ hendFraction
  rw [Utf8.encode_append, Utf8.encode_append, List.append_assoc, List.append_assoc]
  refine bind_eq_ok.mpr ⟨_, hwhole.wholePart hendDigits, ?_⟩
  refine bind_eq_ok.mpr ⟨_, hreadFraction, ?_⟩
  exact bind_eq_ok.mpr ⟨_, hreadExponent, rfl⟩

/-- A number without its sign begins with a digit. -/
theorem WholeText.exists_first {whole : List Char} (h : WholeText whole) (more : List Char) :
    ∃ b bytes, isDigit b = true ∧ Utf8.encode (whole ++ more) = b :: bytes := by
  rw [Utf8.encode_append]
  cases hbytes : Utf8.encode whole with
  | nil => exact absurd hbytes h.1.encode_ne_nil
  | cons b bytes =>
      have hb : b ∈ Utf8.encode whole := by simp [hbytes]
      exact ⟨b, _, h.1.isDigit b hb, rfl⟩

/-- **A number of any form is read as one token.** -/
theorem NumberText.exists_token {text : List Char} (h : NumberText text) :
    ∃ n, Spells text [.number (.ok n)] := by
  cases h with
  | @intro sign whole fraction exponent hsign hwhole hfraction hexponent =>
      -- A minus has a token rule of its own, so the two signs start differently.
      rcases hsign with rfl | rfl
      · obtain ⟨n, hn⟩ := exists_unsignedNumber hwhole hfraction hexponent false
        refine ⟨n, fun more hmore => ?_⟩
        obtain ⟨b, bytes, hb, hbytes⟩ := hwhole.exists_first (fraction ++ exponent)
        have hread := hn _ hmore
        rw [hbytes, List.cons_append] at hread
        have htoken : token b (bytes ++ Utf8.encode more) = (.number (.ok n), Utf8.encode more) := by
          rw [token_digit hb, numberToken, hread]
        rw [List.nil_append, lex, Utf8.encode_append, hbytes, List.cons_append,
          tokens_cons (isBlank_of_isDigit hb), htoken]
        rfl
      · obtain ⟨n, hn⟩ := exists_unsignedNumber hwhole hfraction hexponent true
        refine ⟨n, fun more hmore => ?_⟩
        have htoken : token 0x2D (Utf8.encode (whole ++ (fraction ++ exponent)) ++ Utf8.encode more) =
            (.number (.ok n), Utf8.encode more) := by
          show numberToken true _ = _
          rw [numberToken, hn _ hmore]
        have hbytes : Utf8.encode (['-'] ++ (whole ++ (fraction ++ exponent))) =
            0x2D :: Utf8.encode (whole ++ (fraction ++ exponent)) := rfl
        rw [lex, Utf8.encode_append, hbytes, List.cons_append, tokens_cons rfl, htoken]
        rfl

end EventLog.Json
