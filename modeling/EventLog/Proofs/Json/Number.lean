import EventLog.Json.Token
import EventLog.Proofs.Text.Digits
import Mathlib.Data.List.Basic

set_option autoImplicit false

/-! # Reading printed numbers

An integer of 64 bits, with or without sign, is printed by its decimal digits and read back as the
same integer, whatever follows it that cannot continue a number (`numberToken_digits`).
-/

namespace EventLog.Json

/-! ## Digits as bytes -/

def digits (n : Nat) : List UInt8 := (Nat.toDigits 10 n).map fun c => UInt8.ofNat c.toNat

theorem toNat_of_mem_digits {n : Nat} {b : UInt8} (h : b ∈ digits n) :
    0x30 ≤ b.toNat ∧ b.toNat ≤ 0x39 := by
  obtain ⟨c, hc, rfl⟩ := List.mem_map.mp h
  obtain ⟨d, hd, rfl⟩ := exists_digit_of_mem_toDigits (by decide) hc
  rw [toNat_digitChar hd, UInt8.toNat_ofNat_of_lt' (by simp only [UInt8.size]; omega)]
  omega

theorem isDigit_iff {b : UInt8} : isDigit b = true ↔ 0x30 ≤ b.toNat ∧ b.toNat ≤ 0x39 := by
  simp [isDigit, UInt8.le_iff_toNat_le]

theorem isDigit_of_mem_digits {n : Nat} : ∀ b ∈ digits n, isDigit b = true :=
  fun _ hb => isDigit_iff.mpr (toNat_of_mem_digits hb)

theorem digits_ne_nil (n : Nat) : digits n ≠ [] := by
  rw [digits, Ne, List.map_eq_nil_iff]
  exact Nat.toDigits_ne_nil

/-- No zero stands before the digits of a number. -/
theorem head?_digits {n : Nat} (h : 10 ≤ n) : (digits n).head? ≠ some 0x30 := by
  -- On the number without its last digit, until a single digit, which is not zero, is left.
  induction n using Nat.strongRecOn with
  | ind n ih =>
      have hlast : digits n =
          digits (n / 10) ++ [UInt8.ofNat (n % 10).digitChar.toNat] := by
        rw [digits, Nat.toDigits_of_base_le (by decide) h, List.map_append]
        rfl
      rw [hlast, List.head?_append_of_ne_nil _ (digits_ne_nil _)]
      by_cases hmore : 10 ≤ n / 10
      · exact ih (n / 10) (by omega) hmore
      · have hone : digits (n / 10) = [UInt8.ofNat (n / 10).digitChar.toNat] := by
          rw [digits, Nat.toDigits_of_lt_base (by omega), List.map_singleton]
        intro hzero
        have hbyte := congrArg UInt8.toNat (Option.some.inj (hone ▸ hzero))
        rw [toNat_digitChar (by omega), UInt8.toNat_ofNat_of_lt' (by simp only [UInt8.size]; omega)]
          at hbyte
        have : (0x30 : UInt8).toNat = 48 := rfl
        omega

theorem length_digits_of_lt {n : Nat} (h : n < 10) : (digits n).length = 1 := by
  rw [digits, Nat.toDigits_of_lt_base h, List.map_singleton, List.length_singleton]

/-- The digits of a number give it back. -/
theorem foldl_digits (n : Nat) :
    (digits n).foldl (fun number b => 10 * number + digitValue b) 0 = n := by
  calc (digits n).foldl (fun number b => 10 * number + digitValue b) 0
      = (Nat.toDigits 10 n).foldl
          (fun number c => 10 * number + digitValue (UInt8.ofNat c.toNat)) 0 := List.foldl_map
    _ = Nat.ofDigitChars 10 (Nat.toDigits 10 n) 0 := by
        rw [Nat.ofDigitChars_eq_foldl]
        refine List.foldl_ext _ _ _ fun number c hc => ?_
        obtain ⟨d, hd, rfl⟩ := exists_digit_of_mem_toDigits (by decide) hc
        rw [digitValue, toNat_digitChar hd,
          UInt8.toNat_ofNat_of_lt' (by simp only [UInt8.size]; omega)]
        rfl
    _ = n := Nat.ofDigitChars_ten_toDigits

theorem le_foldl_digits (bytes : List UInt8) (number : Nat) :
    number ≤ bytes.foldl (fun number b => 10 * number + digitValue b) number := by
  induction bytes generalizing number with
  | nil => exact Nat.le_refl number
  | cons b bytes ih =>
      have hrest := ih (10 * number + digitValue b)
      rw [List.foldl_cons]
      omega

/-- Digits are accumulated to the end when their number fits in 64 bits. -/
theorem accumulate_eq {number : Nat} {bytes : List UInt8}
    (h : bytes.foldl (fun number b => 10 * number + digitValue b) number < UInt64.size) :
    accumulate number bytes =
      (bytes.foldl (fun number b => 10 * number + digitValue b) number, []) := by
  induction bytes generalizing number with
  | nil => rfl
  | cons b bytes ih =>
      rw [List.foldl_cons] at h
      -- The value only grows, so if the whole number fits then so does every beginning of it.
      have hroom := Nat.lt_of_le_of_lt (le_foldl_digits bytes (10 * number + digitValue b)) h
      rw [accumulate, if_pos hroom, ih h, List.foldl_cons]

/-! ## Numbers before a rest -/

/-- Bytes that do not continue a number before them. -/
def EndsNumber (rest : List UInt8) : Prop :=
  ∀ b, rest.head? = some b → isDigit b = false ∧ b ≠ 0x2E ∧ b ≠ 0x65 ∧ b ≠ 0x45

def EndsDigits (rest : List UInt8) : Prop := ∀ b, rest.head? = some b → isDigit b = false

theorem EndsNumber.endsDigits {rest : List UInt8} (h : EndsNumber rest) : EndsDigits rest :=
  fun b hb => (h b hb).1

theorem endsDigits_cons {b : UInt8} (h : isDigit b = false) (rest : List UInt8) :
    EndsDigits (b :: rest) := by
  intro first hfirst
  cases hfirst
  exact h

theorem someDigits_append {bytes rest : List UInt8} (hne : bytes ≠ [])
    (hdigits : ∀ b ∈ bytes, isDigit b = true) (hend : EndsDigits rest) :
    someDigits (bytes ++ rest) = .ok (bytes, rest) := by
  have hstop : rest.takeWhile isDigit = [] ∧ rest.dropWhile isDigit = rest := by
    cases rest with
    | nil => exact ⟨rfl, rfl⟩
    | cons b rest =>
        have hb : ¬isDigit b = true := by simp [hend b rfl]
        exact ⟨List.takeWhile_cons_of_neg hb, List.dropWhile_cons_of_neg hb⟩
  have hspan : spanDigits (bytes ++ rest) = (bytes, rest) := by
    rw [spanDigits, List.takeWhile_append_of_pos hdigits, List.dropWhile_append_of_pos hdigits,
      hstop.1, hstop.2, List.append_nil]
  rw [someDigits, hspan, if_neg hne]

theorem fractionPart_eq {rest : List UInt8} (h : EndsNumber rest) :
    fractionPart rest = .ok (none, rest) := by
  cases rest with
  | nil => rfl
  | cons b rest => rw [fractionPart, if_neg (h b rfl).2.1]

theorem exponentPart_eq {rest : List UInt8} (h : EndsNumber rest) :
    exponentPart rest = .ok (none, rest) := by
  cases rest with
  | nil => rfl
  | cons b rest =>
      have hb : ¬(b = 0x65 ∨ b = 0x45) := not_or.mpr (h b rfl).2.2
      rw [exponentPart, if_neg hb]

theorem wholePart_digits (n : Nat) {rest : List UInt8} (h : EndsDigits rest) :
    wholePart (digits n ++ rest) = .ok (digits n, rest) := by
  have hfirst : ¬((digits n).head? = some 0x30 ∧ 1 < (digits n).length) := by
    rintro ⟨hzero, hlength⟩
    by_cases hn : n < 10
    · rw [length_digits_of_lt hn] at hlength
      omega
    · exact head?_digits (Nat.le_of_not_lt hn) hzero
  rw [wholePart, someDigits_append (digits_ne_nil n) isDigit_of_mem_digits h]
  exact if_neg hfirst

/-- The digits of a number are read as a number without fraction and exponent. -/
theorem numberToken_eq (negative : Bool) (n : Nat) {rest : List UInt8} (h : EndsNumber rest) :
    numberToken negative (digits n ++ rest) =
      (.number (.ok (numeral negative (digits n) none none)), rest) := by
  have hread : unsignedNumber negative (digits n ++ rest) =
      .ok (numeral negative (digits n) none none, rest) := by
    refine bind_eq_ok.mpr ⟨_, wholePart_digits n h.endsDigits, ?_⟩
    refine bind_eq_ok.mpr ⟨_, fractionPart_eq h, ?_⟩
    exact bind_eq_ok.mpr ⟨_, exponentPart_eq h, rfl⟩
  rw [numberToken, hread]

theorem accumulate_digits {n : Nat} (h : n < UInt64.size) : accumulate 0 (digits n) = (n, []) := by
  have hfold := foldl_digits n
  rw [accumulate_eq (by rwa [hfold]), hfold]

theorem numeral_digits {n : Nat} (h : n < UInt64.size) :
    numeral false (digits n) none none = .integer n := by
  simp [numeral, accumulate_digits h]

theorem numeral_neg_digits {n : Nat} (hpos : 0 < n) (h : 2 * n ≤ UInt64.size) :
    numeral true (digits n) none none = .integer (-n) := by
  have hlt : n < UInt64.size := by
    have : 0 < UInt64.size := by decide
    omega
  simp [numeral, accumulate_digits hlt, hpos, h]

/-! ## Tokens -/

/-- A byte of a digit begins a number. -/
theorem token_digit {b : UInt8} (h : isDigit b = true) (rest : List UInt8) :
    token b rest = numberToken false (b :: rest) := by
  have hne (c : UInt8) (hc : isDigit c = false) : b ≠ c := by
    rintro rfl
    rw [hc] at h
    cases h
  have hpunctuation : punctuation? b = none := by
    simp only [punctuation?, hne 0x7B rfl, hne 0x7D rfl, hne 0x5B rfl, hne 0x5D rfl, hne 0x2C rfl,
      hne 0x3A rfl, if_false]
  have hliteral : literalStart? b = none := by
    simp only [literalStart?, hne 0x6E rfl, hne 0x74 rfl, hne 0x66 rfl, if_false]
  simp only [token, hpunctuation, hliteral, hne 0x22 rfl, hne 0x2D rfl, h, if_false, if_true]

theorem tokens_cons {b : UInt8} (h : isBlank b = false) (rest : List UInt8) :
    tokens (b :: rest) = (token b rest).1 :: tokens (token b rest).2 := by
  rw [tokens, h]
  rfl

theorem isBlank_of_isDigit {b : UInt8} (h : isDigit b = true) : isBlank b = false := by
  rw [isDigit_iff] at h
  simp only [isBlank, ← UInt8.toNat_inj, UInt8.reduceToNat, decide_eq_false_iff_not]
  omega

theorem tokens_digits {n : Nat} (hn : n < UInt64.size) {rest : List UInt8} (h : EndsNumber rest) :
    tokens (digits n ++ rest) = .number (.ok (.integer n)) :: tokens rest := by
  have hread := numberToken_eq false n h
  rw [numeral_digits hn] at hread
  have hdigit := isDigit_of_mem_digits (n := n)
  cases hd : digits n with
  | nil => exact absurd hd (digits_ne_nil n)
  | cons b more =>
      rw [hd] at hread hdigit
      have hb := hdigit b List.mem_cons_self
      rw [List.cons_append] at hread ⊢
      rw [tokens_cons (isBlank_of_isDigit hb), token_digit hb, hread]

theorem tokens_minus_digits {n : Nat} (hpos : 0 < n) (hn : 2 * n ≤ UInt64.size)
    {rest : List UInt8} (h : EndsNumber rest) :
    tokens (0x2D :: (digits n ++ rest)) = .number (.ok (.integer (-n))) :: tokens rest := by
  have hread : token 0x2D (digits n ++ rest) = numberToken true (digits n ++ rest) := rfl
  rw [tokens_cons rfl, hread, numberToken_eq true n h, numeral_neg_digits hpos hn]

end EventLog.Json
