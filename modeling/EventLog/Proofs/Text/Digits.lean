import EventLog.Proofs.Text.Utf8
import EventLog.Text.Digits

set_option autoImplicit false

/-! # Numbers written as digits

A number is read back from its digits, whatever zeros stand in front (`number?_paddedDigits`), and
there are as many of them as the width unless the number needs more. Digits are among the
characters that UTF-8 stores as one byte.
-/

namespace EventLog

/-! ## Padded digits -/

theorem exists_digit_of_mem_toDigits {base n : Nat} {c : Char} (hbase : 1 < base)
    (h : c ∈ Nat.toDigits base n) : ∃ d < base, c = d.digitChar := by
  induction n using Nat.strongRecOn with
  | ind n ih =>
      rw [Nat.toDigits_eq_if hbase] at h
      split at h
      · next hlt => exact ⟨n, hlt, List.mem_singleton.mp h⟩
      · next hle =>
          rcases List.mem_append.mp h with hhigh | hlow
          · exact ih (n / base) (Nat.div_lt_self (by omega) hbase) hhigh
          · exact ⟨n % base, Nat.mod_lt n (by omega), List.mem_singleton.mp hlow⟩

theorem exists_digit_of_mem_paddedDigits {base width n : Nat} {c : Char} (hbase : 1 < base)
    (h : c ∈ paddedDigits base width n) : ∃ d < base, c = d.digitChar := by
  rcases List.mem_append.mp h with hzero | hdigit
  · exact ⟨0, by omega, (List.mem_replicate.mp hzero).2⟩
  · exact exists_digit_of_mem_toDigits hbase hdigit

theorem length_paddedDigits_le {base width n k : Nat} (hbase : 1 < base) (hk : 0 < k)
    (hwidth : width ≤ k) (h : n < Nat.pow base k) : (paddedDigits base width n).length ≤ k := by
  have hdigits := (Nat.length_toDigits_le_iff hbase hk).mpr h
  simp only [paddedDigits, List.length_append, List.length_replicate]
  omega

theorem length_paddedDigits {base width n : Nat} (hbase : 1 < base) (hwidth : 0 < width)
    (h : n < Nat.pow base width) : (paddedDigits base width n).length = width :=
  Nat.le_antisymm (length_paddedDigits_le hbase hwidth (Nat.le_refl width) h)
    (le_length_paddedDigits base width n)

theorem paddedDigits_ne_nil (base width n : Nat) : paddedDigits base width n ≠ [] :=
  List.append_ne_nil_of_right_ne_nil _ Nat.toDigits_ne_nil

/-- The digits of a number give it back. -/
theorem ofDigitChars_paddedDigits {base n : Nat} (width : Nat) (hbase : 1 < base)
    (hle : base ≤ 10) : Nat.ofDigitChars base (paddedDigits base width n) 0 = n := by
  rw [paddedDigits, Nat.ofDigitChars_append, Nat.ofDigitChars_replicate_zero, Nat.mul_zero,
    Nat.ofDigitChars_toDigits hbase hle]

/-! ## Reading a numeral -/

/-- The value of a digit. Digits above nine are letters of either case. -/
def digit? (base : Nat) (c : Char) : Option Nat :=
  (List.range base).find? fun d => c = d.digitChar ∨ c = d.digitChar.toUpper

/-- The number that a numeral in the given base stands for. -/
def number? (base : Nat) (text : List Char) : Option Nat :=
  text.foldlM (fun n c => (digit? base c).map fun d => base * n + d) 0

theorem digit?_digitChar {base d : Nat} (hbase : base ≤ 16) (h : d < base) :
    digit? base d.digitChar = some d := by
  have hall : ∀ base ≤ 16, ∀ d < base, digit? base d.digitChar = some d := by decide
  exact hall base hbase d h

/-- One more digit makes a number longer by its lowest digit. -/
theorem number?_concat {base d n : Nat} {text : List Char} (hbase : base ≤ 16) (hd : d < base)
    (h : number? base text = some n) :
    number? base (text ++ [d.digitChar]) = some (base * n + d) := by
  unfold number? at h ⊢
  rw [List.foldlM_append, h]
  simp only [Option.bind_eq_bind, Option.bind_some, List.foldlM_cons, List.foldlM_nil,
    digit?_digitChar hbase hd, Option.map_some, Option.pure_def]

theorem number?_toDigits {base n : Nat} (hbase : 1 < base) (hle : base ≤ 16) :
    number? base (Nat.toDigits base n) = some n := by
  induction n using Nat.strongRecOn with
  | ind n ih =>
      by_cases hlt : n < base
      · have hdigit : number? base ([] ++ [n.digitChar]) = some (base * 0 + n) :=
          number?_concat hle hlt rfl
        rwa [List.nil_append, Nat.mul_zero, Nat.zero_add, ← Nat.toDigits_of_lt_base hlt] at hdigit
      · have hdiv : n / base < n := Nat.div_lt_self (by omega) hbase
        have hmod : n % base < base := Nat.mod_lt n (by omega)
        rw [Nat.toDigits_eq_if hbase, if_neg hlt, number?_concat hle hmod (ih _ hdiv),
          Nat.div_add_mod]

theorem number?_zeros {base : Nat} (hbase : 0 < base) (hle : base ≤ 16) (n : Nat) :
    number? base (List.replicate n '0') = some 0 := by
  induction n with
  | zero => rfl
  | succ n ih =>
      rw [List.replicate_succ']
      exact number?_concat (d := 0) hle hbase ih

/-- A numeral is read as its number, whatever zeros stand in front. -/
theorem number?_paddedDigits {base n : Nat} (width : Nat) (hbase : 1 < base) (hle : base ≤ 16) :
    number? base (paddedDigits base width n) = some n := by
  have hzeros := number?_zeros (Nat.zero_lt_of_lt hbase) hle (width - (Nat.toDigits base n).length)
  have hdigits := number?_toDigits (n := n) hbase hle
  unfold number? at hzeros hdigits ⊢
  rw [paddedDigits, List.foldlM_append, hzeros]
  exact hdigits

/-- No two numbers are written alike. -/
theorem paddedDigits_inj {base width m n : Nat} (hbase : 1 < base) (hle : base ≤ 16)
    (h : paddedDigits base width m = paddedDigits base width n) : m = n := by
  have hread := number?_paddedDigits (n := m) width hbase hle
  rw [h, number?_paddedDigits width hbase hle] at hread
  exact (Option.some.inj hread).symm

/-! ## Decimal numbers -/

theorem decimal_inj {width m n : Nat} (h : decimal width m = decimal width n) : m = n :=
  paddedDigits_inj (by decide) (by decide) (String.ofList_injective h)

theorem le_length_decimal (width n : Nat) : width ≤ (decimal width n).toList.length := by
  rw [decimal, String.toList_ofList]
  exact le_length_paddedDigits 10 width n

theorem length_decimal {width n : Nat} (hwidth : 0 < width) (h : n < Nat.pow 10 width) :
    (decimal width n).toList.length = width := by
  rw [decimal, String.toList_ofList]
  exact length_paddedDigits (by decide) hwidth h

/-- A number of full width is told from a text that it begins. -/
theorem decimal_append_inj {width m n : Nat} {as bs : List Char} (hwidth : 0 < width)
    (hm : m < Nat.pow 10 width) (hn : n < Nat.pow 10 width)
    (h : (decimal width m).toList ++ as = (decimal width n).toList ++ bs) : m = n ∧ as = bs := by
  have hlength : (decimal width m).toList.length = (decimal width n).toList.length := by
    rw [length_decimal hwidth hm, length_decimal hwidth hn]
  obtain ⟨hdigits, hrest⟩ := List.append_inj h hlength
  exact ⟨decimal_inj (String.toList_inj.mp hdigits), hrest⟩

theorem length_decimal_le {width n k : Nat} (hk : 0 < k) (hwidth : width ≤ k)
    (h : n < Nat.pow 10 k) : (decimal width n).toList.length ≤ k := by
  rw [decimal, String.toList_ofList]
  exact length_paddedDigits_le (by decide) hk hwidth h

theorem toNat_digitChar {d : Nat} (h : d < 10) : d.digitChar.toNat = 48 + d :=
  Nat.toNat_digitChar_of_lt_ten h

theorem digit_of_mem_decimal {width n : Nat} {c : Char} (h : c ∈ (decimal width n).toList) :
    48 ≤ c.toNat ∧ c.toNat < 58 := by
  rw [decimal, String.toList_ofList] at h
  obtain ⟨d, hd, rfl⟩ := exists_digit_of_mem_paddedDigits (by decide) h
  rw [toNat_digitChar hd]
  omega

/-- Slashes, dots and minus signs are no digits. -/
theorem not_mem_decimal {c : Char} (h : c.toNat < 48) (width n : Nat) :
    c ∉ (decimal width n).toList := by
  intro hmem
  have := (digit_of_mem_decimal hmem).1
  omega

/-! ## Characters of one byte -/

/-- A character that UTF-8 stores as one byte, which is not zero. -/
def Plain (c : Char) : Prop := 0 < c.toNat ∧ c.toNat < 0x80

instance (c : Char) : Decidable (Plain c) :=
  inferInstanceAs (Decidable (0 < c.toNat ∧ c.toNat < 0x80))

theorem plain_of_mem_decimal {width n : Nat} {c : Char} (h : c ∈ (decimal width n).toList) :
    Plain c := by
  have hdigit := digit_of_mem_decimal h
  rw [Plain]
  omega

/-- Each plain character is stored as the byte of its number. -/
theorem Utf8.encode_of_plain {cs : List Char} (h : ∀ c ∈ cs, Plain c) :
    Utf8.encode cs = cs.map fun c => UInt8.ofNat c.toNat := by
  induction cs with
  | nil => rfl
  | cons c cs ih =>
      obtain ⟨hc, hcs⟩ := List.forall_mem_cons.mp h
      rw [encode_cons, utf8EncodeChar_of_lt hc.2, ih hcs, List.map_cons, List.singleton_append]

end EventLog
