import EventLog.Proofs.Text.Digits

set_option autoImplicit false

/-! # Numbers written as digits, in order

Texts are ordered by their first difference. Numbers of one width, written with zeros in front, are
in the order of the numbers (`paddedDigits_lt`), so that a text of such numbers between fixed marks
is ordered by the first number that differs (`decimal_append_lt`). The bytes of plain
characters are in the order of the characters (`Utf8.ofString_lt_ofString`).
-/

namespace EventLog

/-! ## Beginnings of one length -/

/-- What stands behind the first difference does not matter. -/
theorem append_lt_append_of_lt {α : Type} [LT α] {xs ys : List α}
    (hlength : xs.length = ys.length) (h : xs < ys) (as bs : List α) : xs ++ as < ys ++ bs := by
  -- On the lists, which have one length: the first elements that differ decide.
  induction xs generalizing ys with
  | nil =>
      cases ys with
      | nil => cases h
      | cons y ys => simp at hlength
  | cons x xs ih =>
      cases ys with
      | nil => simp at hlength
      | cons y ys =>
          simp only [List.length_cons, Nat.add_right_cancel_iff] at hlength
          rw [List.cons_append, List.cons_append, List.cons_lt_cons_iff]
          rcases List.cons_lt_cons_iff.mp h with hfirst | ⟨rfl, hrest⟩
          · exact .inl hfirst
          · exact .inr ⟨rfl, ih hlength hrest⟩

/-! ## Digits -/

theorem digitChar_lt_digitChar {a b : Nat} (hb : b < 10) (h : a < b) :
    a.digitChar < b.digitChar := by
  show a.digitChar.toNat < b.digitChar.toNat
  rw [toNat_digitChar hb, toNat_digitChar (by omega)]
  omega

/-- The last digit comes off the end. -/
theorem paddedDigits_succ {base width : Nat} (hbase : 1 < base) (hwidth : 0 < width) (n : Nat) :
    paddedDigits base (width + 1) n =
      paddedDigits base width (n / base) ++ [(n % base).digitChar] := by
  unfold paddedDigits
  by_cases h : n < base
  · -- Nothing is left before the digit but zeros, one of them for the number zero.
    have hzeros : List.replicate width '0' = List.replicate (width - 1) '0' ++ ['0'] := by
      rw [← List.replicate_succ']
      congr 1
      omega
    rw [Nat.toDigits_of_lt_base h, Nat.div_eq_of_lt h, Nat.mod_eq_of_lt h,
      Nat.toDigits_of_lt_base (by omega)]
    simp only [List.length_singleton, Nat.add_sub_cancel]
    rw [hzeros]
    rfl
  · rw [Nat.toDigits_of_base_le hbase (by omega)]
    simp only [List.length_append, List.length_singleton, Nat.add_sub_add_right,
      List.append_assoc]

/-- **Numbers of one width are written in their order.** -/
theorem paddedDigits_lt {width m n : Nat} (hwidth : 0 < width) (hn : n < Nat.pow 10 width)
    (h : m < n) : paddedDigits 10 width m < paddedDigits 10 width n := by
  -- On the width: the digits in front decide, unless the numbers agree but for the last one.
  induction width generalizing m n with
  | zero => omega
  | succ width ih =>
      by_cases hone : width = 0
      · subst hone
        have hdigit (k : Nat) (hk : k < 10) : paddedDigits 10 1 k = [k.digitChar] := by
          rw [paddedDigits, Nat.toDigits_of_lt_base hk]
          rfl
        have hn : n < 10 := hn
        rw [hdigit n hn, hdigit m (by omega), List.cons_lt_cons_iff]
        exact .inl (digitChar_lt_digitChar hn h)
      · have hwidth : 0 < width := by omega
        have hhigh : n / 10 < Nat.pow 10 width := by
          have hpow : Nat.pow 10 (width + 1) = Nat.pow 10 width * 10 := rfl
          omega
        rw [paddedDigits_succ (by decide) hwidth, paddedDigits_succ (by decide) hwidth]
        by_cases hlt : m / 10 < n / 10
        · have hlength : (paddedDigits 10 width (m / 10)).length =
              (paddedDigits 10 width (n / 10)).length := by
            rw [length_paddedDigits (by decide) hwidth (Nat.lt_trans hlt hhigh),
              length_paddedDigits (by decide) hwidth hhigh]
          exact append_lt_append_of_lt hlength (ih hwidth hhigh hlt) _ _
        · -- The numbers differ in their last digit only.
          have hsame : m / 10 = n / 10 := by omega
          rw [hsame]
          refine List.append_left_lt (List.cons_lt_cons_iff.mpr (.inl ?_))
          exact digitChar_lt_digitChar (by omega) (by omega)

/-- Of two texts that begin with numbers of one width and the same mark, the one with the smaller
number comes first; after equal numbers, what follows the mark decides. -/
theorem decimal_append_lt {width m n : Nat} {as bs : List Char} (mark : Char) (hwidth : 0 < width)
    (hm : m < Nat.pow 10 width) (hn : n < Nat.pow 10 width) (h : m < n ∨ m = n ∧ as < bs) :
    (decimal width m).toList ++ mark :: as < (decimal width n).toList ++ mark :: bs := by
  rcases h with hlt | ⟨rfl, hrest⟩
  · refine append_lt_append_of_lt ?_ ?_ _ _
    · rw [length_decimal hwidth hm, length_decimal hwidth hn]
    · rw [decimal, decimal, String.toList_ofList, String.toList_ofList]
      exact paddedDigits_lt hwidth hn hlt
  · exact List.append_left_lt (List.cons_lt_cons_iff.mpr (.inr ⟨rfl, hrest⟩))

/-! ## Bytes of plain characters -/

theorem byte_lt_byte {c d : Char} (hd : Plain d) (h : c < d) :
    UInt8.ofNat c.toNat < UInt8.ofNat d.toNat := by
  have hlt : c.toNat < d.toNat := h
  have hplain := hd.2
  rw [UInt8.lt_iff_toNat_lt, UInt8.toNat_ofNat_of_lt' (by simp only [UInt8.size]; omega),
    UInt8.toNat_ofNat_of_lt' (by simp only [UInt8.size]; omega)]
  exact hlt

/-- Texts of plain characters have their bytes in the same order. -/
theorem Utf8.ofString_lt_ofString {s t : String} (hs : ∀ c ∈ s.toList, Plain c)
    (ht : ∀ c ∈ t.toList, Plain c) (h : s.toList < t.toList) : ofString s < ofString t := by
  show encode s.toList < encode t.toList
  rw [encode_of_plain hs, encode_of_plain ht]
  generalize s.toList = cs at h
  generalize t.toList = ds at h ht
  induction h with
  | nil => exact List.nil_lt_cons _ _
  | rel hchar =>
      rw [List.map_cons, List.map_cons, List.cons_lt_cons_iff]
      exact .inl (byte_lt_byte (ht _ List.mem_cons_self) hchar)
  | cons _ ih =>
      rw [List.map_cons, List.map_cons, List.cons_lt_cons_iff]
      exact .inr ⟨rfl, ih fun c hc => ht c (List.mem_cons_of_mem _ hc)⟩

end EventLog
