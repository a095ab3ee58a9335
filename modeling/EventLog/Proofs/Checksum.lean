import EventLog.Bytes.LittleEndian
import EventLog.Checksum

set_option autoImplicit false

/-! # What a checksum detects

The register is linear in its bits, and no advance of it loses any. Four bytes are as long as the
register: a register that holds them is cleared by them (`register_word`), so that byte strings of
that length never lead to the same register. Two strings that differ in a window of four bytes have
different checksums for that reason (`compute_ne_of_window`).
-/

namespace EventLog.Checksum

/-! ## Advancing the register -/

theorem toNat_shift (r : UInt32) :
    (shift r).toNat = if r.toNat % 2 = 1 then (r.toNat / 2) ^^^ 0xEDB88320 else r.toNat / 2 := by
  have hodd : r &&& 1 = 1 ↔ r.toNat % 2 = 1 := by
    rw [← UInt32.toNat_inj, UInt32.toNat_and, ← Nat.and_one_is_mod]
    rfl
  have hhalf : (r >>> 1).toNat = r.toNat / 2 := Nat.shiftRight_eq_div_pow _ _
  simp only [shift, hodd]
  split
  · rw [UInt32.toNat_xor, hhalf]
    rfl
  · exact hhalf

theorem shift_xor (r s : UInt32) : shift (r ^^^ s) = shift r ^^^ shift s := by
  apply UInt32.toNat_inj.mp
  have hodd : (r.toNat ^^^ s.toNat) % 2 = 1 ↔ ¬(r.toNat % 2 = 1 ↔ s.toNat % 2 = 1) :=
    Nat.xor_mod_two_eq_one
  have hhalf : (r.toNat ^^^ s.toNat) / 2 = r.toNat / 2 ^^^ s.toNat / 2 := Nat.xor_div_two
  simp only [UInt32.toNat_xor, toNat_shift, hodd, hhalf]
  -- The polynomial is added for each odd register, and cancels out when both are odd.
  by_cases hr : r.toNat % 2 = 1 <;> by_cases hs : s.toNat % 2 = 1
  · rw [if_neg (by omega), if_pos hr, if_pos hs, Nat.xor_comm (s.toNat / 2), Nat.xor_assoc,
      ← Nat.xor_assoc 0xEDB88320, Nat.xor_self, Nat.zero_xor]
  · rw [if_pos (by omega), if_pos hr, if_neg hs, Nat.xor_assoc, Nat.xor_assoc,
      Nat.xor_comm 0xEDB88320]
  · rw [if_pos (by omega), if_neg hr, if_pos hs, Nat.xor_assoc]
  · rw [if_neg (by omega), if_neg hr, if_neg hs]

/-- The highest bit of the register tells whether the polynomial was added. -/
theorem shift_injective {r s : UInt32} (h : shift r = shift s) : r = s := by
  -- The shift is linear over exclusive or, so only what shifts to zero matters.
  have hzero : shift (r ^^^ s) = 0 := by rw [shift_xor, h, UInt32.xor_self]
  have hnat := congrArg UInt32.toNat hzero
  rw [toNat_shift] at hnat
  have hlt := (r ^^^ s).toNat_lt
  apply UInt32.xor_eq_zero_iff.mp
  apply UInt32.toNat_inj.mp
  split at hnat
  · -- The polynomial's top bit is set, but a halved register has none there.
    have hpolynomial : (r ^^^ s).toNat / 2 = 0xEDB88320 := by
      rw [← Nat.xor_zero ((r ^^^ s).toNat / 2), ← Nat.xor_self 0xEDB88320, ← Nat.xor_assoc, hnat]
      rfl
    omega
  · show (r ^^^ s).toNat = 0
    have hnat' : (r ^^^ s).toNat / 2 = 0 := hnat
    omega

theorem shifts_xor (n : Nat) (r s : UInt32) : shifts n (r ^^^ s) = shifts n r ^^^ shifts n s := by
  induction n generalizing r s with
  | zero => rfl
  | succ n ih => rw [shifts, shifts, shifts, shift_xor, ih]

theorem shifts_injective {n : Nat} {r s : UInt32} (h : shifts n r = shifts n s) : r = s := by
  induction n generalizing r s with
  | zero => exact h
  | succ n ih => exact shift_injective (ih h)

theorem shifts_add (m n : Nat) (r : UInt32) : shifts (m + n) r = shifts n (shifts m r) := by
  induction m generalizing r with
  | zero => rw [Nat.zero_add, shifts]
  | succ m ih => rw [Nat.add_right_comm, shifts, shifts, ih]

/-- Bits that the register can hold move down unchanged. -/
theorem shifts_mul_pow {n w : Nat} (h : Nat.pow 2 n * w < UInt32.size) :
    shifts n (UInt32.ofNat (Nat.pow 2 n * w)) = UInt32.ofNat w := by
  -- On the number of zero bits: each is shifted out without touching the polynomial.
  induction n with
  | zero => rw [shifts, Nat.pow_eq, Nat.pow_zero, Nat.one_mul]
  | succ n ih =>
      have hdouble : Nat.pow 2 (n + 1) * w = 2 * (Nat.pow 2 n * w) := by
        have hpow : Nat.pow 2 (n + 1) = Nat.pow 2 n * 2 := rfl
        rw [hpow, Nat.mul_comm _ 2, Nat.mul_assoc]
      rw [hdouble] at h ⊢
      have hshift : shift (UInt32.ofNat (2 * (Nat.pow 2 n * w))) =
          UInt32.ofNat (Nat.pow 2 n * w) := by
        apply UInt32.toNat_inj.mp
        rw [toNat_shift, UInt32.toNat_ofNat_of_lt' h, UInt32.toNat_ofNat_of_lt' (by omega),
          if_neg (by omega)]
        omega
      rw [shifts, hshift]
      exact ih (by omega)

/-! ## Taking bytes into the register -/

theorem step_xor_step (r s : UInt32) (b : UInt8) : step r b ^^^ step s b = shifts 8 (r ^^^ s) := by
  rw [step, step, ← shifts_xor, UInt32.xor_assoc, UInt32.xor_comm s, ← UInt32.xor_assoc b.toUInt32,
    UInt32.xor_self, UInt32.zero_xor]

/-- What two registers differ in moves on, whatever bytes are taken. -/
theorem register_xor_register (r s : UInt32) (bytes : List UInt8) :
    register r bytes ^^^ register s bytes = shifts (8 * bytes.length) (r ^^^ s) := by
  induction bytes generalizing r s with
  | nil => rfl
  | cons b bytes ih =>
      have hlength : 8 * (b :: bytes).length = 8 + 8 * bytes.length := by
        rw [List.length_cons]
        omega
      rw [hlength, shifts_add, ← step_xor_step r s b]
      exact ih (step r b) (step s b)

theorem register_injective {r s : UInt32} {bytes : List UInt8}
    (h : register r bytes = register s bytes) : r = s := by
  have hshifts : shifts (8 * bytes.length) (r ^^^ s) = shifts (8 * bytes.length) (s ^^^ s) := by
    rw [← register_xor_register, ← register_xor_register, h]
  exact (UInt32.xor_left_inj s).mp (shifts_injective hshifts)

def word (bytes : List UInt8) : UInt32 := UInt32.ofNat (ofLittleEndian bytes)

theorem ofLittleEndian_lt_size {bytes : List UInt8} (h : bytes.length ≤ 4) :
    ofLittleEndian bytes < UInt32.size :=
  Nat.lt_of_lt_of_le (ofLittleEndian_lt bytes) (Nat.pow_le_pow_right (by decide) h)

/-- A byte below a number is taken out of their sum. -/
theorem add_xor_byte (b : UInt8) (high : Nat) :
    (b.toNat + 256 * high) ^^^ b.toNat = 256 * high := by
  have hb : b.toNat < 256 := b.toNat_lt
  have hdiv : ((b.toNat + 256 * high) ^^^ b.toNat) / 256 = high := by
    have hhalves : ((b.toNat + 256 * high) ^^^ b.toNat) / 256 =
        (b.toNat + 256 * high) / 256 ^^^ b.toNat / 256 := Nat.xor_div_two_pow (n := 8)
    rw [hhalves, Nat.div_eq_of_lt hb, Nat.xor_zero]
    omega
  have hmod : ((b.toNat + 256 * high) ^^^ b.toNat) % 256 = 0 := by
    have hhalves : ((b.toNat + 256 * high) ^^^ b.toNat) % 256 =
        (b.toNat + 256 * high) % 256 ^^^ b.toNat % 256 := Nat.xor_mod_two_pow (n := 8)
    rw [hhalves, Nat.add_mul_mod_self_left, Nat.xor_self]
  omega

/-- The first byte of a word is taken out of it. -/
theorem step_word {b : UInt8} {bytes : List UInt8} (h : (b :: bytes).length ≤ 4) :
    step (word (b :: bytes)) b = word bytes := by
  have hlt : b.toNat + 256 * ofLittleEndian bytes < UInt32.size := ofLittleEndian_lt_size h
  have hword : word (b :: bytes) = UInt32.ofNat (b.toNat + 256 * ofLittleEndian bytes) := rfl
  have hxor : word (b :: bytes) ^^^ b.toUInt32 = UInt32.ofNat (256 * ofLittleEndian bytes) := by
    apply UInt32.toNat_inj.mp
    rw [UInt32.toNat_xor, UInt8.toNat_toUInt32, hword, UInt32.toNat_ofNat_of_lt' hlt,
      UInt32.toNat_ofNat_of_lt' (by omega)]
    exact add_xor_byte b (ofLittleEndian bytes)
  rw [step, hxor]
  exact shifts_mul_pow (n := 8) (Nat.lt_of_le_of_lt (Nat.le_add_left _ _) hlt)

/-- A register that holds the bytes which it takes is cleared by them. -/
theorem register_word {bytes : List UInt8} (h : bytes.length ≤ 4) :
    register (word bytes) bytes = 0 := by
  induction bytes with
  | nil => rfl
  | cons b bytes ih =>
      rw [register, List.foldl_cons, step_word h]
      exact ih (Nat.le_of_succ_le h)

theorem word_injective {as bs : List UInt8} (hlength : as.length = bs.length)
    (hle : as.length ≤ 4) (h : word as = word bs) : as = bs := by
  have hnat := congrArg UInt32.toNat h
  rw [word, word, UInt32.toNat_ofNat_of_lt' (ofLittleEndian_lt_size hle),
    UInt32.toNat_ofNat_of_lt' (ofLittleEndian_lt_size (hlength ▸ hle))] at hnat
  rw [← toLittleEndian_ofLittleEndian as, hnat, hlength, toLittleEndian_ofLittleEndian]

/-- A short byte string is known from the registers before and after it. -/
theorem eq_of_register_eq {r : UInt32} {as bs : List UInt8} (hlength : as.length = bs.length)
    (hle : as.length ≤ 4) (h : register r as = register r bs) : as = bs := by
  have hregister (bytes : List UInt8) (hbytes : bytes.length ≤ 4) :
      register r bytes = shifts (8 * bytes.length) (r ^^^ word bytes) := by
    rw [← register_xor_register, register_word hbytes, UInt32.xor_zero]
  rw [hregister as hle, hregister bs (hlength ▸ hle), hlength] at h
  exact word_injective hlength hle ((UInt32.xor_right_inj r).mp (shifts_injective h))

/-- **Every change in a window of four bytes is detected.** -/
theorem compute_ne_of_window {front as bs back : List UInt8} (hlength : as.length = bs.length)
    (hle : as.length ≤ 4) (hne : as ≠ bs) :
    compute (front ++ as ++ back) ≠ compute (front ++ bs ++ back) := by
  intro h
  have hregister := (UInt32.xor_left_inj _).mp h
  simp only [register_append] at hregister
  exact hne (eq_of_register_eq hlength hle (register_injective hregister))

end EventLog.Checksum
