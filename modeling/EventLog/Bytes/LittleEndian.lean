set_option autoImplicit false

/-! # Numbers as bytes

A number of a fixed width is stored with its lowest byte first (`toLittleEndian`,
`ofLittleEndian`), except for the words of a network address, whose highest byte comes first
(`toBigEndian`, `ofBigEndian`). Reading is defined on byte strings of any length; writing takes
the width and keeps the number modulo `256 ^ width`.
-/

namespace EventLog

/-- The number whose bytes, lowest first, are the given ones. -/
def ofLittleEndian : List UInt8 → Nat
  | [] => 0
  | b :: bs => b.toNat + 256 * ofLittleEndian bs

/-- The lowest `width` bytes of `n`, lowest first. -/
def toLittleEndian : (width : Nat) → (n : Nat) → List UInt8
  | 0, _ => []
  | width + 1, n => UInt8.ofNat n :: toLittleEndian width (n / 256)

/-- The number whose bytes, highest first, are the given ones. -/
def ofBigEndian (bs : List UInt8) : Nat := ofLittleEndian bs.reverse

/-- The lowest `width` bytes of `n`, highest first. -/
def toBigEndian (width n : Nat) : List UInt8 := (toLittleEndian width n).reverse

@[simp]
theorem length_toLittleEndian (width n : Nat) : (toLittleEndian width n).length = width := by
  induction width generalizing n with
  | zero => rfl
  | succ width ih => simp [toLittleEndian, ih]

@[simp]
theorem length_toBigEndian (width n : Nat) : (toBigEndian width n).length = width := by
  simp [toBigEndian]

theorem ofLittleEndian_lt (bs : List UInt8) : ofLittleEndian bs < Nat.pow 256 bs.length := by
  induction bs with
  | nil => exact Nat.zero_lt_one
  | cons b bs ih =>
      have hb : b.toNat < 256 := b.toNat_lt
      have hpow : Nat.pow 256 (b :: bs).length = Nat.pow 256 bs.length * 256 := rfl
      rw [ofLittleEndian, hpow]
      omega

/-- Writing a number of the given width and reading it back gives the number. -/
theorem ofLittleEndian_toLittleEndian (width n : Nat) :
    ofLittleEndian (toLittleEndian width n) = n % Nat.pow 256 width := by
  induction width generalizing n with
  | zero => exact (Nat.mod_one n).symm
  | succ width ih =>
      have byte : (UInt8.ofNat n).toNat = n % 256 := by simp
      have hpow : Nat.pow 256 (width + 1) = 256 * Nat.pow 256 width := Nat.mul_comm _ _
      rw [toLittleEndian, ofLittleEndian, ih, byte, hpow, Nat.mod_mul]

/-- Reading a byte string and writing the number in its width gives the byte string. -/
theorem toLittleEndian_ofLittleEndian (bs : List UInt8) :
    toLittleEndian bs.length (ofLittleEndian bs) = bs := by
  induction bs with
  | nil => rfl
  | cons b bs ih =>
      have hb : b.toNat < 256 := b.toNat_lt
      have hdiv : (b.toNat + 256 * ofLittleEndian bs) / 256 = ofLittleEndian bs := by omega
      have hmod : UInt8.ofNat (b.toNat + 256 * ofLittleEndian bs) = b := by
        apply UInt8.toNat_inj.mp
        have byte : (UInt8.ofNat (b.toNat + 256 * ofLittleEndian bs)).toNat
            = (b.toNat + 256 * ofLittleEndian bs) % 256 := by simp
        omega
      simp only [ofLittleEndian, List.length_cons, toLittleEndian, hdiv, hmod, ih]

end EventLog
