set_option autoImplicit false

/-! # Digits of a fixed width

Offsets, checksums, entry names and archive headers write a number with zeros in front up to a
given width; a longer number is written in full.
-/

namespace EventLog

/-- The digits of `n` in the given base, with zeros in front up to `width` digits. Digits above
nine are lower-case letters. -/
def paddedDigits (base width n : Nat) : List Char :=
  let digits := Nat.toDigits base n
  List.replicate (width - digits.length) '0' ++ digits

def decimal (width n : Nat) : String := String.ofList (paddedDigits 10 width n)

/-- The lower-case hexadecimal digits of `n`, at least `width` of them. -/
def hexadecimal (width n : Nat) : String := String.ofList (paddedDigits 16 width n)

def hexByte (b : UInt8) : List Char := paddedDigits 16 2 b.toNat

theorem le_length_paddedDigits (base width n : Nat) :
    width ≤ (paddedDigits base width n).length := by
  simp only [paddedDigits, List.length_append, List.length_replicate]
  omega

end EventLog
