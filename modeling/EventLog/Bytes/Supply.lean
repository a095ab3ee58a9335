set_option autoImplicit false

/-! # Enough bytes

Whether a byte string still holds an element is decided by going through the bytes of the element
alone, so that reading a log takes time in proportion to its size.
-/

namespace EventLog

def hasAtLeast {α : Type} : Nat → List α → Bool
  | 0, _ => true
  | _ + 1, [] => false
  | n + 1, _ :: xs => hasAtLeast n xs

theorem hasAtLeast_iff {α : Type} {n : Nat} {xs : List α} :
    hasAtLeast n xs = true ↔ n ≤ xs.length := by
  induction n generalizing xs with
  | zero => simp [hasAtLeast]
  | succ n ih =>
      cases xs with
      | nil => simp [hasAtLeast]
      | cons x xs => simp [hasAtLeast, ih]

end EventLog
