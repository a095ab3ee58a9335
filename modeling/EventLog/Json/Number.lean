import EventLog.Control.Outcome
import EventLog.Json.Value

set_option autoImplicit false

/-! # Reading JSON numbers

A number without fraction and exponent that fits in 64 bits, with or without sign, is an integer;
any other number is real, and so is minus zero. Real numbers beyond the greatest double are told
apart, since they have no value to be read: the significand, of which only the leading digits that
fit in 64 bits count, and the power of ten are each rounded to a double, and so is their product.
-/

namespace EventLog.Json

/-- A number: an integer, a real number, or one beyond the greatest double. -/
inductive Numeral where
  | integer (value : Int)
  | real
  | infinite
  deriving DecidableEq, Repr

/-- Why digits do not make up a number. -/
inductive NumberFault where
  | malformed
  | unfinished
  deriving DecidableEq, Repr

def isDigit (b : UInt8) : Bool := 0x30 ≤ b && b ≤ 0x39

def digitValue (b : UInt8) : Nat := b.toNat - 0x30

/-- Appends decimal digits to a number as long as it fits in 64 bits; gives the number and the
digits left over. -/
def accumulate (number : Nat) : List UInt8 → Nat × List UInt8
  | [] => (number, [])
  | b :: rest =>
      if 10 * number + digitValue b < UInt64.size then
        accumulate (10 * number + digitValue b) rest
      else (number, b :: rest)

/-! ## Magnitude -/

/-- The double nearest to a natural number below `2 ^ 1024`; ties go to the even significand. -/
def roundToDouble (n : Nat) : Nat :=
  if n < Nat.pow 2 53 then n
  else
    -- A double keeps 53 binary digits.
    let unit := Nat.pow 2 (Nat.log2 n - 52)
    let quotient := n / unit
    let remainder := n % unit
    let up := unit < 2 * remainder ∨ (unit = 2 * remainder ∧ quotient % 2 = 1)
    (if up then quotient + 1 else quotient) * unit

/-- The least number that rounds to infinity: half a unit above the greatest double. -/
def infinityBound : Nat := Nat.pow 2 1024 - Nat.pow 2 970

/-- Whether `significand * 10 ^ exponent` is beyond the greatest double. -/
def beyondDoubles (significand : Nat) (exponent : Int) : Bool :=
  -- A significand has at most 20 digits, and dividing it makes it only smaller.
  if significand = 0 ∨ exponent < 0 then false
  else if 308 < exponent then true
  else infinityBound ≤ roundToDouble significand * roundToDouble (Nat.pow 10 exponent.toNat)

/-- Whether the number of the given digits before and after the point, and the given exponent, is
beyond the greatest double. -/
def tooLarge (whole fraction : List UInt8) (exponent : Int) : Bool :=
  -- Digits dropped before the point count as powers of ten; those after it do not count.
  let (significand, dropped) := accumulate 0 whole
  let (significand, ignored) := accumulate significand fraction
  beyondDoubles significand
    (dropped.length - (fraction.length - ignored.length : Nat) + exponent)

/-! ## Grammar -/

def spanDigits (bytes : List UInt8) : List UInt8 × List UInt8 :=
  (bytes.takeWhile isDigit, bytes.dropWhile isDigit)

/-- Digits of which one at least has to be there. -/
def someDigits (bytes : List UInt8) : Except NumberFault (List UInt8 × List UInt8) :=
  if (spanDigits bytes).1 = [] then .error (if bytes = [] then .unfinished else .malformed)
  else .ok (spanDigits bytes)

/-- The digits before the point: a leading zero stands alone. -/
def wholePart (bytes : List UInt8) : Except NumberFault (List UInt8 × List UInt8) := do
  let split ← someDigits bytes
  if split.1.head? = some 0x30 ∧ 1 < split.1.length then throw .malformed else return split

def fractionPart : List UInt8 → Except NumberFault (Option (List UInt8) × List UInt8)
  | [] => .ok (none, [])
  | b :: rest =>
      if b = 0x2E then do
        let (digits, rest) ← someDigits rest
        return (some digits, rest)
      else .ok (none, b :: rest)

/-- The sign of an exponent: whether it is negative. -/
def exponentSign : List UInt8 → Bool × List UInt8
  | [] => (false, [])
  | b :: rest =>
      if b = 0x2B then (false, rest) else if b = 0x2D then (true, rest) else (false, b :: rest)

/-- The exponent, if there is one. Of its digits only the leading ones that fit in 64 bits count:
no text has so many digits before or after a point that more of them could matter. -/
def exponentPart : List UInt8 → Except NumberFault (Option Int × List UInt8)
  | [] => .ok (none, [])
  | b :: rest =>
      if b = 0x65 ∨ b = 0x45 then do
        let (digits, after) ← someDigits (exponentSign rest).2
        let size : Int := (accumulate 0 digits).1
        return (some (if (exponentSign rest).1 then -size else size), after)
      else .ok (none, b :: rest)

def numeral (negative : Bool) (whole : List UInt8) (fraction : Option (List UInt8))
    (exponent : Option Int) : Numeral :=
  let (size, dropped) := accumulate 0 whole
  let isWhole := fraction = none ∧ exponent = none ∧ dropped.isEmpty
  if isWhole ∧ !negative then .integer size
  else if isWhole ∧ negative ∧ 0 < size ∧ 2 * size ≤ UInt64.size then .integer (-size)
  else if tooLarge whole (fraction.getD []) (exponent.getD 0) then .infinite
  else .real

def unsignedNumber (negative : Bool) (bytes : List UInt8) :
    Except NumberFault (Numeral × List UInt8) := do
  let (whole, rest) ← wholePart bytes
  let (fraction, rest) ← fractionPart rest
  let (exponent, rest) ← exponentPart rest
  return (numeral negative whole fraction exponent, rest)

/-! ## Progress -/

theorem length_someDigits {bytes digits rest : List UInt8}
    (h : someDigits bytes = .ok (digits, rest)) : rest.length < bytes.length := by
  have hsplit : (spanDigits bytes).1 ++ (spanDigits bytes).2 = bytes :=
    List.takeWhile_append_dropWhile
  unfold someDigits at h
  split at h
  · simp at h
  · next hne =>
      -- The digits taken are at least one byte, and with the rest they are all the bytes.
      have hpos := List.length_pos_iff.2 hne
      have hlen := congrArg List.length hsplit
      rw [List.length_append] at hlen
      have heq := Except.ok.inj h
      rw [heq] at hpos hlen
      simp only at hpos hlen
      omega

theorem length_wholePart {bytes digits rest : List UInt8}
    (h : wholePart bytes = .ok (digits, rest)) : rest.length < bytes.length := by
  obtain ⟨⟨d, r⟩, hd, h⟩ := bind_eq_ok.1 h
  have := length_someDigits hd
  split at h
  · simp [throw, throwThe, MonadExceptOf.throw] at h
  · have hr := pure_eq_ok.1 h
    rw [Prod.mk.injEq] at hr
    rw [← hr.2]
    exact this

theorem length_fractionPart {bytes rest : List UInt8} {fraction : Option (List UInt8)}
    (h : fractionPart bytes = .ok (fraction, rest)) : rest.length ≤ bytes.length := by
  cases bytes with
  | nil => simp_all [fractionPart]
  | cons b tail =>
      rw [fractionPart] at h
      split at h
      · obtain ⟨⟨d, r⟩, hd, h⟩ := bind_eq_ok.1 h
        have := length_someDigits hd
        have hr : r = rest := (Prod.mk.inj (pure_eq_ok.1 h)).2
        rw [List.length_cons, ← hr]
        omega
      · have hr : b :: tail = rest := (Prod.mk.inj (Except.ok.inj h)).2
        exact Nat.le_of_eq (congrArg List.length hr.symm)

theorem length_exponentSign (bytes : List UInt8) :
    (exponentSign bytes).2.length ≤ bytes.length := by
  cases bytes with
  | nil => simp [exponentSign]
  | cons b tail =>
      rw [exponentSign]
      split
      · simp
      · split <;> simp

theorem length_exponentPart {bytes rest : List UInt8} {exponent : Option Int}
    (h : exponentPart bytes = .ok (exponent, rest)) : rest.length ≤ bytes.length := by
  cases bytes with
  | nil => simp_all [exponentPart]
  | cons b tail =>
      rw [exponentPart] at h
      split at h
      · obtain ⟨⟨d, r⟩, hd, h⟩ := bind_eq_ok.1 h
        have := length_someDigits hd
        have := length_exponentSign tail
        have hr : r = rest := (Prod.mk.inj (pure_eq_ok.1 h)).2
        rw [List.length_cons, ← hr]
        omega
      · have hr : b :: tail = rest := (Prod.mk.inj (Except.ok.inj h)).2
        exact Nat.le_of_eq (congrArg List.length hr.symm)

/-- A number takes one byte at least. -/
theorem length_unsignedNumber {negative : Bool} {bytes rest : List UInt8} {n : Numeral}
    (h : unsignedNumber negative bytes = .ok (n, rest)) : rest.length < bytes.length := by
  obtain ⟨⟨whole, r1⟩, hw, h⟩ := bind_eq_ok.1 h
  obtain ⟨⟨fraction, r2⟩, hf, h⟩ := bind_eq_ok.1 h
  obtain ⟨⟨exponent, r3⟩, he, h⟩ := bind_eq_ok.1 h
  have h1 := length_wholePart hw
  have h2 := length_fractionPart hf
  have h3 := length_exponentPart he
  have hr : r3 = rest := (Prod.mk.inj (pure_eq_ok.1 h)).2
  rw [← hr]
  omega

end EventLog.Json
