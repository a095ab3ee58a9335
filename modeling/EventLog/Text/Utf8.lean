set_option autoImplicit false

/-! # UTF-8

`Utf8.encode` writes scalar values as bytes; `Utf8.decode` reads them back and otherwise says
where the longest well-formed beginning ends and what follows it: a byte sequence that cannot
begin a scalar value, of one to three bytes, or the beginning of one that is cut off.

The bytes allowed after a first byte exclude overlong forms, surrogates and values above
U+10FFFF, so the ranges of the second byte depend on the first (`secondAllowed`).
-/

namespace EventLog.Utf8

/-- Why bytes are not UTF-8: the length of the longest well-formed beginning, and the number of
bytes after it that cannot begin a scalar value, `none` when the bytes merely end too early. -/
structure Fault where
  validUpTo : Nat
  invalidLength : Option Nat
  deriving DecidableEq, Repr

def Fault.message (f : Fault) : String :=
  match f.invalidLength with
  | some n => s!"invalid utf-8 sequence of {n} bytes from index {f.validUpTo}"
  | none => s!"incomplete utf-8 byte sequence from index {f.validUpTo}"

def encode (cs : List Char) : List UInt8 := cs.flatMap String.utf8EncodeChar

def ofString (s : String) : List UInt8 := encode s.toList

/-- How many bytes follow the first byte of a scalar value; `none` for a byte that is not a
first byte. -/
def trailing (lead : UInt8) : Option Nat :=
  if lead < 0x80 then some 0
  else if lead < 0xC2 then none
  else if lead < 0xE0 then some 1
  else if lead < 0xF0 then some 2
  else if lead < 0xF5 then some 3
  else none

def continues (b : UInt8) : Bool := 0x80 ≤ b && b < 0xC0

/-- The second bytes allowed after a first byte of a longer scalar value. -/
def secondAllowed (lead b : UInt8) : Bool :=
  if lead = 0xE0 then 0xA0 ≤ b && b < 0xC0
  else if lead = 0xED then 0x80 ≤ b && b < 0xA0
  else if lead = 0xF0 then 0x90 ≤ b && b < 0xC0
  else if lead = 0xF4 then 0x80 ≤ b && b < 0x90
  else continues b

/-- The six bits a continuation byte carries. -/
def payload (b : UInt8) : Nat := b.toNat % 64

/-- Decodes `bytes`, where `done` bytes were decoded before into the reversed list `acc`. -/
def decodeFrom (done : Nat) (acc : List Char) : List UInt8 → Except Fault (List Char)
  | [] => .ok acc.reverse
  | lead :: rest =>
      match trailing lead with
      | none => .error ⟨done, some 1⟩
      | some 0 => decodeFrom (done + 1) (Char.ofNat lead.toNat :: acc) rest
      -- A byte that is missing leaves the value incomplete; a byte that does not fit makes those
      -- before it invalid.
      | some 1 =>
          match rest with
          | [] => .error ⟨done, none⟩
          | b :: rest =>
              if secondAllowed lead b then
                decodeFrom (done + 2)
                  (Char.ofNat (lead.toNat % 32 * 64 + payload b) :: acc) rest
              else .error ⟨done, some 1⟩
      | some 2 =>
          match rest with
          | [] => .error ⟨done, none⟩
          | b :: rest =>
              if secondAllowed lead b then
                match rest with
                | [] => .error ⟨done, none⟩
                | c :: rest =>
                    if continues c then
                      decodeFrom (done + 3)
                        (Char.ofNat ((lead.toNat % 16 * 64 + payload b) * 64 + payload c)
                          :: acc) rest
                    else .error ⟨done, some 2⟩
              else .error ⟨done, some 1⟩
      | some _ =>
          match rest with
          | [] => .error ⟨done, none⟩
          | b :: rest =>
              if secondAllowed lead b then
                match rest with
                | [] => .error ⟨done, none⟩
                | c :: rest =>
                    if continues c then
                      match rest with
                      | [] => .error ⟨done, none⟩
                      | d :: rest =>
                          if continues d then
                            decodeFrom (done + 4)
                              (Char.ofNat (((lead.toNat % 8 * 64 + payload b) * 64 + payload c)
                                * 64 + payload d) :: acc) rest
                          else .error ⟨done, some 3⟩
                    else .error ⟨done, some 2⟩
              else .error ⟨done, some 1⟩

def decode (bytes : List UInt8) : Except Fault (List Char) := decodeFrom 0 [] bytes

def toString? (bytes : List UInt8) : Except Fault String := (decode bytes).map String.ofList

end EventLog.Utf8
