import EventLog.Bytes.LittleEndian
import EventLog.Text.Digits

set_option autoImplicit false

/-! # Network addresses

An address is stored as four words of 32 bits. It is an IPv4 address when only the first word is
populated, and an IPv6 address otherwise (`Address.ofWords`).

An IPv4 address is written in dotted decimal. An IPv6 address is written as eight hexadecimal
groups without leading zeros, where the first longest run of at least two zero groups becomes
`::`; an address that maps an IPv4 address is written as `::ffff:` and its dotted decimal.
-/

namespace EventLog

/-- A network address. -/
inductive Address where
  | v4 (word : UInt32)
  | v6 (w0 w1 w2 w3 : UInt32)
  deriving DecidableEq, Repr

namespace Address

def ofWords (w0 w1 w2 w3 : UInt32) : Address :=
  if (w1 ||| w2 ||| w3) = 0 then v4 w0 else v6 w0 w1 w2 w3

/-- The address stored in sixteen bytes, each word with its highest byte first. -/
def ofBytes (bytes : List UInt8) : Address :=
  let word (i : Nat) : UInt32 := UInt32.ofNat (ofBigEndian ((bytes.drop (4 * i)).take 4))
  ofWords (word 0) (word 1) (word 2) (word 3)

def isV4 : Address → Bool
  | v4 _ => true
  | v6 .. => false

/-- The four octets of a word in decimal, joined by dots. -/
def dotted (word : UInt32) : String :=
  ".".intercalate ((toBigEndian 4 word.toNat).map fun b => decimal 1 b.toNat)

def groups (w0 w1 w2 w3 : UInt32) : List Nat :=
  [w0, w1, w2, w3].flatMap fun w => [w.toNat / 65536, w.toNat % 65536]

/-- The number of zero groups from position `i` on. -/
def zeroRun (gs : List Nat) (i : Nat) : Nat := ((gs.drop i).takeWhile (· == 0)).length

/-- Start and length of the first longest run of zero groups. -/
def longestZeroRun (gs : List Nat) : Nat × Nat :=
  (List.range gs.length).foldl
    (fun best i => if best.2 < zeroRun gs i then (i, zeroRun gs i) else best) (0, 0)

def joinGroups (gs : List Nat) : String := ":".intercalate (gs.map (hexadecimal 1))

/-- The groups of an IPv6 address with their first longest run of zeros compressed. -/
def compressed (gs : List Nat) : String :=
  let (start, length) := longestZeroRun gs
  if 2 ≤ length then
    joinGroups (gs.take start) ++ "::" ++ joinGroups (gs.drop (start + length))
  else joinGroups gs

def text : Address → String
  | v4 word => dotted word
  | v6 w0 w1 w2 w3 =>
      -- The form that maps an IPv4 address takes precedence over compression.
      if w0 = 0 ∧ w1 = 0 ∧ w2 = 0xFFFF then "::ffff:" ++ dotted w3
      else compressed (groups w0 w1 w2 w3)

end Address

end EventLog
