set_option autoImplicit false

/-! # Record checksums

The checksum of a payload is its CRC-32 (reflected polynomial `0xEDB88320`, register all ones at
the start and inverted at the end). The register is advanced bit by bit, so that each step is
linear in the register and in the byte.
-/

namespace EventLog.Checksum

def shift (r : UInt32) : UInt32 :=
  if r &&& 1 = 1 then (r >>> 1) ^^^ 0xEDB88320 else r >>> 1

def shifts : Nat → UInt32 → UInt32
  | 0, r => r
  | n + 1, r => shifts n (shift r)

def step (r : UInt32) (b : UInt8) : UInt32 := shifts 8 (r ^^^ b.toUInt32)

/-- The register after all bytes, from the register `r`. -/
def register (r : UInt32) (bytes : List UInt8) : UInt32 := bytes.foldl step r

def compute (bytes : List UInt8) : UInt32 := register 0xFFFFFFFF bytes ^^^ 0xFFFFFFFF

theorem register_append (r : UInt32) (as bs : List UInt8) :
    register r (as ++ bs) = register (register r as) bs := by
  simp [register]

end EventLog.Checksum
