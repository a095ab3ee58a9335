set_option autoImplicit false

/-! # Filters

A `Filter` selects events by type. It keeps the types in increasing order without repetition and
looks them up by halving; a filter without types selects every event.
-/

namespace EventLog

/-- Removes elements that equal the one before. -/
def dropRepeated : List UInt32 → List UInt32
  | a :: b :: rest => if a = b then dropRepeated (b :: rest) else a :: dropRepeated (b :: rest)
  | as => as

/-- A choice of event types. -/
structure Filter where
  codes : Array UInt32
  deriving DecidableEq, Repr

namespace Filter

def all : Filter := ⟨#[]⟩

def ofList (codes : List UInt32) : Filter :=
  ⟨(dropRepeated (codes.mergeSort fun a b => decide (a ≤ b))).toArray⟩

def isEmpty (f : Filter) : Bool := f.codes.isEmpty

/-- Looks for a code in the part of a sorted array from `low` up to `high`, by halves. -/
def search (codes : Array UInt32) (code : UInt32) (low high : Nat) (h : high ≤ codes.size) :
    Bool :=
  if hlow : low < high then
    let middle := low + (high - low) / 2
    have hmiddle : middle < high := by omega
    -- Everything below `low` is smaller than the code, everything from `high` on is greater.
    let found := codes[middle]
    if found = code then true
    else if found < code then search codes code (middle + 1) high h
    else search codes code low middle (by omega)
  else false
termination_by high - low

def matchesType (f : Filter) (code : UInt32) : Bool :=
  f.isEmpty || search f.codes code 0 f.codes.size (Nat.le_refl _)

end Filter

end EventLog
