import EventLog.Field.Layout
import EventLog.Bytes.LittleEndian
import EventLog.Uuid

set_option autoImplicit false

/-! # Field values

The value of a decoded field, and the map from keys to values that a payload decodes to.
-/

namespace EventLog

/-- The value of a field. -/
inductive FieldValue where
  | uuid (value : Uuid)
  | string (value : String)
  | int16 (value : Int16)
  | uint16 (value : UInt16)
  | int32 (value : Int32)
  | uint32 (value : UInt32)
  | int64 (value : Int64)
  | uint64 (value : UInt64)
  deriving DecidableEq

namespace FieldValue

def string? : FieldValue → Option String
  | string s => some s
  | _ => none

def uuid? : FieldValue → Option Uuid
  | uuid u => some u
  | _ => none

def integer? : FieldValue → Option Int
  | uuid _ | string _ => none
  | int16 n => some n.toInt
  | uint16 n => some n.toNat
  | int32 n => some n.toInt
  | uint32 n => some n.toNat
  | int64 n => some n.toInt
  | uint64 n => some n.toNat

def text : FieldValue → String
  | uuid u => u.text
  | string s => s
  | int16 n => toString n.toInt
  | uint16 n => toString n.toNat
  | int32 n => toString n.toInt
  | uint32 n => toString n.toNat
  | int64 n => toString n.toInt
  | uint64 n => toString n.toNat

end FieldValue

/-- The value of a wire integer whose little-endian bytes make up `n`. Signed integers are in
two's complement. -/
def Primitive.value (p : Primitive) (n : Nat) : FieldValue :=
  match p with
  | .int16 | .privilegeValue => .int16 (UInt16.ofNat n).toInt16
  | .uint16 | .privilegeEnum => .uint16 (UInt16.ofNat n)
  | .int32 => .int32 (UInt32.ofNat n).toInt32
  | .uint32 => .uint32 (UInt32.ofNat n)
  | .int64 | .privilegeDuration => .int64 (UInt64.ofNat n).toInt64
  | .uint64 => .uint64 (UInt64.ofNat n)

/-! ## Decoded fields

A payload decodes to a map from keys to values. The map remembers the order in which the keys
first appeared, and a key that appears again keeps its place and takes the new value. -/

/-- Sets the value of a key in a list of entries: an entry of that key keeps its place, and a new
key comes last. -/
def putEntry (key : String) (value : FieldValue) :
    List (String × FieldValue) → List (String × FieldValue)
  | [] => [(key, value)]
  | (k, v) :: rest => if k = key then (k, value) :: rest else (k, v) :: putEntry key value rest

theorem keys_putEntry (key : String) (value : FieldValue) (entries : List (String × FieldValue)) :
    (putEntry key value entries).map Prod.fst =
      if key ∈ entries.map Prod.fst then entries.map Prod.fst
      else entries.map Prod.fst ++ [key] := by
  -- On the entries: a key that is there already keeps its place, a new one goes to the end.
  induction entries with
  | nil => simp [putEntry]
  | cons e rest ih =>
      obtain ⟨k, v⟩ := e
      by_cases hk : k = key
      · simp [putEntry, hk]
      · have hk' : key ≠ k := fun h => hk h.symm
        by_cases hm : key ∈ rest.map Prod.fst
        · rw [if_pos hm] at ih
          simp only [putEntry, hk, if_false, List.map_cons, ih, List.mem_cons, hm, or_true,
            if_true]
        · rw [if_neg hm] at ih
          simp only [putEntry, hk, if_false, List.map_cons, ih, List.mem_cons, hm, or_false, hk',
            List.cons_append]

theorem nodup_keys_putEntry (key : String) (value : FieldValue)
    (entries : List (String × FieldValue)) (h : (entries.map Prod.fst).Nodup) :
    ((putEntry key value entries).map Prod.fst).Nodup := by
  rw [keys_putEntry]
  by_cases hm : key ∈ entries.map Prod.fst
  · rwa [if_pos hm]
  · rw [if_neg hm, List.nodup_append]
    refine ⟨h, by simp, ?_⟩
    intro a ha b hb hab
    rw [List.mem_singleton] at hb
    exact hm (hb ▸ hab ▸ ha)

/-- Decoded fields by key, in the order in which the keys first appeared. -/
structure Fields where
  entries : List (String × FieldValue)
  nodup_keys : (entries.map Prod.fst).Nodup
  deriving DecidableEq

namespace Fields

def empty : Fields := ⟨[], List.nodup_nil⟩

/-- Sets the value of a key; a key that is present keeps its place. -/
def insert (fields : Fields) (key : String) (value : FieldValue) : Fields :=
  ⟨putEntry key value fields.entries, nodup_keys_putEntry key value _ fields.nodup_keys⟩

def keys (fields : Fields) : List String := fields.entries.map Prod.fst

def get? (fields : Fields) (key : String) : Option FieldValue := fields.entries.lookup key

/-- The map that a list of keys and values gives, inserted in order. -/
def ofList (entries : List (String × FieldValue)) : Fields :=
  entries.foldl (fun fields entry => fields.insert entry.1 entry.2) empty

end Fields

end EventLog
