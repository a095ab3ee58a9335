import EventLog.Json.Token

set_option autoImplicit false

/-! # Reading JSON

Readers go through a list of tokens from left to right and report the first problem on their way.
A reader of a certain kind of value (a string, a list, an object with known members) finds the
shape wrong only after it has read the scalar that stands in its place, but at once when an array
or object stands there.

Three readers go through values of any kind. `readValue` gives the value and limits the nesting,
`skip` only checks the grammar of values that nobody asked for, without a limit and without
judging the contents of strings and the size of numbers, and `elements` and `members` share the
commas of arrays and objects among all others.

Each round of `elements` and of `members` takes one token at least, so there are no more rounds
than tokens: a round spends one token of a list that begins as the tokens still to be read.
-/

namespace EventLog.Json

/-- A reader takes a value from the front of a list of tokens. -/
abbrev Reads (α : Type) : Type := List Token → Except Problem (α × List Token)

/-- What a faulty number comes to when its value is asked for. -/
def NumberFault.problem : NumberFault → Problem
  | malformed => .malformed
  | unfinished => .unfinished

/-- The problem of a token that stands where a value of another kind is asked for. A number beyond
the greatest double is refused wherever a value is asked for. -/
def unexpected : Token → Problem
  | .opening _ => .mismatched
  | .literal (.ok _) => .mismatched
  | .literal (.error p) => p
  | .number (.ok .infinite) => .malformed
  | .number (.ok _) => .mismatched
  | .number (.error f) => f.problem
  | .string pieces problem =>
      match stringValue pieces problem with
      | .ok _ => .mismatched
      | .error p => p
  | .closing _ | .comma | .colon | .stray => .malformed

/-! ## Scalars -/

def readText : Reads String
  | [] => .error .unfinished
  | .string pieces problem :: rest => do
      let s ← stringValue pieces problem
      return (s, rest)
  | t :: _ => .error (unexpected t)

def readText? : Reads (Option String)
  | .literal (.ok .null) :: rest => .ok (none, rest)
  | ts => do
      let (s, rest) ← readText ts
      return (some s, rest)

def readNatural (bound : Nat) : Reads Nat
  | [] => .error .unfinished
  | .number (.ok (.integer n)) :: rest =>
      if 0 ≤ n ∧ n < bound then .ok (n.toNat, rest) else .error .mismatched
  | t :: _ => .error (unexpected t)

/-! ## Arrays and objects -/

/-- Goes to the next element of an array: past a comma, unless it is the first. -/
def elementStart (first : Bool) : List Token → Except Problem (List Token)
  | ts =>
      if first then .ok ts
      else
        match ts with
        | [] => .error .unfinished
        | [.comma] => .error .unfinished
        | .comma :: .closing .array :: _ => .error .malformed
        | .comma :: rest => .ok rest
        | _ :: _ => .error .malformed

/-- Reads the elements of an array after its opening bracket, one for each token of `budget` at
most; `before` are the elements before, the last one first. -/
def elementsIn {α : Type} (element : Reads α) :
    (budget : List Token) → (before : List α) → Reads (List α)
  | [], _, _ => .error .unfinished
  | _ :: _, _, [] => .error .unfinished
  | _ :: _, before, .closing .array :: rest => .ok (before.reverse, rest)
  | _ :: budget, before, ts => do
      let ts ← elementStart before.isEmpty ts
      let (x, ts) ← element ts
      elementsIn element budget (x :: before) ts

/-- Reads the elements of an array after its opening bracket. -/
def elements {α : Type} (element : Reads α) : Reads (List α) := fun ts =>
  elementsIn element ts [] ts

/-- Reads an array whose elements are all of one kind. -/
def readList {α : Type} (element : Reads α) : Reads (List α)
  | [] => .error .unfinished
  | .opening .array :: rest => elements element rest
  | t :: _ => .error (unexpected t)

def element? {α : Type} (first : Bool) (element : Reads α) : Reads (Option α)
  | [] => .error .unfinished
  | .closing .array :: rest => .ok (none, .closing .array :: rest)
  | ts => do
      let ts ← elementStart first ts
      let (x, ts) ← element ts
      return (some x, ts)

def closeArray : List Token → Except Problem (List Token)
  | [] => .error .unfinished
  | .closing .array :: rest => .ok rest
  | _ :: _ => .error .malformed

/-- Reads the name of a member, after a comma unless it is the first. -/
def memberName (first : Bool) (ts : List Token) : Except Problem (String × List Token) := do
  let ts ← if first then pure ts else
    match ts with
    | .comma :: rest => pure rest
    | [] => throw .unfinished
    | _ :: _ => throw .malformed
  match ts with
  | [] => throw .unfinished
  | .string pieces problem :: rest => return (← stringValue pieces problem, rest)
  | _ :: _ => throw .malformed

def colon : List Token → Except Problem (List Token)
  | [] => .error .unfinished
  | .colon :: rest => .ok rest
  | _ :: _ => .error .malformed

/-- Reads the members of an object after its opening bracket, one for each token of `budget` at
most. The reader of a member is called after its name and changes the state. -/
def membersIn {σ : Type} (member : σ → String → Reads σ) :
    (budget : List Token) → (first : Bool) → σ → Reads σ
  | [], _, _, _ => .error .unfinished
  | _ :: _, _, _, [] => .error .unfinished
  | _ :: _, _, s, .closing .object :: rest => .ok (s, rest)
  | _ :: budget, first, s, ts => do
      let (name, ts) ← memberName first ts
      let (s, ts) ← member s name ts
      membersIn member budget false s ts

/-- Reads the members of an object after its opening bracket. -/
def members {σ : Type} (member : σ → String → Reads σ) (s : σ) : Reads σ := fun ts =>
  membersIn member ts true s ts

/-! ## Values of any kind -/

/-- Reads a value in which arrays and objects are nested to the given depth at most. -/
def readValue : (depth : Nat) → Reads Json
  | _, [] => .error .unfinished
  | _, .literal (.ok .null) :: rest => .ok (.null, rest)
  | _, .literal (.ok .true) :: rest => .ok (.bool true, rest)
  | _, .literal (.ok .false) :: rest => .ok (.bool false, rest)
  | _, .number (.ok (.integer n)) :: rest => .ok (.int n, rest)
  | _, .number (.ok .real) :: rest => .ok (.real, rest)
  | _, .string pieces problem :: rest => do
      let s ← stringValue pieces problem
      return (.string s, rest)
  | depth + 1, .opening .array :: rest => do
      let (xs, rest) ← elements (readValue depth) rest
      return (.array xs, rest)
  | depth + 1, .opening .object :: rest => do
      let (before, rest) ← members
        (fun (before : List (String × Json)) name ts => do
          let (v, ts) ← readValue depth (← colon ts)
          return ((name, v) :: before, ts)) [] rest
      return (.object before.reverse, rest)
  | 0, .opening _ :: _ => .error .malformed
  | _, t :: _ => .error (unexpected t)

/-- The depth to which a document may be nested. -/
def maxDepth : Nat := 127

def readAll {α : Type} (reader : Reads α) (bytes : List UInt8) : Except Problem α := do
  let (x, rest) ← reader (tokens bytes)
  if rest.isEmpty then return x else throw .malformed

def parse (bytes : List UInt8) : Except Problem Json := readAll (readValue maxDepth) bytes

/-! ## Values that nobody asked for -/

/-- What may come next in a value that is skipped: a value, a value or the end of the array or
object just opened, what follows a value inside an array or object, the name of a member, or a
colon. -/
inductive Expected where
  | value
  | inside
  | follow
  | name
  | colon
  deriving DecidableEq, Repr

/-- Where skipping goes on after a value: in the innermost open bracket, or nowhere. -/
def afterValue (opened : List Bracket) : Option (Expected × List Bracket) :=
  if opened.isEmpty then none else some (.follow, opened)

def skipValue (opened : List Bracket) : Token →
    Except Problem (Option (Expected × List Bracket))
  | .literal (.ok _) => .ok (afterValue opened)
  | .literal (.error p) => .error p
  | .number (.ok _) => .ok (afterValue opened)
  | .number (.error _) => .error .malformed
  | .string _ none => .ok (afterValue opened)
  | .string _ (some p) => .error p
  | .opening b => .ok (some (.inside, b :: opened))
  | .closing _ | .comma | .colon | .stray => .error .malformed

def skipName (opened : List Bracket) : Token →
    Except Problem (Option (Expected × List Bracket))
  | .string _ none => .ok (some (.colon, opened))
  | .string _ (some p) => .error p
  | _ => .error .malformed

/-- Skips one token; gives what may come next, or nothing when the value is complete. -/
def skipToken (expected : Expected) (opened : List Bracket) (t : Token) :
    Except Problem (Option (Expected × List Bracket)) :=
  match expected, opened, t with
  | .value, opened, t => skipValue opened t
  | .name, opened, t => skipName opened t
  | .colon, opened, .colon => .ok (some (.value, opened))
  -- The bracket just opened may close at once, but only by its own kind.
  | .inside, b :: opened, .closing b' =>
      if b = b' then .ok (afterValue opened)
      else if b = .array then skipValue (b :: opened) (.closing b')
      else skipName (b :: opened) (.closing b')
  | .inside, .array :: opened, t => skipValue (.array :: opened) t
  | .inside, .object :: opened, t => skipName (.object :: opened) t
  | .follow, b :: opened, .closing b' =>
      if b = b' then .ok (afterValue opened) else .error .malformed
  | .follow, .array :: opened, .comma => .ok (some (.value, .array :: opened))
  | .follow, .object :: opened, .comma => .ok (some (.name, .object :: opened))
  | _, _, _ => .error .malformed

def skipFrom (expected : Expected) (opened : List Bracket) :
    List Token → Except Problem (List Token)
  | [] => .error .unfinished
  | t :: rest => do
      match ← skipToken expected opened t with
      | none => return rest
      | some (expected, opened) => skipFrom expected opened rest

def skip (ts : List Token) : Except Problem (List Token) := skipFrom .value [] ts

end EventLog.Json
