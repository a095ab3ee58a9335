import EventLog.Json.Number
import EventLog.Text.Utf8

set_option autoImplicit false

/-! # JSON tokens

`Json.tokens` cuts a text into tokens, without blanks. It always gives a list: a literal, number
or string that breaks the grammar, and a byte that begins no token, is the last token of the list
and carries its problem, so that a reader that stops earlier never learns of it.

A string token keeps the bytes between its quotes with the escapes resolved (`Piece`); whether
they make up a string (`stringValue`) is a question only for a reader that wants its value.
-/

namespace EventLog.Json

/-- The two kinds of brackets. -/
inductive Bracket where
  | array
  | object
  deriving DecidableEq, Repr

/-- The three words of JSON. -/
inductive Literal where
  | null
  | true
  | false
  deriving DecidableEq, Repr

/-- A part of a string: a byte of its UTF-8, or a unit of UTF-16 given by four hexadecimal
digits. -/
inductive Piece where
  | byte (b : UInt8)
  | unit (u : Nat)
  deriving DecidableEq, Repr

/-- A token. A string has a problem when its closing quote was not reached. -/
inductive Token where
  | opening (bracket : Bracket)
  | closing (bracket : Bracket)
  | comma
  | colon
  | literal (literal : Except Problem Literal)
  | number (number : Except NumberFault Numeral)
  | string (pieces : List Piece) (problem : Option Problem)
  | stray

/-! ## Literals -/

def literalRest (l : Literal) : List UInt8 → List UInt8 → Except Problem Literal × List UInt8
  | [], rest => (.ok l, rest)
  | _ :: _, [] => (.error .unfinished, [])
  | e :: expected, b :: rest =>
      if b = e then literalRest l expected rest else (.error .malformed, [])

theorem length_literalRest (l : Literal) (expected rest : List UInt8) :
    (literalRest l expected rest).2.length ≤ rest.length := by
  induction expected generalizing rest with
  | nil => simp [literalRest]
  | cons e expected ih =>
      cases rest with
      | nil => simp [literalRest]
      | cons b rest =>
          by_cases h : b = e
          · simpa [literalRest, h] using Nat.le_succ_of_le (ih rest)
          · simp [literalRest, h]

/-! ## Strings -/

def hexValue? (b : UInt8) : Option Nat :=
  if 0x30 ≤ b ∧ b ≤ 0x39 then some (b.toNat - 0x30)
  else if 0x41 ≤ b ∧ b ≤ 0x46 then some (b.toNat - 0x41 + 10)
  else if 0x61 ≤ b ∧ b ≤ 0x66 then some (b.toNat - 0x61 + 10)
  else none

def hexUnit? (a b c d : UInt8) : Option Nat := do
  let a ← hexValue? a
  let b ← hexValue? b
  let c ← hexValue? c
  let d ← hexValue? d
  return ((a * 16 + b) * 16 + c) * 16 + d

/-- The byte that a letter after a backslash stands for. -/
def escapedByte? (b : UInt8) : Option UInt8 :=
  if b = 0x22 ∨ b = 0x5C ∨ b = 0x2F then some b
  else if b = 0x62 then some 0x08
  else if b = 0x66 then some 0x0C
  else if b = 0x6E then some 0x0A
  else if b = 0x72 then some 0x0D
  else if b = 0x74 then some 0x09
  else none

/-- Reads a string after its opening quote; `acc` holds the pieces before, in reverse. -/
def stringRest (acc : List Piece) :
    List UInt8 → List Piece × Option Problem × List UInt8
  | [] => (acc.reverse, some .unfinished, [])
  | b :: rest =>
      if b = 0x22 then (acc.reverse, none, rest)
      else if b = 0x5C then
        match rest with
        | [] => (acc.reverse, some .unfinished, [])
        | e :: rest =>
            if e = 0x75 then
              match rest with
              -- Less than four bytes are an early end, whatever they are.
              | h1 :: h2 :: h3 :: h4 :: rest =>
                  match hexUnit? h1 h2 h3 h4 with
                  | some u => stringRest (.unit u :: acc) rest
                  | none => (acc.reverse, some .malformed, [])
              | _ => (acc.reverse, some .unfinished, [])
            else
              match escapedByte? e with
              | some c => stringRest (.byte c :: acc) rest
              | none => (acc.reverse, some .malformed, [])
      else if b < 0x20 then (acc.reverse, some .malformed, [])
      else stringRest (.byte b :: acc) rest

theorem length_stringRest (acc : List Piece) (bytes : List UInt8) :
    (stringRest acc bytes).2.2.length ≤ bytes.length := by
  fun_induction stringRest acc bytes <;> simp_all <;> omega

def isLeading (u : Nat) : Bool := 0xD800 ≤ u && u < 0xDC00

def isTrailing (u : Nat) : Bool := 0xDC00 ≤ u && u < 0xE000

def reversedBytes (n : Nat) : List UInt8 := (String.utf8EncodeChar (Char.ofNat n)).reverse

/-- The bytes of the pieces of a string, after those in `acc` in reverse. Two units make up one
code point when they are surrogates; a lone surrogate is refused. The problem `atEnd` is what a
leading surrogate at the end comes to. -/
def contentBytes (atEnd : Problem) (acc : List UInt8) :
    List Piece → Except Problem (List UInt8)
  | [] => .ok acc.reverse
  | .byte b :: rest => contentBytes atEnd (b :: acc) rest
  | .unit u :: rest =>
      if isTrailing u then .error .malformed
      else if isLeading u then
        -- Only a trailing surrogate completes the pair.
        match rest with
        | [] => .error atEnd
        | .byte _ :: _ => .error .malformed
        | .unit v :: rest =>
            if isTrailing v then
              contentBytes atEnd
                (reversedBytes ((u - 0xD800) * 0x400 + (v - 0xDC00) + 0x10000) ++ acc) rest
            else .error .malformed
      else contentBytes atEnd (reversedBytes u ++ acc) rest

/-- The string of a string token. Its escapes are judged before its end, and its bytes after. -/
def stringValue (pieces : List Piece) (problem : Option Problem) : Except Problem String := do
  let bytes ← contentBytes (problem.getD .malformed) [] pieces
  match problem with
  | some p => throw p
  | none =>
      match Utf8.toString? bytes with
      | .ok s => return s
      | .error _ => throw .malformed

/-! ## Tokens -/

def isBlank (b : UInt8) : Bool := b = 0x20 ∨ b = 0x0A ∨ b = 0x09 ∨ b = 0x0D

def numberToken (negative : Bool) (bytes : List UInt8) : Token × List UInt8 :=
  match unsignedNumber negative bytes with
  | .ok (n, rest) => (.number (.ok n), rest)
  | .error f => (.number (.error f), [])

theorem length_numberToken_cons (negative : Bool) (b : UInt8) (rest : List UInt8) :
    (numberToken negative (b :: rest)).2.length ≤ rest.length := by
  unfold numberToken
  split
  · next h => exact Nat.le_of_lt_succ (length_unsignedNumber h)
  · exact Nat.zero_le _

theorem length_numberToken (negative : Bool) (rest : List UInt8) :
    (numberToken negative rest).2.length ≤ rest.length := by
  unfold numberToken
  split
  · next h => exact Nat.le_of_lt (length_unsignedNumber h)
  · exact Nat.zero_le _

def punctuation? (b : UInt8) : Option Token :=
  if b = 0x7B then some (.opening .object)
  else if b = 0x7D then some (.closing .object)
  else if b = 0x5B then some (.opening .array)
  else if b = 0x5D then some (.closing .array)
  else if b = 0x2C then some .comma
  else if b = 0x3A then some .colon
  else none

/-- The literal that begins with a byte, and its other bytes. -/
def literalStart? (b : UInt8) : Option (Literal × List UInt8) :=
  if b = 0x6E then some (.null, [0x75, 0x6C, 0x6C])
  else if b = 0x74 then some (.true, [0x72, 0x75, 0x65])
  else if b = 0x66 then some (.false, [0x61, 0x6C, 0x73, 0x65])
  else none

def stringToken (rest : List UInt8) : Token × List UInt8 :=
  let read := stringRest [] rest
  (.string read.1 read.2.1, read.2.2)

def literalToken (l : Literal) (expected rest : List UInt8) : Token × List UInt8 :=
  let read := literalRest l expected rest
  (.literal read.1, read.2)

def token (b : UInt8) (rest : List UInt8) : Token × List UInt8 :=
  match punctuation? b with
  | some t => (t, rest)
  | none =>
      match literalStart? b with
      | some (l, expected) => literalToken l expected rest
      | none =>
          if b = 0x22 then stringToken rest
          else if b = 0x2D then numberToken true rest
          else if isDigit b then numberToken false (b :: rest)
          else (.stray, [])

/-- A token takes one byte at least. -/
theorem length_token (b : UInt8) (rest : List UInt8) :
    (token b rest).2.length ≤ rest.length := by
  unfold token
  split
  · exact Nat.le_refl _
  · split
    · exact length_literalRest _ _ rest
    · split
      · exact length_stringRest [] rest
      · split
        · exact length_numberToken true rest
        · split
          · exact length_numberToken_cons false b rest
          · exact Nat.zero_le _

def tokens : List UInt8 → List Token
  | [] => []
  | b :: rest =>
      if isBlank b then tokens rest
      else (token b rest).1 :: tokens (token b rest).2
termination_by bytes => bytes.length
decreasing_by
  · simp
  · have := length_token b rest
    simp only [List.length_cons]
    omega

end EventLog.Json
