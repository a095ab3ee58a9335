import EventLog.Json.Value
import EventLog.Text.Digits

set_option autoImplicit false

/-! # Writing JSON

A value is written on one line without blanks (`Json.compact`), or with every element and member
on a line of its own, indented by four spaces for each level (`Json.indented`). An empty array or
object is written as two brackets in both forms.

Strings escape the quote, the backslash and the control characters below U+0020, the latter by a
letter where JSON has one and else by four hexadecimal digits; every other character is written as
it is.
-/

namespace EventLog.Json

def controlLetter? (c : Char) : Option Char :=
  if c = '\x08' then some 'b'
  else if c = '\t' then some 't'
  else if c = '\n' then some 'n'
  else if c = '\x0c' then some 'f'
  else if c = '\r' then some 'r'
  else none

def escape (c : Char) : List Char :=
  if c = '"' ∨ c = '\\' then ['\\', c]
  else if c.toNat < 0x20 then
    match controlLetter? c with
    | some letter => ['\\', letter]
    | none => '\\' :: 'u' :: paddedDigits 16 4 c.toNat
  else [c]

def quoted (s : String) : List Char := '"' :: (s.toList.flatMap escape ++ ['"'])

def objectBrackets : Char × Char := ('\x7b', '\x7d')

def scalar : Json → List Char
  | null => "null".toList
  | bool true => "true".toList
  | bool false => "false".toList
  | int n => (toString n).toList
  | real => "0.0".toList
  | string s => quoted s
  | array _ => "[]".toList
  | object _ => [objectBrackets.1, objectBrackets.2]

mutual

def compactChars : Json → List Char
  | array (x :: xs) => '[' :: (compactChars x ++ compactElements xs ++ [']'])
  | object ((k, v) :: ms) =>
      objectBrackets.1 ::
        (quoted k ++ ':' :: compactChars v ++ compactMembers ms ++ [objectBrackets.2])
  | v => scalar v

def compactElements : List Json → List Char
  | [] => []
  | x :: xs => ',' :: (compactChars x ++ compactElements xs)

def compactMembers : List (String × Json) → List Char
  | [] => []
  | (k, v) :: ms => ',' :: (quoted k ++ ':' :: compactChars v ++ compactMembers ms)

end

def newLine (level : Nat) : List Char := '\n' :: List.replicate (4 * level) ' '

mutual

/-- A value on several lines, whose first line is at the given level. -/
def indentedChars (level : Nat) : Json → List Char
  | array (x :: xs) =>
      '[' :: (newLine (level + 1) ++ indentedChars (level + 1) x ++
        indentedElements (level + 1) xs ++ newLine level ++ [']'])
  | object ((k, v) :: ms) =>
      objectBrackets.1 ::
        (newLine (level + 1) ++ quoted k ++ ':' :: ' ' :: indentedChars (level + 1) v ++
          indentedMembers (level + 1) ms ++ newLine level ++ [objectBrackets.2])
  | v => scalar v

/-- The elements after the first, each on lines of its own. -/
def indentedElements (level : Nat) : List Json → List Char
  | [] => []
  | x :: xs => ',' :: (newLine level ++ indentedChars level x ++ indentedElements level xs)

/-- The members after the first, each on lines of its own. -/
def indentedMembers (level : Nat) : List (String × Json) → List Char
  | [] => []
  | (k, v) :: ms =>
      ',' :: (newLine level ++ quoted k ++ ':' :: ' ' :: indentedChars level v ++
        indentedMembers level ms)

end

def compact (v : Json) : String := String.ofList (compactChars v)

def indented (v : Json) : String := String.ofList (indentedChars 0 v)

def text (indent : Bool) (v : Json) : String := if indent then indented v else compact v

end EventLog.Json
