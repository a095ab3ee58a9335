import EventLog.Proofs.Json.Tokens

set_option autoImplicit false

/-! # Values on one line

Strings escape control characters, and nothing else that is printed for a value on one line is one
(`Json.uncontrolled_compactChars`). So the text is a line, whatever the strings and names in it
hold, and its bytes are none that ends a line (`Json.newline_not_mem_compact`).
-/

namespace EventLog.Json

/-- Characters without a control character below U+0020 among them. -/
def Uncontrolled (cs : List Char) : Prop := ∀ c ∈ cs, 0x20 ≤ c.toNat

instance (cs : List Char) : Decidable (Uncontrolled cs) :=
  List.decidableBAll (fun c : Char => 0x20 ≤ c.toNat) cs

theorem uncontrolled_nil : Uncontrolled [] := List.forall_mem_nil _

theorem uncontrolled_cons {c : Char} {cs : List Char} (hc : 0x20 ≤ c.toNat) (h : Uncontrolled cs) :
    Uncontrolled (c :: cs) := List.forall_mem_cons.mpr ⟨hc, h⟩

theorem uncontrolled_append {cs ds : List Char} (h : Uncontrolled cs) (h' : Uncontrolled ds) :
    Uncontrolled (cs ++ ds) := List.forall_mem_append.mpr ⟨h, h'⟩

/-- Brackets around a text. -/
theorem uncontrolled_inBrackets {c c' : Char} (hc : 0x20 ≤ c.toNat) (hc' : 0x20 ≤ c'.toNat)
    {cs : List Char} (h : Uncontrolled cs) : Uncontrolled (c :: (cs ++ [c'])) :=
  uncontrolled_cons hc (uncontrolled_append h (uncontrolled_cons hc' uncontrolled_nil))

/-! ## Strings and numbers -/

theorem toNat_digitChar_ge {d : Nat} (h : d < 16) : 0x20 ≤ d.digitChar.toNat := by
  have hdigits : ∀ d < 16, 0x20 ≤ d.digitChar.toNat := by decide
  exact hdigits d h

theorem uncontrolled_toDigits (n : Nat) : Uncontrolled (Nat.toDigits 10 n) := by
  intro c hc
  obtain ⟨d, hd, rfl⟩ := exists_digit_of_mem_toDigits (by decide) hc
  exact toNat_digitChar_ge (by omega)

theorem uncontrolled_paddedDigits (width n : Nat) : Uncontrolled (paddedDigits 16 width n) := by
  intro c hc
  obtain ⟨d, hd, rfl⟩ := exists_digit_of_mem_paddedDigits (by decide) hc
  exact toNat_digitChar_ge hd

theorem le_of_controlLetter? {c letter : Char} (h : controlLetter? c = some letter) :
    0x20 ≤ letter.toNat := by
  rw [controlLetter?] at h
  repeat' split at h
  all_goals cases h
  all_goals decide

/-- A control character in a string is escaped by others. -/
theorem uncontrolled_escape (c : Char) : Uncontrolled (escape c) := by
  rw [escape]
  -- Three kinds of character: escaped by itself, a control, and all the others.
  split
  · next hself =>
      refine uncontrolled_cons (by decide) (uncontrolled_cons ?_ uncontrolled_nil)
      rcases hself with rfl | rfl <;> decide
  · split
    · split
      · next letter hletter =>
          exact uncontrolled_cons (by decide)
            (uncontrolled_cons (le_of_controlLetter? hletter) uncontrolled_nil)
      · exact uncontrolled_cons (by decide)
          (uncontrolled_cons (by decide) (uncontrolled_paddedDigits 4 _))
    · next hcontrol => exact uncontrolled_cons (Nat.le_of_not_lt hcontrol) uncontrolled_nil

theorem uncontrolled_quoted (s : String) : Uncontrolled (quoted s) := by
  refine uncontrolled_inBrackets (by decide) (by decide) fun c hc => ?_
  obtain ⟨d, -, hd⟩ := List.mem_flatMap.mp hc
  exact uncontrolled_escape d c hd

theorem uncontrolled_scalar (v : Json) : Uncontrolled (scalar v) := by
  cases v with
  | null => decide
  | bool b => cases b <;> decide
  | int n =>
      show Uncontrolled (toString n).toList
      rw [toList_toString_int]
      split
      · exact uncontrolled_toDigits _
      · exact uncontrolled_cons (by decide) (uncontrolled_toDigits _)
  | real => decide
  | string s => exact uncontrolled_quoted s
  | array xs =>
      show Uncontrolled "[]".toList
      decide
  | object ms =>
      show Uncontrolled [objectBrackets.1, objectBrackets.2]
      decide

/-! ## Values -/

theorem uncontrolled_member (k : String) {cs : List Char} (h : Uncontrolled cs) :
    Uncontrolled (quoted k ++ ':' :: cs) :=
  uncontrolled_append (uncontrolled_quoted k) (uncontrolled_cons (by decide) h)

mutual

/-- **No control character is printed for a value on one line**. -/
theorem uncontrolled_compactChars : ∀ v : Json, Uncontrolled (compactChars v)
  | .null => uncontrolled_scalar .null
  | .bool b => uncontrolled_scalar (.bool b)
  | .int n => uncontrolled_scalar (.int n)
  | .real => uncontrolled_scalar .real
  | .string s => uncontrolled_scalar (.string s)
  | .array [] => uncontrolled_scalar (.array [])
  | .object [] => uncontrolled_scalar (.object [])
  | .array (x :: xs) => by
      have helements := uncontrolled_append (uncontrolled_compactChars x)
        (uncontrolled_compactElements xs)
      exact uncontrolled_inBrackets (by decide) (by decide) helements
  | .object ((k, v) :: ms) => by
      have hmembers := uncontrolled_append (uncontrolled_member k (uncontrolled_compactChars v))
        (uncontrolled_compactMembers ms)
      exact uncontrolled_inBrackets (by decide) (by decide) hmembers

theorem uncontrolled_compactElements : ∀ xs : List Json, Uncontrolled (compactElements xs)
  | [] => uncontrolled_nil
  | x :: xs => by
      have hrest := uncontrolled_append (uncontrolled_compactChars x)
        (uncontrolled_compactElements xs)
      exact uncontrolled_cons (by decide) hrest

theorem uncontrolled_compactMembers : ∀ ms : List (String × Json), Uncontrolled (compactMembers ms)
  | [] => uncontrolled_nil
  | (k, v) :: ms => by
      have hrest := uncontrolled_append (uncontrolled_member k (uncontrolled_compactChars v))
        (uncontrolled_compactMembers ms)
      exact uncontrolled_cons (by decide) hrest

end

/-- The bytes of a value on one line hold no line end. -/
theorem newline_not_mem_compact (v : Json) : (10 : UInt8) ∉ Utf8.ofString (compact v) := by
  rw [Utf8.ofString, compact, String.toList_ofList]
  intro hmem
  obtain ⟨c, hc, hbyte⟩ := List.mem_flatMap.mp hmem
  have hchar := uncontrolled_compactChars v c hc
  have hnumber : (10 : UInt8).toNat = 10 := rfl
  have := Utf8.mem_utf8EncodeChar hbyte
  omega

end EventLog.Json
