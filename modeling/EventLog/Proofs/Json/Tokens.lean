import EventLog.Proofs.Json.Text

set_option autoImplicit false

/-! # The tokens of a printed value

A value has the same tokens (`Json.tokensOf`) whether it is printed on one line or on several:
blanks between tokens are not seen. The tokens of a text are put together from those of its parts
(`Json.Spells`), where only a number has to end before what follows it.
-/

namespace EventLog.Json

/-! ## Values that can be read back -/

/-- An integer that fits in 64 bits, with or without sign. -/
def InRange (n : Int) : Prop := -(UInt64.size : Int) ≤ 2 * n ∧ n < UInt64.size

/-- A value without elements and members; an integer has to fit in 64 bits. -/
def Atomic : Json → Prop
  | int n => InRange n
  | array _ => False
  | object _ => False
  | _ => True

/-- Arrays and objects are nested to the given depth at most, and integers fit in 64 bits. -/
def Fits : Nat → Json → Prop
  | depth + 1, array xs => ∀ x ∈ xs, Fits depth x
  | depth + 1, object ms => ∀ m ∈ ms, Fits depth m.2
  | _, v => v.Atomic

/-! ## Tokens of a value -/

def stringTokenOf (s : String) : Token := .string (s.toList.flatMap pieces) none

mutual

def tokensOf : Json → List Token
  | null => [.literal (.ok .null)]
  | bool true => [.literal (.ok .true)]
  | bool false => [.literal (.ok .false)]
  | int n => [.number (.ok (.integer n))]
  | real => [.number (.ok .real)]
  | string s => [stringTokenOf s]
  | array [] => [.opening .array, .closing .array]
  | array (x :: xs) => .opening .array :: (tokensOf x ++ elementTokens xs ++ [.closing .array])
  | object [] => [.opening .object, .closing .object]
  | object ((k, v) :: ms) =>
      .opening .object ::
        (stringTokenOf k :: .colon :: tokensOf v ++ memberTokens ms ++ [.closing .object])

def elementTokens : List Json → List Token
  | [] => []
  | x :: xs => .comma :: (tokensOf x ++ elementTokens xs)

def memberTokens : List (String × Json) → List Token
  | [] => []
  | (k, v) :: ms => .comma :: stringTokenOf k :: .colon :: (tokensOf v ++ memberTokens ms)

end

/-! ## Texts that do not continue a number -/

/-- The text does not continue a number that stands before it. -/
def Ends (text : List Char) : Prop := EndsNumber (Utf8.encode text)

theorem ends_nil : Ends [] := by
  intro b hb
  cases hb

theorem ends_cons {c : Char} {b : UInt8} (hc : String.utf8EncodeChar c = [b])
    (hb : isDigit b = false ∧ b ≠ 0x2E ∧ b ≠ 0x65 ∧ b ≠ 0x45) (text : List Char) :
    Ends (c :: text) := by
  intro first hfirst
  rw [Utf8.encode_cons, hc] at hfirst
  cases hfirst
  exact hb

theorem ends_comma (text : List Char) : Ends (',' :: text) := ends_cons rfl (by decide) text

theorem ends_newLine (level : Nat) (text : List Char) : Ends (newLine level ++ text) :=
  ends_cons (c := '\n') rfl (by decide) _

theorem Ends.append {text more : List Char} (h : Ends text) (hmore : Ends more) :
    Ends (text ++ more) := by
  intro b hb
  rw [Utf8.encode_append] at hb
  cases hbytes : Utf8.encode text with
  | nil =>
      rw [hbytes] at hb
      exact hmore b hb
  | cons first bytes =>
      rw [hbytes] at hb
      exact h b (hbytes ▸ hb)

/-! ## Tokens of a text -/

def lex (text : List Char) : List Token := tokens (Utf8.encode text)

/-- The text is read as the tokens, whatever follows it that does not continue a number. -/
def Spells (text : List Char) (ts : List Token) : Prop :=
  ∀ more, Ends more → lex (text ++ more) = ts ++ lex more

theorem lex_of_spells {text : List Char} {ts : List Token} (h : Spells text ts) : lex text = ts := by
  have hlex := h [] ends_nil
  rwa [List.append_nil, lex, lex, Utf8.encode_nil, tokens, List.append_nil] at hlex

theorem Spells.append {text text' : List Char} {ts ts' : List Token} (h : Spells text ts)
    (h' : Spells text' ts') (hends : Ends text') : Spells (text ++ text') (ts ++ ts') := by
  intro more hmore
  rw [List.append_assoc, h _ (hends.append hmore), h' more hmore, List.append_assoc]

theorem spells_nil : Spells [] [] := fun _ _ => rfl

/-- A bracket, comma or colon is a token of its own. -/
theorem Spells.cons {c : Char} {b : UInt8} {t : Token} {text : List Char} {ts : List Token}
    (hc : String.utf8EncodeChar c = [b]) (hblank : isBlank b = false)
    (ht : punctuation? b = some t) (h : Spells text ts) : Spells (c :: text) (t :: ts) := by
  intro more hmore
  have htoken : token b (Utf8.encode (text ++ more)) = (t, Utf8.encode (text ++ more)) := by
    rw [token, ht]
  have htext := h more hmore
  rw [lex] at htext
  rw [List.cons_append, lex, Utf8.encode_cons, hc, List.singleton_append, tokens_cons hblank, htoken,
    htext]
  rfl

/-- A blank before a text is not seen. -/
theorem Spells.blank {c : Char} {b : UInt8} {text : List Char} {ts : List Token}
    (hc : String.utf8EncodeChar c = [b]) (hblank : isBlank b = true) (h : Spells text ts) :
    Spells (c :: text) ts := by
  intro more hmore
  have htext := h more hmore
  rw [lex] at htext
  rw [List.cons_append, lex, Utf8.encode_cons, hc, List.singleton_append, tokens, if_pos hblank,
    htext]

theorem Spells.spaces {text : List Char} {ts : List Token} (n : Nat) (h : Spells text ts) :
    Spells (List.replicate n ' ' ++ text) ts := by
  induction n with
  | zero => exact h
  | succ n ih => exact ih.blank (c := ' ') rfl rfl

theorem Spells.newLine {text : List Char} {ts : List Token} (level : Nat) (h : Spells text ts) :
    Spells (newLine level ++ text) ts :=
  (h.spaces (4 * level)).blank (c := '\n') rfl rfl

theorem Spells.comma {text : List Char} {ts : List Token} (h : Spells text ts) :
    Spells (',' :: text) (.comma :: ts) := h.cons rfl rfl rfl

theorem Spells.colon {text : List Char} {ts : List Token} (h : Spells text ts) :
    Spells (':' :: text) (.colon :: ts) := h.cons rfl rfl rfl

/-- Brackets around a text. -/
theorem Spells.inBrackets {c c' : Char} {b b' : UInt8} {t t' : Token} {text : List Char}
    {ts : List Token} (hc : String.utf8EncodeChar c = [b]) (hblank : isBlank b = false)
    (ht : punctuation? b = some t) (hc' : String.utf8EncodeChar c' = [b'])
    (hblank' : isBlank b' = false) (ht' : punctuation? b' = some t')
    (hends : isDigit b' = false ∧ b' ≠ 0x2E ∧ b' ≠ 0x65 ∧ b' ≠ 0x45) (h : Spells text ts) :
    Spells (c :: (text ++ [c'])) (t :: (ts ++ [t'])) :=
  (h.append (spells_nil.cons hc' hblank' ht') (ends_cons hc' hends [])).cons hc hblank ht

theorem Spells.inArray {text : List Char} {ts : List Token} (h : Spells text ts) :
    Spells ('[' :: (text ++ [']'])) (.opening .array :: (ts ++ [.closing .array])) :=
  h.inBrackets rfl rfl rfl rfl rfl rfl (by decide)

theorem Spells.inObject {text : List Char} {ts : List Token} (h : Spells text ts) :
    Spells (objectBrackets.1 :: (text ++ [objectBrackets.2]))
      (.opening .object :: (ts ++ [.closing .object])) :=
  h.inBrackets rfl rfl rfl rfl rfl rfl (by decide)

theorem spells_quoted (s : String) : Spells (quoted s) [stringTokenOf s] :=
  fun more _ => tokens_quoted s more

/-! ## Values without elements and members -/

/-- The digits of a number, with a minus sign if it is negative. -/
theorem toList_toString_int (n : Int) :
    (toString n).toList =
      if 0 ≤ n then Nat.toDigits 10 n.toNat else '-' :: Nat.toDigits 10 (-n).toNat := by
  rw [Int.toString_eq_repr, Int.repr_eq_if]
  split
  · rw [Nat.repr_eq_ofList_toDigits, String.toList_ofList]
  · rw [Nat.repr_eq_ofList_toDigits, String.toList_append, String.toList_ofList,
      String.toList_ofList]
    rfl

theorem encode_toDigits (n : Nat) : Utf8.encode (Nat.toDigits 10 n) = digits n := by
  refine Utf8.encode_of_plain fun c hc => ?_
  obtain ⟨d, hd, rfl⟩ := exists_digit_of_mem_toDigits (by decide) hc
  rw [Plain, toNat_digitChar hd]
  omega

theorem spells_int {n : Int} (h : InRange n) :
    Spells (toString n).toList [.number (.ok (.integer n))] := by
  intro more hmore
  rw [toList_toString_int, lex, Utf8.encode_append]
  -- A number below zero is a minus and the digits of its opposite, which may be 2⁶³.
  split
  · next hpos =>
      have hlt : n.toNat < UInt64.size := by
        have := h.2
        omega
      rw [encode_toDigits, tokens_digits hlt hmore, Int.toNat_of_nonneg hpos]
      rfl
  · next hneg =>
      have hpos : 0 < (-n).toNat := by omega
      have hle : 2 * (-n).toNat ≤ UInt64.size := by
        have := h.1
        omega
      have hbytes : Utf8.encode ('-' :: Nat.toDigits 10 (-n).toNat) = 0x2D :: digits (-n).toNat := by
        rw [Utf8.encode_cons, encode_toDigits]
        rfl
      have hvalue : -((-n).toNat : Int) = n := by omega
      rw [hbytes, List.cons_append, tokens_minus_digits hpos hle hmore, hvalue]
      rfl

theorem literalRest_append (l : Literal) (expected rest : List UInt8) :
    literalRest l expected (expected ++ rest) = (.ok l, rest) := by
  induction expected with
  | nil => rfl
  | cons e expected ih => rw [List.cons_append, literalRest, if_pos rfl, ih]

theorem spells_literal {text : List Char} {b : UInt8} {l : Literal} {expected : List UInt8}
    (htext : Utf8.encode text = b :: expected) (hblank : isBlank b = false)
    (hpunctuation : punctuation? b = none) (hstart : literalStart? b = some (l, expected)) :
    Spells text [.literal (.ok l)] := by
  intro more _
  have htoken (rest : List UInt8) : token b (expected ++ rest) = (.literal (.ok l), rest) := by
    rw [token, hpunctuation, hstart]
    simp only [literalToken, literalRest_append]
  rw [lex, Utf8.encode_append, htext, List.cons_append, tokens_cons hblank, htoken]
  rfl

theorem spells_real : Spells "0.0".toList [.number (.ok .real)] := by
  intro more hmore
  -- The point decides: without it the same digit would be an integer.
  have hread : unsignedNumber false (digits 0 ++ 0x2E :: 0x30 :: Utf8.encode more) =
      .ok (.real, Utf8.encode more) := by
    have hfraction : fractionPart (0x2E :: ([0x30] ++ Utf8.encode more)) =
        .ok (some [0x30], Utf8.encode more) := by
      rw [fractionPart, if_pos rfl,
        someDigits_append (List.cons_ne_nil _ _) (List.forall_mem_singleton.mpr rfl) hmore.endsDigits]
      rfl
    refine bind_eq_ok.mpr ⟨_, wholePart_digits 0 (endsDigits_cons rfl _), ?_⟩
    refine bind_eq_ok.mpr ⟨_, hfraction, ?_⟩
    exact bind_eq_ok.mpr ⟨_, exponentPart_eq hmore, rfl⟩
  have htext : Utf8.encode ("0.0".toList ++ more) =
      0x30 :: 0x2E :: 0x30 :: Utf8.encode more := rfl
  have htoken : token 0x30 (0x2E :: 0x30 :: Utf8.encode more) =
      (.number (.ok .real), Utf8.encode more) := by
    rw [token_digit rfl, numberToken]
    exact hread ▸ rfl
  rw [lex, htext, tokens_cons rfl, htoken]
  rfl

theorem spells_scalar {v : Json} (h : v.Atomic) : Spells (scalar v) (tokensOf v) := by
  cases v with
  | null => exact spells_literal rfl rfl rfl rfl
  | bool b =>
      cases b with
      | true => exact spells_literal rfl rfl rfl rfl
      | false => exact spells_literal rfl rfl rfl rfl
  | int n => exact spells_int h
  | real => exact spells_real
  | string s => exact spells_quoted s
  | array xs => exact h.elim
  | object ms => exact h.elim

/-! ## Members -/

/-- A member is spelled by its name, a colon and its value. -/
theorem Spells.member {name text : List Char} {k : String} {ts : List Token}
    (hname : Spells name [stringTokenOf k]) (h : Spells text ts) :
    Spells (name ++ ':' :: text) (stringTokenOf k :: .colon :: ts) :=
  hname.append h.colon (ends_cons rfl (by decide) _)

/-! ## Values on one line -/

theorem ends_compactElements (xs : List Json) : Ends (compactElements xs) := by
  cases xs with
  | nil => exact ends_nil
  | cons x xs => exact ends_comma _

theorem ends_compactMembers (ms : List (String × Json)) : Ends (compactMembers ms) := by
  cases ms with
  | nil => exact ends_nil
  | cons m ms => exact ends_comma _

theorem spells_compactElements {xs : List Json}
    (h : ∀ x ∈ xs, Spells (compactChars x) (tokensOf x)) :
    Spells (compactElements xs) (elementTokens xs) := by
  induction xs with
  | nil => exact spells_nil
  | cons x xs ih =>
      obtain ⟨hx, hxs⟩ := List.forall_mem_cons.mp h
      exact (hx.append (ih hxs) (ends_compactElements xs)).comma

theorem spells_compactMembers {ms : List (String × Json)}
    (h : ∀ m ∈ ms, Spells (compactChars m.2) (tokensOf m.2)) :
    Spells (compactMembers ms) (memberTokens ms) := by
  induction ms with
  | nil => exact spells_nil
  | cons m ms ih =>
      obtain ⟨k, v⟩ := m
      obtain ⟨hv, hms⟩ := List.forall_mem_cons.mp h
      have hmember := (spells_quoted k).member hv
      exact (hmember.append (ih hms) (ends_compactMembers ms)).comma

/-- A value on one line has its tokens. -/
theorem spells_compactChars {depth : Nat} {v : Json} (h : v.Fits depth) :
    Spells (compactChars v) (tokensOf v) := by
  -- On the depth; an element ends before the comma or bracket that follows it.
  induction depth generalizing v with
  | zero =>
      cases v with
      | array xs => exact h.elim
      | object ms => exact h.elim
      | _ => exact spells_scalar h
  | succ depth ih =>
      cases v with
      | array xs =>
          cases xs with
          | nil => exact spells_nil.inArray
          | cons x xs =>
              obtain ⟨hx, hxs⟩ := List.forall_mem_cons.mp h
              have helements := spells_compactElements fun y hy => ih (hxs y hy)
              exact ((ih hx).append helements (ends_compactElements xs)).inArray
      | object ms =>
          cases ms with
          | nil => exact spells_nil.inObject
          | cons m ms =>
              obtain ⟨k, v⟩ := m
              obtain ⟨hv, hms⟩ := List.forall_mem_cons.mp h
              have hmembers := spells_compactMembers fun m hm => ih (hms m hm)
              have hfirst := (spells_quoted k).member (ih hv)
              exact (hfirst.append hmembers (ends_compactMembers ms)).inObject
      | _ => exact spells_scalar h

/-! ## Values on several lines -/

theorem spells_newLine (level : Nat) : Spells (newLine level) [] := by
  have h := spells_nil.newLine level
  rwa [List.append_nil] at h

theorem ends_indentedElements (level : Nat) (xs : List Json) :
    Ends (indentedElements level xs) := by
  cases xs with
  | nil => exact ends_nil
  | cons x xs => exact ends_comma _

theorem ends_indentedMembers (level : Nat) (ms : List (String × Json)) :
    Ends (indentedMembers level ms) := by
  cases ms with
  | nil => exact ends_nil
  | cons m ms => exact ends_comma _

theorem spells_indentedElements {level : Nat} {xs : List Json}
    (h : ∀ x ∈ xs, Spells (indentedChars level x) (tokensOf x)) :
    Spells (indentedElements level xs) (elementTokens xs) := by
  induction xs with
  | nil => exact spells_nil
  | cons x xs ih =>
      obtain ⟨hx, hxs⟩ := List.forall_mem_cons.mp h
      exact ((hx.newLine level).append (ih hxs) (ends_indentedElements level xs)).comma

/-- On several lines, a blank stands between the colon of a member and its value. -/
theorem spells_indentedMember (level : Nat) (k : String) {text : List Char} {ts : List Token}
    (h : Spells text ts) :
    Spells (newLine level ++ quoted k ++ ':' :: ' ' :: text) (stringTokenOf k :: .colon :: ts) :=
  ((spells_quoted k).newLine level).member (h.blank rfl rfl)

theorem spells_indentedMembers {level : Nat} {ms : List (String × Json)}
    (h : ∀ m ∈ ms, Spells (indentedChars level m.2) (tokensOf m.2)) :
    Spells (indentedMembers level ms) (memberTokens ms) := by
  induction ms with
  | nil => exact spells_nil
  | cons m ms ih =>
      obtain ⟨k, v⟩ := m
      obtain ⟨hv, hms⟩ := List.forall_mem_cons.mp h
      have hmember := spells_indentedMember level k hv
      exact (hmember.append (ih hms) (ends_indentedMembers level ms)).comma

/-- A line break before the closing bracket is not seen. -/
theorem Spells.lastLine {text : List Char} {ts : List Token} (level : Nat) (h : Spells text ts) :
    Spells (text ++ Json.newLine level) ts := by
  have hends : Ends (Json.newLine level) := by
    have h := ends_newLine level []
    rwa [List.append_nil] at h
  have hlast := h.append (spells_newLine level) hends
  rwa [List.append_nil] at hlast

/-- A value on several lines has its tokens. -/
theorem spells_indentedChars {depth : Nat} {v : Json} (h : v.Fits depth) (level : Nat) :
    Spells (indentedChars level v) (tokensOf v) := by
  -- On the depth, as for the compact form; the level only changes blanks, which are no tokens.
  induction depth generalizing v level with
  | zero =>
      cases v with
      | array xs => exact h.elim
      | object ms => exact h.elim
      | _ => exact spells_scalar h
  | succ depth ih =>
      cases v with
      | array xs =>
          cases xs with
          | nil => exact spells_nil.inArray
          | cons x xs =>
              obtain ⟨hx, hxs⟩ := List.forall_mem_cons.mp h
              have hfirst := (ih hx (level + 1)).newLine (level + 1)
              have helements := spells_indentedElements fun y hy => ih (hxs y hy) (level + 1)
              have hall := hfirst.append helements (ends_indentedElements (level + 1) xs)
              exact (hall.lastLine level).inArray
      | object ms =>
          cases ms with
          | nil => exact spells_nil.inObject
          | cons m ms =>
              obtain ⟨k, v⟩ := m
              obtain ⟨hv, hms⟩ := List.forall_mem_cons.mp h
              have hfirst := spells_indentedMember (level + 1) k (ih hv (level + 1))
              have hmembers := spells_indentedMembers fun m hm => ih (hms m hm) (level + 1)
              have hall := hfirst.append hmembers (ends_indentedMembers (level + 1) ms)
              exact (hall.lastLine level).inObject
      | _ => exact spells_scalar h

/-- **A printed value has its tokens**, on one line and on several. -/
theorem tokens_text {depth : Nat} {v : Json} (h : v.Fits depth) (indent : Bool) :
    tokens (Utf8.ofString (v.text indent)) = tokensOf v := by
  cases indent with
  | false =>
      show tokens (Utf8.encode (String.ofList (compactChars v)).toList) = tokensOf v
      rw [String.toList_ofList]
      exact lex_of_spells (spells_compactChars h)
  | true =>
      show tokens (Utf8.encode (String.ofList (indentedChars 0 v)).toList) = tokensOf v
      rw [String.toList_ofList]
      exact lex_of_spells (spells_indentedChars h 0)

end EventLog.Json
