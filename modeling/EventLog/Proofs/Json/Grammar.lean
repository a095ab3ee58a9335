import EventLog.Proofs.Json.Lexemes
import EventLog.Proofs.Json.Sequence

set_option autoImplicit false

/-! # JSON texts

A value is written by its lexemes, which are the brackets, commas and colons of its arrays and
objects, its strings and numbers and the words of its literals (`Json.Lexemes`), with any blanks
before, between and behind them (`Json.Spaced`). Every such text (`Json.Writes`) is read as tokens of
the value, one for each lexeme (`Json.Writes.hasTokens`).
-/

namespace EventLog.Json

/-! ## Values -/

/-- What holds of scalars, and of arrays and objects if it holds of their elements and members,
holds of every value. -/
@[elab_as_elim]
theorem induct {motive : Json → Prop} (null : motive .null) (bool : ∀ b, motive (.bool b))
    (int : ∀ n, motive (.int n)) (real : motive .real) (string : ∀ s, motive (.string s))
    (array : ∀ xs, (∀ x ∈ xs, motive x) → motive (.array xs))
    (object : ∀ ms, (∀ m ∈ ms, motive m.2) → motive (.object ms)) (v : Json) : motive v :=
  match v with
  | .null => null
  | .bool b => bool b
  | .int n => int n
  | .real => real
  | .string s => string s
  | .array xs => array xs fun x _ => induct null bool int real string array object x
  | .object ms => object ms fun m _ => induct null bool int real string array object m.2
termination_by sizeOf v
decreasing_by
  · next hx =>
      have := List.sizeOf_lt_of_mem hx
      simp only [Json.array.sizeOf_spec]
      omega
  · next hm =>
      have := List.sizeOf_lt_of_mem hm
      have : sizeOf m = 1 + sizeOf m.1 + sizeOf m.2 := rfl
      simp only [Json.object.sizeOf_spec]
      omega

/-! ## Lexemes -/

/-- The lexemes of a member: its name, a colon and the lexemes of its value. -/
inductive MemberLexemes (value : Json → List (List Char) → Prop) :
    String × Json → List (List Char) → Prop
  | intro {k : String} {v : Json} {name : List Char} {ls : List (List Char)}
      (hname : StringText k name) (hvalue : value v ls) :
      MemberLexemes value (k, v) (name :: [':'] :: ls)

/-- The ways in which a value may be written, as lists of lexemes. An integer of 64 bits is written
by its decimal digits, and a number of any form is `real`. -/
inductive Lexemes : Json → List (List Char) → Prop
  | null : Lexemes .null ["null".toList]
  | bool (b : Bool) : Lexemes (.bool b) [(if b then "true" else "false").toList]
  | int {n : Int} (h : InRange n) : Lexemes (.int n) [(toString n).toList]
  | real {text : List Char} (h : NumberText text) : Lexemes .real [text]
  | string {s : String} {text : List Char} (h : StringText s text) : Lexemes (.string s) [text]
  | array {xs : List Json} {parts : List (List (List Char))} (h : List.Forall₂ Lexemes xs parts) :
      Lexemes (.array xs) (['['] :: (separated [','] parts ++ [[']']]))
  | object {ms : List (String × Json)} {parts : List (List (List Char))}
      (h : List.Forall₂ (MemberLexemes Lexemes) ms parts) :
      Lexemes (.object ms)
        ([objectBrackets.1] :: (separated [','] parts ++ [[objectBrackets.2]]))

/-! ## Blanks -/

def Blanks (text : List Char) : Prop := ∀ c ∈ text, c ∈ [' ', '\n', '\t', '\r']

/-- The text consists of the lexemes, with any blanks before, between and behind them. -/
inductive Spaced : List (List Char) → List Char → Prop
  | nil {blanks : List Char} (h : Blanks blanks) : Spaced [] blanks
  | cons {blanks l text : List Char} {ls : List (List Char)} (h : Blanks blanks)
      (hrest : Spaced ls text) : Spaced (l :: ls) (blanks ++ (l ++ text))

def Writes (v : Json) (text : List Char) : Prop := ∃ ls, Lexemes v ls ∧ Spaced ls text

/-- The text of lexemes with the given blanks before each of them and behind all. -/
theorem spaced_flatMap {parts : List (List Char × List Char)} {blanks : List Char}
    (h : ∀ p ∈ parts, Blanks p.1) (hlast : Blanks blanks) :
    Spaced (parts.map Prod.snd) (parts.flatMap (fun p => p.1 ++ p.2) ++ blanks) := by
  induction parts with
  | nil => exact .nil hlast
  | cons p parts ih =>
      obtain ⟨hp, hparts⟩ := List.forall_mem_cons.mp h
      rw [List.map_cons, List.flatMap_cons, List.append_assoc, List.append_assoc]
      exact .cons hp (ih hparts)

/-- Every value can be written whose integers fit in 64 bits. -/
theorem exists_lexemes {depth : Nat} {v : Json} (h : v.Fits depth) : ∃ ls, Lexemes v ls := by
  have hdigits : DigitsText ['0'] := ⟨List.cons_ne_nil _ _, List.forall_mem_singleton.mpr rfl⟩
  -- On the document; a number is written as its digits, every other value in its plainest form.
  induction v using induct generalizing depth with
  | null => exact ⟨_, .null⟩
  | bool b => exact ⟨_, .bool b⟩
  | int n => cases depth <;> exact ⟨_, .int h⟩
  | real => exact ⟨_, .real (.intro (.inl rfl) ⟨hdigits, fun _ => rfl⟩ .absent .absent)⟩
  | string s =>
      obtain ⟨text, htext⟩ := exists_stringText s
      exact ⟨_, .string htext⟩
  | array xs ih =>
      cases depth with
      | zero => exact h.elim
      | succ depth =>
          obtain ⟨parts, hparts⟩ := exists_forall₂ fun x hx => ih x hx (h x hx)
          exact ⟨_, .array hparts⟩
  | object ms ih =>
      cases depth with
      | zero => exact h.elim
      | succ depth =>
          have hmember (m : String × Json) (hm : m ∈ ms) :
              ∃ part, MemberLexemes Lexemes m part := by
            obtain ⟨name, hname⟩ := exists_stringText m.1
            obtain ⟨ls, hls⟩ := ih m hm (h m hm)
            exact ⟨_, .intro hname hls⟩
          obtain ⟨parts, hparts⟩ := exists_forall₂ hmember
          exact ⟨_, .object hparts⟩

/-- No blanks are needed. -/
theorem spaced_flatten (ls : List (List Char)) : Spaced ls ls.flatten := by
  induction ls with
  | nil => exact .nil (List.forall_mem_nil _)
  | cons l ls ih => exact .cons (List.forall_mem_nil _) ih

theorem exists_text {depth : Nat} {v : Json} (h : v.Fits depth) : ∃ text, v.Writes text := by
  obtain ⟨ls, hlexemes⟩ := exists_lexemes h
  exact ⟨ls.flatten, ls, hlexemes, spaced_flatten ls⟩

theorem blank_of_mem {c : Char} (h : c ∈ [' ', '\n', '\t', '\r']) :
    ∃ b, String.utf8EncodeChar c = [b] ∧ isBlank b = true ∧ isDigit b = false ∧
      b ≠ 0x2E ∧ b ≠ 0x65 ∧ b ≠ 0x45 := by
  simp only [List.mem_cons, List.not_mem_nil, or_false] at h
  rcases h with rfl | rfl | rfl | rfl
  · exact ⟨0x20, rfl, rfl, by decide⟩
  · exact ⟨0x0A, rfl, rfl, by decide⟩
  · exact ⟨0x09, rfl, rfl, by decide⟩
  · exact ⟨0x0D, rfl, rfl, by decide⟩

theorem Blanks.ends {blanks : List Char} (h : Blanks blanks) : Ends blanks := by
  cases blanks with
  | nil => exact ends_nil
  | cons c blanks =>
      obtain ⟨b, hc, -, hb⟩ := blank_of_mem (h c List.mem_cons_self)
      exact ends_cons hc hb blanks

theorem Spells.blanks {blanks text : List Char} {ts : List Token} (hblanks : Blanks blanks)
    (h : Spells text ts) : Spells (blanks ++ text) ts := by
  induction blanks with
  | nil => exact h
  | cons c blanks ih =>
      obtain ⟨hfirst, hrest⟩ := List.forall_mem_cons.mp hblanks
      obtain ⟨b, hc, hblank, -⟩ := blank_of_mem hfirst
      exact (ih hrest).blank hc hblank

theorem spells_blanks {blanks : List Char} (h : Blanks blanks) : Spells blanks [] := by
  have hall := Spells.blanks h spells_nil
  rwa [List.append_nil] at hall

/-- A text of two lists of lexemes consists of a text of each. -/
theorem Spaced.split {ls ls' : List (List Char)} {text : List Char} (h : Spaced (ls ++ ls') text) :
    ∃ front back, text = front ++ back ∧ Spaced ls front ∧ Spaced ls' back := by
  induction ls generalizing text with
  | nil => exact ⟨[], text, rfl, .nil (List.forall_mem_nil _), h⟩
  | cons l ls ih =>
      cases h with
      | cons hblanks hrest =>
          obtain ⟨front, back, rfl, hfront, hback⟩ := ih hrest
          refine ⟨_, back, ?_, .cons hblanks hfront, hback⟩
          simp only [List.append_assoc]

/-! ## Lexemes as tokens -/

/-- Lexemes whose texts are read as their tokens. -/
def Readable (ls : List (List Char)) : Prop := ∀ text, Spaced ls text → Spells text (ls.flatMap lex)

/-- Lexemes no text of which continues a number before it. -/
def EndsBefore (ls : List (List Char)) : Prop := ∀ text, Spaced ls text → Ends text

theorem readable_nil : Readable [] := by
  intro text h
  cases h with
  | nil hblanks => exact spells_blanks hblanks

theorem endsBefore_nil : EndsBefore [] := by
  intro text h
  cases h with
  | nil hblanks => exact hblanks.ends

/-- A lexeme that is read as one token. -/
theorem Spells.readable {l : List Char} {t : Token} (h : Spells l [t]) : Readable [l] := by
  intro text hspaced
  cases hspaced with
  | cons hblanks hrest =>
      cases hrest with
      | nil hblanks' =>
          have hlexeme := h.append (spells_blanks hblanks') hblanks'.ends
          rw [List.flatMap_singleton, lex_of_spells h]
          rw [List.append_nil] at hlexeme
          exact Spells.blanks hblanks hlexeme

/-- A bracket, comma or colon is read as one token, whatever follows it. -/
theorem Readable.punctuation {c : Char} {b : UInt8} {t : Token} {ls : List (List Char)}
    (hc : String.utf8EncodeChar c = [b]) (hblank : isBlank b = false)
    (ht : punctuation? b = some t) (h : Readable ls) : Readable ([c] :: ls) := by
  intro text hspaced
  cases hspaced with
  | @cons _ _ text _ hblanks hrest =>
      have hlex : lex [c] = [t] := lex_of_spells (spells_nil.cons hc hblank ht)
      rw [List.flatMap_cons, hlex]
      exact Spells.blanks hblanks ((h text hrest).cons hc hblank ht)

theorem endsBefore_cons {c : Char} {b : UInt8} (hc : String.utf8EncodeChar c = [b])
    (hb : isDigit b = false ∧ b ≠ 0x2E ∧ b ≠ 0x65 ∧ b ≠ 0x45) (ls : List (List Char)) :
    EndsBefore ([c] :: ls) := by
  intro text hspaced
  cases hspaced with
  | @cons _ _ text _ hblanks hrest => exact hblanks.ends.append (ends_cons hc hb text)

theorem Readable.append {ls ls' : List (List Char)} (h : Readable ls) (h' : Readable ls')
    (hends : EndsBefore ls') : Readable (ls ++ ls') := by
  intro text hspaced
  obtain ⟨front, back, rfl, hfront, hback⟩ := hspaced.split
  rw [List.flatMap_append]
  exact (h front hfront).append (h' back hback) (hends back hback)

/-- Parts behind commas. -/
theorem readable_flatMap_comma {parts : List (List (List Char))} (h : ∀ part ∈ parts, Readable part) :
    Readable (parts.flatMap ([','] :: ·)) ∧ EndsBefore (parts.flatMap ([','] :: ·)) := by
  induction parts with
  | nil => exact ⟨readable_nil, endsBefore_nil⟩
  | cons part parts ih =>
      obtain ⟨hpart, hparts⟩ := List.forall_mem_cons.mp h
      obtain ⟨hreadable, hends⟩ := ih hparts
      rw [List.flatMap_cons, List.cons_append]
      exact ⟨(hpart.append hreadable hends).punctuation rfl rfl rfl,
        endsBefore_cons rfl (by decide) _⟩

/-- Parts with commas between them, in brackets. -/
theorem readable_inBrackets {c c' : Char} {b b' : UInt8} {t t' : Token}
    {parts : List (List (List Char))} (hc : String.utf8EncodeChar c = [b])
    (hblank : isBlank b = false) (ht : punctuation? b = some t)
    (hc' : String.utf8EncodeChar c' = [b']) (hblank' : isBlank b' = false)
    (ht' : punctuation? b' = some t')
    (hends : isDigit b' = false ∧ b' ≠ 0x2E ∧ b' ≠ 0x65 ∧ b' ≠ 0x45)
    (h : ∀ part ∈ parts, Readable part) :
    Readable ([c] :: (separated [','] parts ++ [[c']])) := by
  have hclosing : Readable [[c']] := readable_nil.punctuation hc' hblank' ht'
  have hendsClosing : EndsBefore [[c']] := endsBefore_cons hc' hends []
  refine Readable.punctuation hc hblank ht ?_
  cases parts with
  | nil => exact hclosing
  | cons part parts =>
      obtain ⟨hpart, hparts⟩ := List.forall_mem_cons.mp h
      obtain ⟨hmore, hendsMore⟩ := readable_flatMap_comma hparts
      exact (hpart.append hmore hendsMore).append hclosing hendsClosing

/-- The lexemes of a value are read as its tokens. -/
theorem Lexemes.readable {v : Json} {ls : List (List Char)} (h : Lexemes v ls) : Readable ls := by
  -- On the document: every lexeme must still be read as itself with the next one behind it.
  induction v using induct generalizing ls with
  | null =>
      cases h
      exact (spells_literal rfl rfl rfl rfl).readable
  | bool b =>
      cases h
      cases b <;> exact (spells_literal rfl rfl rfl rfl).readable
  | int n =>
      cases h with
      | int hrange => exact (spells_int hrange).readable
  | real =>
      cases h with
      | real hnumber =>
          obtain ⟨n, hn⟩ := hnumber.exists_token
          exact hn.readable
  | string s =>
      cases h with
      | string hstring =>
          obtain ⟨pieces, -, hpieces⟩ := hstring.exists_token
          exact hpieces.readable
  | array xs ih =>
      cases h with
      | @array _ parts hparts =>
          refine readable_inBrackets rfl rfl rfl rfl rfl rfl (by decide) fun part hpart => ?_
          obtain ⟨x, hx, hlexemes⟩ := exists_mem_of_forall₂ hparts hpart
          exact ih x hx hlexemes
  | object ms ih =>
      cases h with
      | @object _ parts hparts =>
          refine readable_inBrackets rfl rfl rfl rfl rfl rfl (by decide) fun part hpart => ?_
          obtain ⟨m, hm, hlexemes⟩ := exists_mem_of_forall₂ hparts hpart
          cases hlexemes with
          | intro hname hvalue =>
              obtain ⟨pieces, -, hpieces⟩ := hname.exists_token
              have hcolon := (ih _ hm hvalue).punctuation (c := ':') rfl rfl rfl
              exact hpieces.readable.append hcolon (endsBefore_cons rfl (by decide) _)

/-! ## Tokens -/

/-- The lists of tokens that the texts of a value are read as. -/
def HasTokens (v : Json) (ts : List Token) : Prop := ∃ ls, Lexemes v ls ∧ ts = ls.flatMap lex

/-- The tokens of a member. -/
inductive MemberTokens : String × Json → List Token → Prop
  | intro {k : String} {v : Json} {pieces : List Piece} {ts : List Token}
      (hname : stringValue pieces none = .ok k) (hvalue : HasTokens v ts) :
      MemberTokens (k, v) (.string pieces none :: .colon :: ts)

/-- **A text of a value is read as tokens of the value.** -/
theorem Writes.hasTokens {v : Json} {text : List Char} (h : Writes v text) :
    HasTokens v (tokens (Utf8.encode text)) := by
  obtain ⟨ls, hlexemes, hspaced⟩ := h
  exact ⟨ls, hlexemes, lex_of_spells (hlexemes.readable text hspaced)⟩

theorem flatMap_flatMap_comma {α β : Type} {f : α → List β} {comma : α} {comma' : β}
    (hcomma : f comma = [comma']) (parts : List (List α)) :
    (parts.flatMap (comma :: ·)).flatMap f =
      (parts.map (List.flatMap f)).flatMap (comma' :: ·) := by
  induction parts with
  | nil => rfl
  | cons part parts ih =>
      rw [List.flatMap_cons, List.flatMap_append, ih, List.flatMap_cons, hcomma, List.map_cons,
        List.flatMap_cons]
      rfl

theorem flatMap_separated {α β : Type} {f : α → List β} {comma : α} {comma' : β}
    (hcomma : f comma = [comma']) (parts : List (List α)) :
    (separated comma parts).flatMap f = separated comma' (parts.map (List.flatMap f)) := by
  cases parts with
  | nil => rfl
  | cons part parts =>
      rw [separated, List.flatMap_append, flatMap_flatMap_comma hcomma, List.map_cons, separated]

theorem lex_punctuation {c : Char} {b : UInt8} {t : Token} (hc : String.utf8EncodeChar c = [b])
    (hblank : isBlank b = false) (ht : punctuation? b = some t) : lex [c] = [t] :=
  lex_of_spells (spells_nil.cons hc hblank ht)

theorem HasTokens.null {ts : List Token} (h : HasTokens .null ts) : ts = [.literal (.ok .null)] := by
  obtain ⟨_, ⟨⟩, rfl⟩ := h
  rw [List.flatMap_singleton]
  exact lex_of_spells (spells_literal rfl rfl rfl rfl)

theorem HasTokens.bool {b : Bool} {ts : List Token} (h : HasTokens (.bool b) ts) :
    ∃ l, ts = [.literal (.ok l)] := by
  obtain ⟨_, ⟨⟩, rfl⟩ := h
  rw [List.flatMap_singleton]
  cases b
  · exact ⟨.false, lex_of_spells (spells_literal rfl rfl rfl rfl)⟩
  · exact ⟨.true, lex_of_spells (spells_literal rfl rfl rfl rfl)⟩

theorem HasTokens.int {n : Int} {ts : List Token} (h : HasTokens (.int n) ts) :
    ts = [.number (.ok (.integer n))] := by
  obtain ⟨_, ⟨⟩, rfl⟩ := h
  next hrange =>
    rw [List.flatMap_singleton]
    exact lex_of_spells (spells_int hrange)

theorem HasTokens.real {ts : List Token} (h : HasTokens .real ts) :
    ∃ n, ts = [.number (.ok n)] := by
  obtain ⟨_, ⟨⟩, rfl⟩ := h
  next hnumber =>
    obtain ⟨n, hn⟩ := hnumber.exists_token
    exact ⟨n, by rw [List.flatMap_singleton, lex_of_spells hn]⟩

theorem HasTokens.string {s : String} {ts : List Token} (h : HasTokens (.string s) ts) :
    ∃ pieces, stringValue pieces none = .ok s ∧ ts = [.string pieces none] := by
  obtain ⟨_, ⟨⟩, rfl⟩ := h
  next hstring =>
    obtain ⟨pieces, hvalue, hpieces⟩ := hstring.exists_token
    exact ⟨pieces, hvalue, by rw [List.flatMap_singleton, lex_of_spells hpieces]⟩

/-- The tokens of an array. -/
theorem HasTokens.array {xs : List Json} {ts : List Token} (h : HasTokens (.array xs) ts) :
    ∃ parts, List.Forall₂ HasTokens xs parts ∧
      ts = .opening .array :: (separated .comma parts ++ [.closing .array]) := by
  obtain ⟨_, ⟨⟩, rfl⟩ := h
  next parts hparts =>
    refine ⟨parts.map (List.flatMap lex), ?_, ?_⟩
    · exact List.forall₂_map_right_iff.mpr (hparts.imp fun x ls hx => ⟨ls, hx, rfl⟩)
    · rw [List.flatMap_cons, List.flatMap_append, List.flatMap_singleton,
        flatMap_separated (lex_punctuation (c := ',') rfl rfl rfl),
        lex_punctuation (c := '[') rfl rfl rfl, lex_punctuation (c := ']') rfl rfl rfl]
      rfl

/-- The tokens of an object. -/
theorem HasTokens.object {ms : List (String × Json)} {ts : List Token}
    (h : HasTokens (.object ms) ts) :
    ∃ parts, List.Forall₂ MemberTokens ms parts ∧
      ts = .opening .object :: (separated .comma parts ++ [.closing .object]) := by
  obtain ⟨_, ⟨⟩, rfl⟩ := h
  next parts hparts =>
    refine ⟨parts.map (List.flatMap lex), ?_, ?_⟩
    · refine List.forall₂_map_right_iff.mpr (hparts.imp fun m ls hm => ?_)
      -- A member is its name, a colon and its value, each read on its own.
      cases hm with
      | @intro k v name ls hname hvalue =>
          obtain ⟨pieces, hpiecesValue, hpieces⟩ := hname.exists_token
          rw [List.flatMap_cons, List.flatMap_cons, lex_of_spells hpieces,
            lex_punctuation (c := ':') rfl rfl rfl]
          exact .intro hpiecesValue ⟨ls, hvalue, rfl⟩
    · rw [List.flatMap_cons, List.flatMap_append, List.flatMap_singleton,
        flatMap_separated (lex_punctuation (c := ',') rfl rfl rfl),
        lex_punctuation (c := objectBrackets.1) rfl rfl rfl,
        lex_punctuation (c := objectBrackets.2) rfl rfl rfl]
      rfl

/-- The first token of a value closes nothing. -/
theorem HasTokens.opens {v : Json} {ts : List Token} (h : HasTokens v ts) : Opens ts := by
  cases v with
  | null => exact h.null ▸ ⟨_, _, rfl, nofun⟩
  | bool b =>
      obtain ⟨l, rfl⟩ := h.bool
      exact ⟨_, _, rfl, nofun⟩
  | int n => exact h.int ▸ ⟨_, _, rfl, nofun⟩
  | real =>
      obtain ⟨n, rfl⟩ := h.real
      exact ⟨_, _, rfl, nofun⟩
  | string s =>
      obtain ⟨pieces, -, rfl⟩ := h.string
      exact ⟨_, _, rfl, nofun⟩
  | array xs =>
      obtain ⟨parts, -, rfl⟩ := h.array
      exact ⟨_, _, rfl, nofun⟩
  | object ms =>
      obtain ⟨parts, -, rfl⟩ := h.object
      exact ⟨_, _, rfl, nofun⟩

end EventLog.Json
