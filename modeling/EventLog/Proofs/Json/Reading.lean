import EventLog.Proofs.Json.Grammar

set_option autoImplicit false

/-! # Reading any text of a value

However a value is written, it can be skipped (`Json.HasTokens.skip_eq`), and a reader that knows the
form of what it reads (`Json.ReadsForm`) takes it from the tokens of each value of this form. Such
are the readers of strings, of strings or null, and of lists of what can be read itself.
-/

namespace EventLog.Json

/-! ## Values that nobody asked for -/

/-- Skipping goes on behind a complete value. -/
def skipped (opened : List Bracket) (rest : List Token) : Except Problem (List Token) :=
  match opened with
  | [] => .ok rest
  | b :: opened => skipFrom .follow (b :: opened) rest

/-- A token that completes a value. -/
theorem skipFrom_of_complete {expected : Expected} {opened opened' : List Bracket} {t : Token}
    (h : skipToken expected opened t = .ok (afterValue opened')) (rest : List Token) :
    skipFrom expected opened (t :: rest) = skipped opened' rest := by
  rw [skipFrom, h]
  cases opened' <;> rfl

/-- A token behind which something else is expected. -/
theorem skipFrom_of_next {expected expected' : Expected} {opened opened' : List Bracket} {t : Token}
    (h : skipToken expected opened t = .ok (some (expected', opened'))) (rest : List Token) :
    skipFrom expected opened (t :: rest) = skipFrom expected' opened' rest := by
  rw [skipFrom, h]
  rfl

/-- What each part between brackets begins with: a value, or the name of a member. -/
def partStart : Bracket → Expected
  | .array => .value
  | .object => .name

/-- In the innermost bracket, the tokens make up one part. -/
def SkipsPart (b : Bracket) (opened : List Bracket) (part : List Token) : Prop :=
  Opens part ∧ ∀ rest, skipFrom (partStart b) (b :: opened) (part ++ rest) =
    skipFrom .follow (b :: opened) rest

section Parts

variable {b : Bracket} {opened : List Bracket}

theorem skipFrom_follow {parts : List (List Token)} (h : ∀ part ∈ parts, SkipsPart b opened part)
    (rest : List Token) :
    skipFrom .follow (b :: opened) (parts.flatMap (.comma :: ·) ++ Token.closing b :: rest) =
      skipped opened rest := by
  induction parts with
  | nil =>
      have hclosing : skipToken .follow (b :: opened) (.closing b) = .ok (afterValue opened) := by
        cases b <;> rfl
      exact skipFrom_of_complete hclosing rest
  | cons part parts ih =>
      obtain ⟨⟨-, hpart⟩, hparts⟩ := List.forall_mem_cons.mp h
      have hcomma : skipToken .follow (b :: opened) .comma = .ok (some (partStart b, b :: opened)) := by
        cases b <;> rfl
      rw [List.flatMap_cons, List.cons_append, List.cons_append, List.append_assoc,
        skipFrom_of_next hcomma, hpart, ih hparts]

/-- Behind a bracket just opened, a token that closes nothing begins a part. -/
theorem skipFrom_inside {ts : List Token} (h : Opens ts) :
    skipFrom .inside (b :: opened) ts = skipFrom (partStart b) (b :: opened) ts := by
  obtain ⟨t, more, rfl, hclosing⟩ := h
  have htoken : skipToken .inside (b :: opened) t = skipToken (partStart b) (b :: opened) t := by
    cases t with
    | closing b' => exact absurd rfl (hclosing b')
    | _ => cases b <;> rfl
  rw [skipFrom, skipFrom, htoken]

/-- All that is between two brackets is skipped. -/
theorem skipFrom_separated {parts : List (List Token)} (h : ∀ part ∈ parts, SkipsPart b opened part)
    (rest : List Token) :
    skipFrom .inside (b :: opened) (separated .comma parts ++ Token.closing b :: rest) =
      skipped opened rest := by
  cases parts with
  | nil =>
      have hclosing : skipToken .inside (b :: opened) (.closing b) = .ok (afterValue opened) := by
        cases b <;> rfl
      exact skipFrom_of_complete hclosing rest
  | cons part parts =>
      obtain ⟨⟨hopens, hpart⟩, hparts⟩ := List.forall_mem_cons.mp h
      rw [separated, List.append_assoc, skipFrom_inside (hopens.append _), hpart,
        skipFrom_follow hparts]

end Parts

theorem skipFrom_value {v : Json} {ts : List Token} (h : HasTokens v ts) (opened : List Bracket)
    (rest : List Token) : skipFrom .value opened (ts ++ rest) = skipped opened rest := by
  -- On the document: an element leaves the brackets that were open before it as they were.
  induction v using induct generalizing ts opened rest with
  | null => exact h.null ▸ skipFrom_of_complete rfl rest
  | bool b =>
      obtain ⟨l, rfl⟩ := h.bool
      exact skipFrom_of_complete rfl rest
  | int n => exact h.int ▸ skipFrom_of_complete rfl rest
  | real =>
      obtain ⟨n, rfl⟩ := h.real
      exact skipFrom_of_complete rfl rest
  | string s =>
      obtain ⟨pieces, -, rfl⟩ := h.string
      exact skipFrom_of_complete rfl rest
  | array xs ih =>
      obtain ⟨parts, hparts, rfl⟩ := h.array
      rw [List.cons_append, List.append_assoc, skipFrom_of_next rfl]
      refine skipFrom_separated (fun part hpart => ?_) rest
      obtain ⟨x, hx, htokens⟩ := exists_mem_of_forall₂ hparts hpart
      exact ⟨htokens.opens, ih x hx htokens (.array :: opened)⟩
  | object ms ih =>
      obtain ⟨parts, hparts, rfl⟩ := h.object
      rw [List.cons_append, List.append_assoc, skipFrom_of_next rfl]
      refine skipFrom_separated (fun part hpart => ?_) rest
      obtain ⟨m, hm, htokens⟩ := exists_mem_of_forall₂ hparts hpart
      cases htokens with
      | intro hname hvalue =>
          refine ⟨opens_string _ _ _, fun rest => ?_⟩
          exact ih _ hm hvalue (.object :: opened) rest

/-- **However a value is written, it is skipped as a whole.** -/
theorem HasTokens.skip_eq {v : Json} {ts : List Token} (h : HasTokens v ts) (rest : List Token) :
    skip (ts ++ rest) = .ok rest := skipFrom_value h [] rest

/-! ## Readers of a form -/

/-- The reader takes a thing from the tokens of every value of its form. -/
def ReadsForm {α : Type} (read : Reads α) (form : α → Json → Prop) : Prop :=
  ∀ x v ts, form x v → HasTokens v ts → TakesFrom read ts x

theorem readText_readsForm : ReadsForm readText fun s v => v = .string s := by
  rintro s _ ts rfl hts rest
  obtain ⟨pieces, hvalue, rfl⟩ := hts.string
  exact bind_eq_ok.mpr ⟨s, hvalue, rfl⟩

def ofText? : Option String → Json
  | some s => .string s
  | none => .null

theorem readText?_readsForm : ReadsForm readText? fun s v => v = ofText? s := by
  rintro (_ | s) _ ts rfl hts rest
  · rw [hts.null]
    rfl
  · have htext := readText_readsForm s (.string s) ts rfl hts rest
    obtain ⟨pieces, -, rfl⟩ := hts.string
    exact bind_eq_ok.mpr ⟨_, htext, rfl⟩

def ListForm {α : Type} (form : α → Json → Prop) (xs : List α) (v : Json) : Prop :=
  ∃ vs, List.Forall₂ form xs vs ∧ v = .array vs

theorem forall₂_elementFrom {α : Type} {element : Reads α} {form : α → Json → Prop}
    (h : ReadsForm element form) {xs : List α} {vs : List Json} (hforms : List.Forall₂ form xs vs)
    {parts : List (List Token)} (hparts : List.Forall₂ HasTokens vs parts) :
    List.Forall₂ (ElementFrom element) xs parts := by
  induction hforms generalizing parts with
  | nil =>
      cases hparts
      exact .nil
  | cons hform _ ih =>
      cases hparts with
      | cons hpart hparts => exact .cons ⟨hpart.opens, h _ _ _ hform hpart⟩ (ih hparts)

/-- **A list is read from its form** if its elements are. -/
theorem readList_readsForm {α : Type} {element : Reads α} {form : α → Json → Prop}
    (h : ReadsForm element form) : ReadsForm (readList element) (ListForm form) := by
  rintro xs _ ts ⟨vs, hforms, rfl⟩ hts rest
  obtain ⟨parts, hparts, rfl⟩ := hts.array
  rw [List.cons_append, List.append_assoc]
  exact elements_separated (forall₂_elementFrom h hforms hparts) rest

end EventLog.Json
