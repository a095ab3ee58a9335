import EventLog.Json.Reader
import Mathlib.Data.List.Forall2

set_option autoImplicit false

/-! # Reading elements and members

A reader that takes a value from its tokens, whatever tokens follow (`Json.TakesFrom`), takes the
values of an array from those of its elements (`Json.elements_separated`). The members of an object
take a state through a run, of which each member makes one step (`Json.MembersRun`).
-/

namespace EventLog.Json

/-! ## Parts with commas between them -/

/-- The parts one after another, with a comma between each two. -/
def separated {α : Type} (comma : α) : List (List α) → List α
  | [] => []
  | part :: parts => part ++ parts.flatMap (comma :: ·)

/-- Parts after the first take one item each at least. -/
theorem length_le_flatMap_comma {α : Type} (comma : α) (parts : List (List α)) :
    parts.length ≤ (parts.flatMap (comma :: ·)).length := by
  induction parts with
  | nil => exact Nat.le_refl 0
  | cons part parts ih =>
      rw [List.flatMap_cons, List.length_append, List.length_cons, List.length_cons]
      omega

theorem exists_mem_of_forall₂ {α β : Type} {R : α → β → Prop} {xs : List α} {ys : List β}
    (h : List.Forall₂ R xs ys) {y : β} (hy : y ∈ ys) : ∃ x ∈ xs, R x y := by
  induction h with
  | nil => cases hy
  | @cons x y' xs ys hxy _ ih =>
      rcases List.mem_cons.mp hy with rfl | hy
      · exact ⟨x, List.mem_cons_self, hxy⟩
      · obtain ⟨x', hx', hR⟩ := ih hy
        exact ⟨x', List.mem_cons_of_mem x hx', hR⟩

theorem exists_forall₂ {α β : Type} {R : α → β → Prop} {xs : List α} (h : ∀ x ∈ xs, ∃ y, R x y) :
    ∃ ys, List.Forall₂ R xs ys := by
  induction xs with
  | nil => exact ⟨[], .nil⟩
  | cons x xs ih =>
      obtain ⟨⟨y, hy⟩, hxs⟩ := List.forall_mem_cons.mp h
      obtain ⟨ys, hys⟩ := ih hxs
      exact ⟨y :: ys, .cons hy hys⟩

/-! ## One round of a reader -/

/-- Tokens that begin with one that closes nothing. -/
def Opens (ts : List Token) : Prop := ∃ t more, ts = t :: more ∧ ∀ b, t ≠ .closing b

theorem Opens.ne_nil {ts : List Token} (h : Opens ts) : ts ≠ [] := by
  obtain ⟨t, more, rfl, -⟩ := h
  exact List.cons_ne_nil t more

theorem Opens.ne_closing {ts : List Token} (h : Opens ts) (b : Bracket) (rest : List Token) :
    ts ≠ .closing b :: rest := by
  obtain ⟨t, more, rfl, hclosing⟩ := h
  intro heq
  exact hclosing b (List.cons.inj heq).1

theorem Opens.append {ts : List Token} (h : Opens ts) (more : List Token) : Opens (ts ++ more) := by
  obtain ⟨t, rest, rfl, hclosing⟩ := h
  exact ⟨t, rest ++ more, rfl, hclosing⟩

theorem opens_comma (ts : List Token) : Opens (.comma :: ts) := ⟨.comma, ts, rfl, nofun⟩

theorem opens_string (pieces : List Piece) (problem : Option Problem) (ts : List Token) :
    Opens (.string pieces problem :: ts) := ⟨_, ts, rfl, nofun⟩

section Rounds

variable {α σ : Type} {element : Reads α} {member : σ → String → Reads σ}

/-- A token that closes nothing begins an element, in front of which a comma may have to be
passed. -/
theorem elementsIn_of_opens {ts : List Token} (h : Opens ts) (t : Token) (budget : List Token)
    (before : List α) :
    elementsIn element (t :: budget) before ts = (do
      let ts ← elementStart before.isEmpty ts
      let (x, ts) ← element ts
      elementsIn element budget (x :: before) ts) := by
  rw [elementsIn]
  · exact h.ne_nil
  · exact h.ne_closing .array

theorem elementStart_comma {ts : List Token} (h : Opens ts) :
    elementStart false (.comma :: ts) = .ok ts := by
  obtain ⟨t, more, rfl, hclosing⟩ := h
  cases t with
  | closing b => exact absurd rfl (hclosing b)
  | _ => rfl

/-- A token that closes nothing begins a member. -/
theorem membersIn_of_opens {ts : List Token} (h : Opens ts) (t : Token) (budget : List Token)
    (first : Bool) (s : σ) :
    membersIn member (t :: budget) first s ts = (do
      let (name, ts) ← memberName first ts
      let (s, ts) ← member s name ts
      membersIn member budget false s ts) := by
  rw [membersIn]
  · exact h.ne_nil
  · exact h.ne_closing .object

end Rounds

/-! ## Elements -/

/-- The reader takes exactly these tokens and gives the value, whatever tokens follow. -/
def TakesFrom {α : Type} (read : Reads α) (ts : List Token) (x : α) : Prop :=
  ∀ rest, read (ts ++ rest) = .ok (x, rest)

section Elements

variable {α : Type} {element : Reads α}

/-- The tokens of an element from which the reader takes it. -/
def ElementFrom (element : Reads α) (x : α) (ts : List Token) : Prop :=
  Opens ts ∧ TakesFrom element ts x

theorem elementsIn_separated {xs : List α} {parts : List (List Token)}
    (h : List.Forall₂ (ElementFrom element) xs parts) {budget : List Token}
    (hbudget : parts.length < budget.length) {before : List α} (hbefore : before ≠ [])
    (rest : List Token) :
    elementsIn element budget before
        (parts.flatMap (.comma :: ·) ++ Token.closing .array :: rest) =
      .ok (before.reverse ++ xs, rest) := by
  -- On the elements: each round takes a comma and one element, and one token off the budget.
  induction h generalizing budget before with
  | nil =>
      cases budget with
      | nil => cases hbudget
      | cons t budget =>
          rw [List.append_nil]
          rfl
  | @cons x part xs parts hx hxs ih =>
      cases budget with
      | nil => cases hbudget
      | cons t budget =>
          obtain ⟨hopens, htakes⟩ := hx
          have hbudget' : parts.length < budget.length := Nat.lt_of_succ_lt_succ hbudget
          have hfirst : before.isEmpty = false := List.isEmpty_eq_false_iff.mpr hbefore
          have htokens : (part :: parts).flatMap (.comma :: ·) ++ Token.closing .array :: rest =
              .comma :: (part ++ (parts.flatMap (.comma :: ·) ++ Token.closing .array :: rest)) := by
            rw [List.flatMap_cons, List.cons_append, List.cons_append, List.append_assoc]
          rw [htokens, elementsIn_of_opens (opens_comma _), hfirst]
          refine bind_eq_ok.mpr ⟨_, elementStart_comma (hopens.append _), ?_⟩
          refine bind_eq_ok.mpr ⟨_, htakes _, ?_⟩
          show elementsIn element budget (x :: before)
            (parts.flatMap (.comma :: ·) ++ Token.closing .array :: rest) = _
          rw [ih hbudget' (List.cons_ne_nil x before), List.reverse_cons, List.append_assoc,
            List.singleton_append]

/-- **The elements of an array are taken one after another.** -/
theorem elements_separated {xs : List α} {parts : List (List Token)}
    (h : List.Forall₂ (ElementFrom element) xs parts) (rest : List Token) :
    elements element (separated .comma parts ++ Token.closing .array :: rest) = .ok (xs, rest) := by
  cases h with
  | nil => rfl
  | @cons x part xs parts hx hxs =>
      obtain ⟨hopens, htakes⟩ := hx
      have htokens : separated .comma (part :: parts) ++ Token.closing .array :: rest =
          part ++ (parts.flatMap (.comma :: ·) ++ Token.closing .array :: rest) := by
        rw [separated, List.append_assoc]
      rw [htokens]
      have hall := hopens.append (parts.flatMap (.comma :: ·) ++ Token.closing .array :: rest)
      -- The budget is the tokens themselves, and there are more of them than elements.
      obtain ⟨t, budget, hbudget, -⟩ := hall
      have hrounds : parts.length < budget.length := by
        have hlength := congrArg List.length hbudget
        have hpos := List.length_pos_iff.mpr hopens.ne_nil
        have hle := length_le_flatMap_comma Token.comma parts
        simp only [List.length_append, List.length_cons] at hlength
        omega
      rw [elements]
      conv => lhs; arg 2; rw [hbudget]
      rw [elementsIn_of_opens (hopens.append _)]
      refine bind_eq_ok.mpr ⟨_, rfl, ?_⟩
      refine bind_eq_ok.mpr ⟨_, htakes _, ?_⟩
      exact elementsIn_separated hxs hrounds (List.cons_ne_nil x []) rest

end Elements

/-! ## Members -/

section Members

variable {σ : Type} {member : σ → String → Reads σ}

/-- Members, given by their tokens, take the reader from one state to another. -/
inductive MembersRun (member : σ → String → Reads σ) : σ → List (List Token) → σ → Prop
  | nil (s : σ) : MembersRun member s [] s
  | cons {s s₁ s₂ : σ} {name : String} {pieces : List Piece} {ts : List Token}
      {parts : List (List Token)} (hname : stringValue pieces none = .ok name)
      (hfirst : TakesFrom (member s name) ts s₁) (hrest : MembersRun member s₁ parts s₂) :
      MembersRun member s ((.string pieces none :: ts) :: parts) s₂

theorem memberName_string {pieces : List Piece} {name : String}
    (h : stringValue pieces none = .ok name) (ts : List Token) :
    memberName true (.string pieces none :: ts) = .ok (name, ts) :=
  bind_eq_ok.mpr ⟨_, rfl, bind_eq_ok.mpr ⟨_, h, rfl⟩⟩

theorem memberName_comma {pieces : List Piece} {name : String}
    (h : stringValue pieces none = .ok name) (ts : List Token) :
    memberName false (.comma :: .string pieces none :: ts) = .ok (name, ts) :=
  memberName_string h ts

theorem membersIn_separated {s s' : σ} {parts : List (List Token)}
    (h : MembersRun member s parts s') {budget : List Token}
    (hbudget : parts.length < budget.length) (rest : List Token) :
    membersIn member budget false s
        (parts.flatMap (.comma :: ·) ++ Token.closing .object :: rest) = .ok (s', rest) := by
  -- On the members, as for elements, with the state that the earlier members left.
  induction h generalizing budget with
  | nil s =>
      cases budget with
      | nil => cases hbudget
      | cons t budget => rfl
  | @cons s s₁ s₂ name pieces ts parts hname hfirst _ ih =>
      cases budget with
      | nil => cases hbudget
      | cons t budget =>
          have hbudget' : parts.length < budget.length := Nat.lt_of_succ_lt_succ hbudget
          have htokens :
              ((.string pieces none :: ts) :: parts).flatMap (.comma :: ·) ++
                  Token.closing .object :: rest =
                .comma :: .string pieces none ::
                  (ts ++ (parts.flatMap (.comma :: ·) ++ Token.closing .object :: rest)) := by
            rw [List.flatMap_cons, List.cons_append, List.cons_append, List.cons_append,
              List.cons_append, List.append_assoc]
          rw [htokens, membersIn_of_opens (opens_comma _)]
          refine bind_eq_ok.mpr ⟨_, memberName_comma hname _, ?_⟩
          refine bind_eq_ok.mpr ⟨_, hfirst _, ?_⟩
          exact ih hbudget'

/-- **The members of an object take the reader through their run.** -/
theorem members_separated {s s' : σ} {parts : List (List Token)} (h : MembersRun member s parts s')
    (rest : List Token) :
    members member s (separated .comma parts ++ Token.closing .object :: rest) = .ok (s', rest) := by
  cases h with
  | nil => rfl
  | @cons _ s₁ _ name pieces ts parts hname hfirst hrest =>
      have htokens : separated .comma ((.string pieces none :: ts) :: parts) ++
          Token.closing .object :: rest =
            .string pieces none ::
              (ts ++ (parts.flatMap (.comma :: ·) ++ Token.closing .object :: rest)) := by
        rw [separated, List.cons_append, List.cons_append, List.append_assoc]
      -- Every member has at least its comma, so there are as many tokens as rounds are needed.
      have hrounds : parts.length <
          (ts ++ (parts.flatMap (.comma :: ·) ++ Token.closing .object :: rest)).length := by
        have hle := length_le_flatMap_comma Token.comma parts
        simp only [List.length_append, List.length_cons]
        omega
      rw [htokens, members, membersIn_of_opens (opens_string _ _ _)]
      refine bind_eq_ok.mpr ⟨_, memberName_string hname _, ?_⟩
      refine bind_eq_ok.mpr ⟨_, hfirst _, ?_⟩
      exact membersIn_separated hrest hrounds rest

end Members

end EventLog.Json
