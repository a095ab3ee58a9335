import EventLog.Record.Scanner

set_option autoImplicit false

/-! # Sequences of calls

An iterator is called again and again, each time in the state that the call before left. It yields
a list when its calls give the items of the list one after another and nothing from then on,
however often it is called (`Step.Yields`).
-/

namespace EventLog.Step

variable {σ ε α : Type} {next : σ → Step σ ε α}

def after (next : σ → Step σ ε α) : Nat → σ → σ
  | 0, s => s
  | n + 1, s => after next n (next s).state

def reported (next : σ → Step σ ε α) : Nat → σ → List Notice
  | 0, _ => []
  | n + 1, s => (next s).notices ++ reported next n (next s).state

/-- The calls give the items of the list, in order, and nothing from then on. -/
def Yields (next : σ → Step σ ε α) (s : σ) (items : List (Except ε α)) : Prop :=
  ∀ n, (next (after next n s)).item = items[n]?

theorem yields_cons_iff {s : σ} {item : Except ε α} {items : List (Except ε α)} :
    Yields next s (item :: items) ↔
      (next s).item = some item ∧ Yields next (next s).state items := by
  constructor
  · intro h
    refine ⟨h 0, fun n => ?_⟩
    rw [← List.getElem?_cons_succ (a := item)]
    exact h (n + 1)
  · rintro ⟨hfirst, hrest⟩ n
    cases n with
    | zero => exact hfirst
    | succ n =>
        rw [List.getElem?_cons_succ]
        exact hrest n

/-- A call gives the first item of the list, if there is one, and leaves the others. -/
theorem Yields.tail {s : σ} {items : List (Except ε α)} (h : Yields next s items) :
    (next s).item = items.head? ∧ Yields next (next s).state items.tail := by
  refine ⟨?_, fun n => ?_⟩
  · rw [List.head?_eq_getElem?]
    exact h 0
  · rw [List.getElem?_tail]
    exact h (n + 1)

/-- A call that gives nothing and changes nothing is followed by such calls alone. -/
theorem yields_nil_of_fixed {s : σ} (hitem : (next s).item = none) (hstate : (next s).state = s) :
    Yields next s [] := by
  intro n
  induction n with
  | zero => exact hitem
  | succ n ih => rwa [after, hstate]

theorem yields_nil_of_next {s : σ} (hitem : (next s).item = none)
    (hstate : Yields next (next s).state []) : Yields next s [] := by
  intro n
  cases n with
  | zero => exact hitem
  | succ n => exact hstate n

/-- Calls that change nothing leave the state. -/
theorem after_of_fixed {s : σ} (hstate : (next s).state = s) (n : Nat) : after next n s = s := by
  induction n with
  | zero => rfl
  | succ n ih => rwa [after, hstate]

/-- An iterator yields one list at most. -/
theorem Yields.unique {s : σ} {items items' : List (Except ε α)} (h : Yields next s items)
    (h' : Yields next s items') : items = items' := by
  apply List.ext_getElem?
  intro n
  rw [← h n, ← h' n]

end EventLog.Step
