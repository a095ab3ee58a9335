import EventLog.Proofs.Event.Ending
import EventLog.Proofs.Event.Walk

set_option autoImplicit false

/-! # Numbers of rendered events

An iterator counts the events that it gives, and nothing else: neither records without an event nor
events that its filter passes. So rendered events are numbered without gaps
(`EventIterator.yields_rendered`).
-/

namespace EventLog.EventIterator

theorem emitted_advance {it : EventIterator} {before : List Notice} {e : Event}
    (h : (it.advance before).item = some (.ok e)) :
    (it.advance before).state.emitted = it.emitted + 1 := by
  -- A record that is passed leaves the number of events as it is.
  fun_induction advance it before with
  | case1 => cases h
  | case2 => cases h
  | case3 => cases h
  | case4 => rfl
  | case5 it before record scanner scanned hnext reported passed hselect ih => exact ih h

/-- Each event is counted. -/
theorem emitted_next {it : EventIterator} {e : Event} (h : it.next.item = some (.ok e)) :
    it.next.state.emitted = it.emitted + 1 := by
  unfold next at h ⊢
  split at h
  · cases h
  · next hlive =>
      rw [if_neg hlive]
      exact emitted_advance h

variable {α : Type} (render : Event → α)

/-- The items of events, rendered and numbered one after another from the given number on. -/
def numbered (first : Nat) (items : List (Except LogError Event)) :
    List (Except LogError (Rendered α)) :=
  items.mapIdx fun i item => item.map (Event.rendered render (first + i))

theorem numbered_cons (first : Nat) (item : Except LogError Event)
    (items : List (Except LogError Event)) :
    numbered render first (item :: items) =
      item.map (Event.rendered render first) :: numbered render (first + 1) items := by
  rw [numbered, List.mapIdx_cons, numbered]
  simp only [Nat.add_zero, Nat.add_assoc, Nat.add_comm 1]

/-- After a call that gives no event, rendered events have come to an end too. -/
theorem yields_rendered_nil {it : EventIterator} (h : it.finished = true) :
    Step.Yields (nextRendered render) it [] := by
  refine Step.yields_nil_of_fixed ?_ ?_
  · simp only [nextRendered, next, h, if_true, Option.map_none]
  · simp only [nextRendered, next, h, if_true]

/-- **Rendered events are numbered without gaps**, from the number of events given before. -/
theorem yields_rendered {it : EventIterator} (hlive : it.finished = false) :
    Step.Yields (nextRendered render) it (numbered render it.emitted it.items) := by
  rw [items_eq_walk hlive]
  show Step.Yields (nextRendered render) it (numbered render it.emitted it.pending)
  generalize hitems : it.pending = items
  induction items generalizing it with
  | nil =>
      rcases next_cases hlive with ⟨e, -, hpending, -⟩ | ⟨hpending, -, hfinished⟩
      · rw [hpending] at hitems
        cases hitems
      · rw [hitems, Option.toList_eq_nil_iff] at hpending
        refine Step.yields_nil_of_next ?_ (yields_rendered_nil render hfinished)
        rw [nextRendered, hpending]
        rfl
  | cons item items ih =>
      rw [numbered_cons, Step.yields_cons_iff]
      rcases next_cases hlive with ⟨e, hitem, hpending, hlive'⟩ | ⟨hpending, hlast, hfinished⟩
      · rw [hpending, List.cons.injEq] at hitems
        obtain ⟨rfl, hrest⟩ := hitems
        have hcount := emitted_next hitem
        refine ⟨?_, ?_⟩
        · simp only [nextRendered, hitem, hcount, Option.map_some, Nat.add_sub_cancel]
        · rw [← hcount]
          exact ih hlive' hrest
      · obtain ⟨hitem, rfl⟩ := item_of_toList_eq (hpending.trans hitems)
        -- The last item is an error, which has no number.
        cases item with
        | ok e => exact absurd hitem (hlast e)
        | error error =>
            refine ⟨?_, yields_rendered_nil render hfinished⟩
            rw [nextRendered, hitem]
            rfl

/-- The rendered items of an iterator are its items, rendered and numbered. -/
theorem renderedItems_eq (it : EventIterator) :
    it.renderedItems render = numbered render it.emitted it.items := by
  rw [renderedItems, items]
  fun_induction calls it with
  | case1 it e after reported hnext ih =>
      have hitem : it.next.item = some (.ok e) := by rw [hnext]
      have hcount := emitted_next hitem
      rw [hnext] at hcount
      show Except.ok (e.rendered render (after.emitted - 1)) :: _ = numbered render it.emitted
        (.ok e :: _)
      rw [numbered_cons, ih, show after.emitted = it.emitted + 1 from hcount, Nat.add_sub_cancel]
      rfl
  | case2 it hlast =>
      -- The last item is an error, which has no number.
      cases hitem : it.next.item with
      | none => simp only [List.filterMap_cons, hitem, Option.map_none, List.filterMap_nil]; rfl
      | some item =>
          simp only [List.filterMap_cons, hitem, Option.map_some, List.filterMap_nil]
          cases item with
          | error e => rfl
          | ok e =>
              exact absurd (congrArg (Step.mk · it.next.state it.next.notices) hitem) (hlast e _ _)

end EventLog.EventIterator
