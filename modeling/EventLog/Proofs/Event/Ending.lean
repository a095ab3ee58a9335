import EventLog.Log
import EventLog.Proofs.Event.Fault

set_option autoImplicit false

/-! # Events, and an error at the end

A walk over a log gives a number of events, and last an error if there is one
(`Log.exists_events`). Its calls give these items one by one, and an event takes sixteen bytes of
the log at least, so there are never more events than the places of the log can be counted in.
-/

namespace EventLog

/-- The items of events, and of an error behind them if there is one. -/
def eventsThen (events : List Event) (error : Option LogError) : List (Except LogError Event) :=
  events.map .ok ++ (error.map .error).toList

theorem eventsThen_cons (e : Event) (events : List Event) (error : Option LogError) :
    eventsThen (e :: events) error = .ok e :: eventsThen events error := rfl

theorem eventsThen_inj {events events' : List Event} {error error' : Option LogError}
    (h : eventsThen events error = eventsThen events' error') :
    events = events' ∧ error = error' := by
  -- On the events: an error is no event, so the two lists end at the same place.
  induction events generalizing events' with
  | nil =>
      cases events' with
      | nil =>
          refine ⟨rfl, ?_⟩
          cases error <;> cases error' <;> cases h <;> rfl
      | cons e events' => cases error <;> cases h
  | cons e events ih =>
      cases events' with
      | nil => cases error' <;> cases h
      | cons e' events' =>
          rw [eventsThen_cons, eventsThen_cons, List.cons.injEq] at h
          obtain ⟨rfl, rfl⟩ := ih h.2
          cases h.1
          exact ⟨rfl, rfl⟩

namespace EventIterator

/-- The calls of an iterator give events and then nothing or an error. -/
theorem exists_items_eq (it : EventIterator) :
    ∃ (events : List Event) (error : Option LogError),
      it.items = eventsThen events error ∧
      (∀ n : Nat, it.calls[n]?.bind Step.item = (eventsThen events error)[n]?) ∧
      16 * events.length ≤ it.scanner.rest.length := by
  rw [items]
  -- On the calls: one that gives an event is followed by another, any other call is the last.
  fun_induction calls it with
  | case1 it e next notices hnext ih =>
      obtain ⟨events, error, hitems, hcalls, hlength⟩ := ih
      refine ⟨e :: events, error, ?_, ?_, ?_⟩
      · rw [eventsThen_cons, ← hitems]
        rfl
      · intro n
        cases n with
        | zero => rfl
        | succ n => exact hcalls n
      · have hitem : it.next.item = some (.ok e) := by rw [hnext]
        -- An event's record took at least sixteen bytes off the rest.
        have hrest := length_rest_next hitem
        rw [hnext] at hrest
        rw [List.length_cons]
        simp only at hrest
        omega
  | case2 it hlast =>
      obtain ⟨error, herror⟩ : ∃ error : Option LogError, it.next.item = error.map .error := by
        cases hitem : it.next.item with
        | none => exact ⟨none, rfl⟩
        | some item =>
            cases item with
            | ok e =>
                exact absurd (congrArg (Step.mk · it.next.state it.next.notices) hitem)
                  (hlast e _ _)
            | error error => exact ⟨some error, rfl⟩
      refine ⟨[], error, ?_, ?_, Nat.zero_le _⟩
      · cases error <;> simp only [List.filterMap_cons, herror] <;> rfl
      · intro n
        cases n with
        | zero => cases error <;> exact herror
        | succ n => cases error <;> rfl

end EventIterator

/-- **A log gives events, and last an error if there is one**, which is about a record. -/
theorem Log.exists_events (log : Log) :
    ∃ (events : List Event) (error : Option LogError),
      log.events.items = eventsThen events error ∧
      Step.Yields EventIterator.next log.events (eventsThen events error) ∧
      (∀ n : Nat, log.events.calls[n]?.bind Step.item = (eventsThen events error)[n]?) ∧
      (∀ cause, error ≠ some (.io cause)) ∧
      16 * events.length ≤ log.data.length := by
  obtain ⟨events, error, hitems, hcalls, hlength⟩ := log.events.exists_items_eq
  have hyields : Step.Yields EventIterator.next log.events log.events.items :=
    EventIterator.yields_items rfl
  rw [hitems] at hyields
  refine ⟨events, error, hitems, hyields, hcalls, ?_, hlength⟩
  rintro cause rfl
  have hwalk : log.events.items = walk _ log.settings.filter 0 log.records.items :=
    EventIterator.items_eq_walk rfl
  have herror : log.events.items[events.length]? = some (.error (.io cause)) := by
    rw [hitems, eventsThen, List.getElem?_append_right (by simp)]
    simp
  rw [hwalk] at herror
  exact (error_of_walk herror).2

end EventLog
