import EventLog.Event.Iterator
import EventLog.Proofs.Record.Scan

set_option autoImplicit false

/-! # The events of a scan

The event iterator sees the items of its scanner one after another. `walk` computes from them what
it gives: an event for each record that carries a selected one, nothing for the other records, and
last an error for the first fault. The iterator gives exactly that (`EventIterator.items_eq_walk`).
-/

namespace EventLog

/-- The events of a scanner's items, and last an error if there is one; `index` records came
before. -/
def walk (decoder : Decoder) (filter : Filter) :
    Nat → List (Except Fault Record) → List (Except LogError Event)
  | _, [] => []
  | _, .error fault :: _ => [.error (.fault fault)]
  | index, .ok record :: rest =>
      match decoder.decode record with
      | .error fault => [.error (.undecodable index record.offset fault)]
      | .ok none => walk decoder filter (index + 1) rest
      | .ok (some event) =>
          if filter.matchesType event.eventType then
            .ok event :: walk decoder filter (index + 1) rest
          else walk decoder filter (index + 1) rest

/-- What a walk makes of a record: it ends with an error if the record cannot be decoded, gives its
event if it carries a selected one, and passes it otherwise. -/
theorem walk_record (decoder : Decoder) (filter : Filter) (index : Nat) (r : Record)
    (items : List (Except Fault Record)) :
    (∃ fault, decoder.decode r = .error fault ∧
      walk decoder filter index (.ok r :: items) =
        [.error (.undecodable index r.offset fault)]) ∨
    (∃ e, decoder.decode r = .ok (some e) ∧
      walk decoder filter index (.ok r :: items) =
        .ok e :: walk decoder filter (index + 1) items) ∨
    walk decoder filter index (.ok r :: items) = walk decoder filter (index + 1) items := by
  rw [walk]
  cases hdecode : decoder.decode r with
  | error fault => exact .inl ⟨fault, rfl, rfl⟩
  | ok event =>
      cases event with
      | none => exact .inr (.inr rfl)
      | some e =>
          by_cases hmatch : filter.matchesType e.eventType
          · exact .inr (.inl ⟨e, rfl, if_pos hmatch⟩)
          · exact .inr (.inr (if_neg hmatch))

namespace EventIterator

/-- What the iterator has still to give. -/
def pending (it : EventIterator) : List (Except LogError Event) :=
  walk it.decoder it.filter it.records it.scanner.items

theorem select_eq (it : EventIterator) (r : Record) :
    it.select r = (it.decoder.decode r).map fun event =>
      event.filter fun e => it.filter.matchesType e.eventType := by
  unfold select
  cases it.decoder.decode r with
  | error fault => rfl
  | ok event => rfl

/-- A record that is passed leaves what comes after it. -/
theorem pending_of_passed {it : EventIterator} {r : Record}
    (hitem : it.scanner.next.item = some (.ok r)) (hselect : it.select r = .ok none) :
    it.pending = ((it.withScanner it.scanner.next.state).countRecord).pending := by
  rw [select_eq] at hselect
  rw [pending, Scanner.items_of_record hitem, walk]
  obtain ⟨event, hdecode, hfilter⟩ := map_eq_ok.mp hselect
  cases event with
  | none =>
      rw [hdecode]
      rfl
  | some e =>
      rw [Option.filter_eq_none_iff] at hfilter
      simp only [hdecode]
      rw [if_neg (hfilter e rfl)]
      rfl

/-- A record with a selected event puts it first. -/
theorem pending_of_selected {it : EventIterator} {r : Record} {e : Event}
    (hitem : it.scanner.next.item = some (.ok r)) (hselect : it.select r = .ok (some e)) :
    it.pending = .ok e :: ((it.withScanner it.scanner.next.state).countRecord).pending := by
  rw [select_eq] at hselect
  rw [pending, Scanner.items_of_record hitem, walk]
  obtain ⟨event, hdecode, hfilter⟩ := map_eq_ok.mp hselect
  obtain ⟨rfl, hmatch⟩ := Option.filter_eq_some_iff.mp hfilter
  simp only [hdecode]
  rw [if_pos hmatch]
  rfl

/-- A record that cannot be decoded ends the walk. -/
theorem pending_of_undecodable {it : EventIterator} {r : Record} {fault : Fault}
    (hitem : it.scanner.next.item = some (.ok r)) (hselect : it.select r = .error fault) :
    it.pending = [.error (.undecodable it.records r.offset fault)] := by
  rw [select_eq] at hselect
  rw [pending, Scanner.items_of_record hitem, walk]
  cases hdecode : it.decoder.decode r with
  | error fault' =>
      rw [hdecode] at hselect
      cases hselect
      rfl
  | ok event =>
      rw [hdecode] at hselect
      cases hselect

/-- What a call gives comes first in what the iterator had to give, and the state has the rest of
it; after an error and after the end the iterator is finished. -/
theorem advance_spec (it : EventIterator) (before : List Notice) :
    (∃ e, (it.advance before).item = some (.ok e) ∧
      it.pending = .ok e :: (it.advance before).state.pending ∧
      (it.advance before).state.finished = it.finished) ∨
    ((it.advance before).item.toList = it.pending ∧
      (∀ e, (it.advance before).item ≠ some (.ok e)) ∧
      (it.advance before).state.finished = true) := by
  -- The cases: the end, a bad frame, a bad record, an event, a record passed over.
  fun_induction advance it before with
  | case1 it before scanner scanned hnext =>
      have hitem : it.scanner.next.item = none := by rw [hnext]
      refine .inr ⟨?_, ?_, rfl⟩
      · rw [pending, Scanner.items_of_end hitem]
        rfl
      · intro e h
        cases h
  | case2 it before fault scanner scanned hnext =>
      have hitem : it.scanner.next.item = some (.error fault) := by rw [hnext]
      refine .inr ⟨?_, ?_, rfl⟩
      · rw [pending, Scanner.items_of_fault hitem]
        rfl
      · intro e h
        cases h
  | case3 it before record scanner scanned hnext reported passed fault hselect =>
      have hitem : it.scanner.next.item = some (.ok record) := by rw [hnext]
      refine .inr ⟨?_, ?_, rfl⟩
      · rw [pending_of_undecodable hitem hselect]
        rfl
      · intro e h
        cases h
  | case4 it before record scanner scanned hnext reported passed event hselect =>
      have hitem : it.scanner.next.item = some (.ok record) := by rw [hnext]
      refine .inl ⟨event, rfl, ?_, rfl⟩
      rw [pending_of_selected hitem hselect, hnext]
      rfl
  | case5 it before record scanner scanned hnext reported passed hselect ih =>
      have hitem : it.scanner.next.item = some (.ok record) := by rw [hnext]
      rw [pending_of_passed hitem hselect, hnext]
      exact ih

/-- What a call can do before the iterator is finished: give the next of the pending items and go
on, or give the last of them, if there is one, and finish. -/
theorem next_cases {it : EventIterator} (hlive : it.finished = false) :
    (∃ e, it.next.item = some (.ok e) ∧ it.pending = .ok e :: it.next.state.pending ∧
      it.next.state.finished = false) ∨
    (it.next.item.toList = it.pending ∧ (∀ e, it.next.item ≠ some (.ok e)) ∧
      it.next.state.finished = true) := by
  have hnext : it.next = it.advance [] := by
    rw [next, hlive]
    rfl
  rw [hnext, ← hlive]
  exact advance_spec it []

/-- A call gives one item at most. -/
theorem item_of_toList_eq {it : EventIterator} {item : Except LogError Event}
    {items : List (Except LogError Event)} (h : it.next.item.toList = item :: items) :
    it.next.item = some item ∧ items = [] := by
  cases hitem : it.next.item with
  | none =>
      rw [hitem] at h
      cases h
  | some last =>
      rw [hitem] at h
      cases h
      exact ⟨rfl, rfl⟩

theorem yields_nil_of_finished {it : EventIterator} (h : it.finished = true) :
    Step.Yields next it [] := by
  refine Step.yields_nil_of_fixed ?_ ?_
  · rw [next, if_pos h]
  · rw [next, if_pos h]

/-- **The calls of an iterator give its walk over the scanner's items**, and nothing from then
on. -/
theorem yields_walk {it : EventIterator} (hlive : it.finished = false) :
    Step.Yields next it (walk it.decoder it.filter it.records it.scanner.items) := by
  show Step.Yields next it it.pending
  generalize hitems : it.pending = items
  -- On what is still to come; the iterator is left free, since passing records changes it.
  induction items generalizing it with
  | nil =>
      rcases next_cases hlive with ⟨e, -, hpending, -⟩ | ⟨hpending, -, hfinished⟩
      · rw [hpending] at hitems
        cases hitems
      · rw [hitems, Option.toList_eq_nil_iff] at hpending
        exact Step.yields_nil_of_next hpending (yields_nil_of_finished hfinished)
  | cons item items ih =>
      rw [Step.yields_cons_iff]
      rcases next_cases hlive with ⟨e, hitem, hpending, hlive'⟩ | ⟨hpending, -, hfinished⟩
      · rw [hpending, List.cons.injEq] at hitems
        obtain ⟨rfl, hrest⟩ := hitems
        exact ⟨hitem, ih hlive' hrest⟩
      · obtain ⟨hlast, rfl⟩ := item_of_toList_eq (hpending.trans hitems)
        exact ⟨hlast, yields_nil_of_finished hfinished⟩

/-! ## The items of an iterator -/

theorem items_of_event {it : EventIterator} {e : Event} (h : it.next.item = some (.ok e)) :
    it.items = .ok e :: it.next.state.items := by
  rw [items, calls]
  split
  · next hnext =>
      rw [hnext] at h ⊢
      cases h
      rfl
  · next hlast =>
      exact absurd (congrArg (Step.mk · it.next.state it.next.notices) h) (hlast e _ _)

theorem items_of_last {it : EventIterator} (h : ∀ e, it.next.item ≠ some (.ok e)) :
    it.items = it.next.item.toList := by
  rw [items, calls]
  split
  · next e _ _ hnext =>
      rw [hnext] at h
      exact absurd rfl (h e)
  · cases hitem : it.next.item with
    | none => simp only [List.filterMap_cons, hitem, List.filterMap_nil, Option.toList_none]
    | some item => simp only [List.filterMap_cons, hitem, List.filterMap_nil, Option.toList_some]

/-- The items of an iterator are its walk over the scanner's items. -/
theorem items_eq_walk {it : EventIterator} (hlive : it.finished = false) :
    it.items = walk it.decoder it.filter it.records it.scanner.items := by
  show it.items = it.pending
  generalize hitems : it.pending = items
  -- As for `yields_walk`, but through the recursion that collects the items.
  induction items generalizing it with
  | nil =>
      rcases next_cases hlive with ⟨e, -, hpending, -⟩ | ⟨hpending, hlast, -⟩
      · rw [hpending] at hitems
        cases hitems
      · rw [items_of_last hlast, hpending, hitems]
  | cons item items ih =>
      rcases next_cases hlive with ⟨e, hitem, hpending, hlive'⟩ | ⟨hpending, hlast, -⟩
      · rw [hpending, List.cons.injEq] at hitems
        obtain ⟨rfl, hrest⟩ := hitems
        rw [items_of_event hitem, ih hlive' hrest]
      · rw [items_of_last hlast, hpending, hitems]

/-- The calls of an iterator give its items, and nothing from then on. -/
theorem yields_items {it : EventIterator} (hlive : it.finished = false) :
    Step.Yields next it it.items := by
  rw [items_eq_walk hlive]
  exact yields_walk hlive

end EventIterator

end EventLog
