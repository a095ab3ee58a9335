import EventLog.Log
import EventLog.Proofs.Event.Filter
import EventLog.Proofs.Event.Numbering

set_option autoImplicit false

/-! # Selecting events

A filter decides which events are given, and nothing else: every record is decoded, and an error
ends the walk where it ends the walk without a filter, with the same number of records before it
(`walk_eq_filter`). The events that are left are numbered anew (`Log.yields_selected`).
-/

namespace EventLog

/-- Whether an item is left by a choice of event types: an error always is. -/
def keeps (codes : List UInt32) : Except LogError Event → Bool
  | .ok e => codes.contains e.eventType
  | .error _ => true

def Filter.passes (filter : Filter) : Except LogError Event → Bool
  | .ok e => filter.matchesType e.eventType
  | .error _ => true

/-- Filtering while records are decoded is filtering what was decoded. -/
theorem walk_eq_filter (decoder : Decoder) (filter : Filter) (index : Nat)
    (items : List (Except Fault Record)) :
    walk decoder filter index items = (walk decoder .all index items).filter filter.passes := by
  -- On the items: the number of a record counts it whether or not its event is kept.
  induction items generalizing index with
  | nil => rfl
  | cons item items ih =>
      cases item with
      | error fault => rfl
      | ok r =>
          rw [walk, walk]
          cases decoder.decode r with
          | error fault => rfl
          | ok event =>
              cases event with
              | none => exact ih (index + 1)
              | some e =>
                  simp only [Filter.matchesType_all, if_true]
                  by_cases hmatch : filter.matchesType e.eventType = true
                  · have hpass : filter.passes (.ok e) = true := hmatch
                    rw [if_pos hmatch, List.filter_cons_of_pos hpass, ih]
                  · have hpass : ¬filter.passes (.ok e) = true := hmatch
                    rw [if_neg hmatch, List.filter_cons_of_neg hpass, ih]

/-- The filter of a list of types leaves everything if the list is empty, and else the events of
these types. -/
theorem filter_passes_ofList (codes : List UInt32) (items : List (Except LogError Event)) :
    items.filter (Filter.ofList codes).passes =
      if codes = [] then items else items.filter (keeps codes) := by
  -- An empty list of types is no filter at all, not one that keeps nothing.
  split
  · next hempty =>
      rw [List.filter_eq_self]
      intro item _
      cases item with
      | ok e => exact Filter.matchesType_ofList.mpr (.inl hempty)
      | error error => rfl
  · next hne =>
      apply List.filter_congr
      intro item _
      cases item with
      | ok e =>
          rw [Filter.passes, keeps, Bool.eq_iff_iff, Filter.matchesType_ofList,
            List.contains_iff_mem, or_iff_right hne]
      | error error => rfl

/-- **Filtering commutes with decoding.** A log gives some items without a filter. With the filter of
a list of types it gives the same if the list is empty, and else those of them that are errors or
events of these types. However events are rendered, those that are left are numbered from zero on
without gaps. -/
theorem Log.yields_selected (data : List UInt8) (settings : Settings) (codes : List UInt32)
    {α : Type} (render : Event → α) :
    ∃ all selected : List (Except LogError Event),
      Step.Yields EventIterator.next
        (Log.events { data, settings := { settings with filter := .all } }) all ∧
      selected = (if codes = [] then all else all.filter (keeps codes)) ∧
      Step.Yields EventIterator.next
        (Log.events { data, settings := { settings with filter := .ofList codes } }) selected ∧
      Step.Yields (EventIterator.nextRendered render)
        (Log.events { data, settings := { settings with filter := .ofList codes } })
        (selected.mapIdx fun i item => item.map fun e =>
          { index := i
            offset := e.offset
            eventType := e.eventType
            timestamp := e.context.timestamp
            data := render e }) := by
  let decoder : Decoder := { table := settings.table, strict := settings.strictLength }
  let records := (Log.records { data, settings }).items
  let selected := walk decoder (.ofList codes) 0 records
  have hselected : selected =
      if codes = [] then walk decoder .all 0 records
      else (walk decoder .all 0 records).filter (keeps codes) := by
    rw [← filter_passes_ofList]
    exact walk_eq_filter decoder (.ofList codes) 0 records
  have hlive : (Log.events
      { data, settings := { settings with filter := .ofList codes } }).finished = false := rfl
  have hrendered := EventIterator.yields_rendered render hlive
  rw [EventIterator.items_eq_walk hlive, EventIterator.numbered] at hrendered
  simp only [Log.events, Nat.zero_add] at hrendered
  exact ⟨walk decoder .all 0 records, selected, EventIterator.yields_walk rfl, hselected,
    EventIterator.yields_walk rfl, hrendered⟩

end EventLog
