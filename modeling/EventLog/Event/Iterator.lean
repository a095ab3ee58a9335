import EventLog.Event.Basic
import EventLog.Event.Filter
import EventLog.Record.Scanner

set_option autoImplicit false

/-! # Walking over events

An `EventIterator` scans a log and decodes its records. Each call of `EventIterator.next` gives
the next event that the filter selects; records that carry no event or another one are passed, but
they are decoded and counted. After the first fault, and after the end of the log, the iterator is
finished and gives nothing more.
-/

namespace EventLog

/-- Why a log cannot be opened or read further. -/
inductive LogError where
  /-- A file or stream fails; `cause` is the sentence of the system. -/
  | io (cause : String)
  /-- A file cannot be opened. -/
  | openFailed (path cause : String)
  /-- A record cannot be read. -/
  | fault (fault : Fault)
  /-- The `index`th record, at position `offset`, cannot be decoded. -/
  | undecodable (index offset : Nat) (fault : Fault)
  deriving DecidableEq, Repr

namespace LogError

def message : LogError → String
  | io cause => "An I/O error has occurred: " ++ cause
  | openFailed path cause => s!"Failed to open file {path}: {cause}"
  | fault f => f.message
  | undecodable index offset f =>
      s!"Failed to decode event #{index} (record at offset {offset}), caused by:\n\t" ++ f.message

/-- The fault behind an error, if a record is at fault. -/
def fault? : LogError → Option Fault
  | io _ | openFailed .. => none
  | fault f | undecodable _ _ f => some f

/-- Where the fault was found, if a record is at fault. -/
def offset? (e : LogError) : Option Nat := e.fault?.map Fault.offset

end LogError

/-- A walk over the events of a log: the scanner, how records are decoded, which events are
selected, the number of records taken from the scanner, the number of events given, and whether
the walk is over. -/
structure EventIterator where
  scanner : Scanner
  decoder : Decoder
  filter : Filter
  records : Nat
  emitted : Nat
  finished : Bool

namespace EventIterator

def withScanner (it : EventIterator) (s : Scanner) : EventIterator := { it with scanner := s }

def finish (it : EventIterator) : EventIterator := { it with finished := true }

def countRecord (it : EventIterator) : EventIterator := { it with records := it.records + 1 }

def countEvent (it : EventIterator) : EventIterator := { it with emitted := it.emitted + 1 }

/-- The event of a record, if it carries one and the filter selects it. -/
def select (it : EventIterator) (r : Record) : Except Fault (Option Event) := do
  let event ← it.decoder.decode r
  return event.filter fun e => it.filter.matchesType e.eventType

/-- Scans on to the next selected event; `before` are the notices before, the last one first. -/
def advance (it : EventIterator) (before : List Notice) : Step EventIterator LogError Event :=
  match _h : it.scanner.next with
  | { item := none, state := scanner, notices := scanned } =>
      { item := none
        state := (it.withScanner scanner).finish
        notices := before.reverse ++ scanned ++ [.decoded it.emitted it.records] }
  | { item := some (.error fault), state := scanner, notices := scanned } =>
      { item := some (.error (.fault fault))
        state := (it.withScanner scanner).finish
        notices := before.reverse ++ scanned }
  | { item := some (.ok record), state := scanner, notices := scanned } =>
      let reported := scanned ++ it.decoder.notices record
      let passed := (it.withScanner scanner).countRecord
      match it.select record with
      | .error fault =>
          { item := some (.error (.undecodable it.records record.offset fault))
            state := passed.finish
            notices := before.reverse ++ reported }
      | .ok (some event) =>
          { item := some (.ok event)
            state := passed.countEvent
            notices := before.reverse ++ reported }
      | .ok none => passed.advance (reported.reverse ++ before)
termination_by it.scanner.rest.length
decreasing_by
  have hitem : it.scanner.next.item = some (.ok record) := by rw [_h]
  have hlt := Scanner.length_rest_next hitem
  rw [_h] at hlt
  simp only [countRecord, withScanner] at hlt ⊢
  omega

def next (it : EventIterator) : Step EventIterator LogError Event :=
  if it.finished then { item := none, state := it, notices := [] } else it.advance []

/-- An event takes sixteen bytes of the log at least. -/
theorem length_rest_advance {it : EventIterator} {before : List Notice} {e : Event}
    (h : (it.advance before).item = some (.ok e)) :
    (it.advance before).state.scanner.rest.length + 16 ≤ it.scanner.rest.length := by
  -- Only an event leaves by the first way; a record passed over has shortened the rest already.
  fun_induction advance it before with
  | case1 => simp at h
  | case2 => simp at h
  | case3 => simp at h
  | case4 it before record scanner scanned hs reported passed event hd =>
      have hitem : it.scanner.next.item = some (.ok record) := by rw [hs]
      have hlt := Scanner.length_rest_next hitem
      rw [hs] at hlt
      exact hlt
  | case5 it before record scanner scanned hs reported passed hd ih =>
      have hitem : it.scanner.next.item = some (.ok record) := by rw [hs]
      have hlt := Scanner.length_rest_next hitem
      rw [hs] at hlt
      have := ih h
      have hpassed : passed.scanner.rest.length + 16 ≤ it.scanner.rest.length := hlt
      omega

theorem length_rest_next {it : EventIterator} {e : Event} (h : it.next.item = some (.ok e)) :
    it.next.state.scanner.rest.length + 16 ≤ it.scanner.rest.length := by
  unfold next at h ⊢
  split at h
  · simp at h
  · next hf =>
      rw [if_neg hf]
      exact length_rest_advance h

/-- The calls of an iterator up to the first that does not give an event. -/
def calls (it : EventIterator) : List (Step EventIterator LogError Event) :=
  match _h : it.next with
  | { item := some (.ok event), state := after, notices := reported } =>
      { item := some (.ok event), state := after, notices := reported } :: after.calls
  | last => [last]
termination_by it.scanner.rest.length
decreasing_by
  have hitem : it.next.item = some (.ok event) := by rw [_h]
  have hlt := length_rest_next hitem
  rw [_h] at hlt
  simp only at hlt
  omega

/-- The items that an iterator gives: events, and last an error if there is one. -/
def items (it : EventIterator) : List (Except LogError Event) := it.calls.filterMap Step.item

end EventIterator

/-! ## Rendered events -/

/-- An event rendered to some form, with its place among the events given and in the log. -/
structure Rendered (α : Type) where
  index : Nat
  offset : Nat
  eventType : UInt32
  timestamp : Int64
  data : α
  deriving DecidableEq

def Event.rendered {α : Type} (render : Event → α) (index : Nat) (e : Event) : Rendered α :=
  { index
    offset := e.offset
    eventType := e.eventType
    timestamp := e.context.timestamp
    data := render e }

def EventIterator.nextRendered {α : Type} (render : Event → α) (it : EventIterator) :
    Step EventIterator LogError (Rendered α) :=
  let step := it.next
  { item := step.item.map fun item => item.map (Event.rendered render (step.state.emitted - 1))
    state := step.state
    notices := step.notices }

/-- The items that an iterator gives, with the events rendered. -/
def EventIterator.renderedItems {α : Type} (render : Event → α) (it : EventIterator) :
    List (Except LogError (Rendered α)) :=
  it.calls.filterMap fun call =>
    call.item.map fun item => item.map (Event.rendered render (call.state.emitted - 1))

end EventLog
