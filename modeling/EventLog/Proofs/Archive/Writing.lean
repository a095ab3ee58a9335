import EventLog.Archive.Writer
import EventLog.Proofs.Event.Ending

set_option autoImplicit false

/-! # Writing into a sink

However its bytes are cut into writes, a sink takes as many of them as it has room for, and all
writes are complete exactly when it has room for all bytes (`Sink.writeAll_eq`). An archive stops at
the first write that is not complete, and what it tries to write after that is not taken: so what
the sink has taken in the end is the front of one text, the entries of the events and the end of
the archive, whatever stopped it (`Archive.writeCalls_spec`).
-/

namespace EventLog

/-! ## Sinks -/

namespace Sink

/-- The sink after bytes were offered to it, of which it has taken those that fit. -/
def offered (s : Sink) (bytes : List UInt8) : Sink :=
  match s.room with
  | none => { s with taken := s.taken ++ bytes }
  | some room => { taken := s.taken ++ bytes.take room, room := some (room - bytes.length) }

def hasRoom (s : Sink) (n : Nat) : Bool :=
  match s.room with
  | none => true
  | some room => decide (n ≤ room)

theorem write_eq (s : Sink) (bytes : List UInt8) :
    s.write bytes = (s.offered bytes, s.hasRoom bytes.length) := by
  rw [write, offered, hasRoom]
  cases s.room with
  | none => rfl
  | some room =>
      by_cases hfits : bytes.length ≤ room
      · simp only [hfits, List.take_of_length_le hfits, decide_true, if_true]
      · have hnothing : room - bytes.length = 0 := by omega
        simp only [hfits, hnothing, decide_false, if_false]

theorem taken_append (taken : Array UInt8) (xs ys : List UInt8) :
    taken ++ xs ++ ys = taken ++ (xs ++ ys) := by
  apply Array.toList_inj.mp
  simp only [Array.toList_appendList, List.append_assoc]

theorem offered_nil (s : Sink) : s.offered [] = s := by
  obtain ⟨taken, room⟩ := s
  have htaken : taken ++ ([] : List UInt8) = taken :=
    Array.toList_inj.mp (Array.toList_appendList.trans (List.append_nil _))
  cases room with
  | none => rw [offered, htaken]
  | some room =>
      simp only [offered, List.take_nil, List.length_nil, Nat.sub_zero, htaken]

/-- It does not matter how bytes are cut. -/
theorem offered_offered (s : Sink) (xs ys : List UInt8) :
    (s.offered xs).offered ys = s.offered (xs ++ ys) := by
  obtain ⟨taken, room⟩ := s
  cases room with
  | none => simp only [offered, taken_append]
  | some room =>
      simp only [offered, taken_append, List.take_append, List.length_append, Nat.sub_sub]

theorem hasRoom_zero (s : Sink) : s.hasRoom 0 = true := by
  rw [hasRoom]
  cases s.room with
  | none => rfl
  | some room => exact decide_eq_true (Nat.zero_le room)

theorem hasRoom_offered {s : Sink} {xs : List UInt8} (h : s.hasRoom xs.length = true) (n : Nat) :
    (s.offered xs).hasRoom n = s.hasRoom (xs.length + n) := by
  obtain ⟨taken, room⟩ := s
  cases room with
  | none => rfl
  | some room =>
      have hfits : xs.length ≤ room := of_decide_eq_true h
      have hle : n ≤ room - xs.length ↔ xs.length + n ≤ room := by omega
      exact decide_eq_decide.mpr hle

/-- A sink takes nothing more once it had no room. -/
theorem offered_append_of_full {s : Sink} {xs : List UInt8} (h : s.hasRoom xs.length = false)
    (ys : List UInt8) : s.offered (xs ++ ys) = s.offered xs := by
  obtain ⟨taken, room⟩ := s
  cases room with
  | none => cases h
  | some room =>
      have hfull : room < xs.length := Nat.lt_of_not_le (of_decide_eq_false h)
      have hrest : room - (xs ++ ys).length = room - xs.length := by
        rw [List.length_append]
        omega
      simp only [offered, hrest, List.take_append_of_le_length (Nat.le_of_lt hfull)]

theorem hasRoom_of_le {s : Sink} {m n : Nat} (hle : m ≤ n) (h : s.hasRoom n = true) :
    s.hasRoom m = true := by
  obtain ⟨taken, room⟩ := s
  cases room with
  | none => rfl
  | some room => exact decide_eq_true (Nat.le_trans hle (of_decide_eq_true h))

theorem not_hasRoom_of_le {s : Sink} {m n : Nat} (hle : m ≤ n) (h : s.hasRoom m = false) :
    s.hasRoom n = false := by
  rw [← Bool.not_eq_true] at h ⊢
  exact fun hroom => h (hasRoom_of_le hle hroom)

theorem hasRoom_of_unlimited {s : Sink} (h : s.room = none) (n : Nat) : s.hasRoom n = true := by
  rw [hasRoom, h]

theorem taken_of_unlimited {s : Sink} (h : s.room = none) (bytes : List UInt8) :
    (s.offered bytes).taken.toList = s.taken.toList ++ bytes := by
  rw [offered, h, Array.toList_appendList]

/-- **Pieces are taken like the bytes that they make up.** -/
theorem writeAll_eq (s : Sink) (pieces : List (List UInt8)) :
    s.writeAll pieces = (s.offered pieces.flatten, s.hasRoom pieces.flatten.length) := by
  induction pieces generalizing s with
  | nil =>
      rw [writeAll, List.flatten_nil, offered_nil, List.length_nil, hasRoom_zero]
  | cons piece pieces ih =>
      rw [writeAll, write_eq, List.flatten_cons, List.length_append]
      cases hpiece : s.hasRoom piece.length with
      | true =>
          show (s.offered piece).writeAll pieces = _
          rw [ih, offered_offered, hasRoom_offered hpiece]
      | false =>
          rw [offered_append_of_full hpiece, not_hasRoom_of_le (Nat.le_add_right _ _) hpiece]

end Sink

/-! ## Archives -/

namespace Archive

/-- The bytes of the entries of events, the first of which has the given number. -/
def entriesBytes : Nat → List Event → List UInt8
  | _, [] => []
  | index, e :: events => (entryPieces index e).flatten ++ entriesBytes (index + 1) events

theorem write_of_room {a : Archive} {e : Event}
    (h : a.sink.hasRoom (entryPieces a.written e).flatten.length = true) :
    a.write e =
      { result := .ok (Entry.name a.written e.eventType)
        archive :=
          { sink := a.sink.offered (entryPieces a.written e).flatten
            written := a.written + 1 }
        notices := warnings a.written e ++
          [.appended (Entry.name a.written e.eventType) (Entry.content e).length] } := by
  rw [write, Sink.writeAll_eq, h]

theorem write_of_full {a : Archive} {e : Event}
    (h : a.sink.hasRoom (entryPieces a.written e).flatten.length = false) :
    a.write e =
      { result := .error full
        archive := { a with sink := a.sink.offered (entryPieces a.written e).flatten }
        notices := warnings a.written e } := by
  rw [write, Sink.writeAll_eq, h]

theorem finish_eq (a : Archive) :
    a.finish =
      { result := if a.sink.hasRoom Tar.trailer.length then .ok () else .error full
        archive := { a with sink := a.sink.offered Tar.trailer }
        notices := [] } := by
  rw [finish, Sink.write_eq]
  cases a.sink.hasRoom Tar.trailer.length <;> rfl

theorem complete_spec (a : Archive) (notices : List Notice) :
    (a.complete notices).result =
        (if a.sink.hasRoom Tar.trailer.length then .ok a.written else .error full) ∧
      (a.complete notices).archive.sink = a.sink.offered Tar.trailer := by
  rw [complete, finish_eq]
  cases a.sink.hasRoom Tar.trailer.length <;> exact ⟨rfl, rfl⟩

theorem abandon_spec (a : Archive) (error : LogError) (notices : List Notice) :
    (a.abandon error notices).result = .error error ∧
      (a.abandon error notices).archive.sink = a.sink.offered Tar.trailer := by
  rw [abandon, finish_eq]
  exact ⟨rfl, rfl⟩

/-- What writing events comes to: a lack of room for their entries comes before the error of the
log, and that before a lack of room for the end of the archive. -/
def resultOf (sink : Sink) (written : Nat) (events : List Event) (error : Option LogError) :
    Except LogError Nat :=
  if sink.hasRoom (entriesBytes written events).length then
    error.elim
      (if sink.hasRoom ((entriesBytes written events).length + Tar.trailer.length) then
        .ok (written + events.length)
      else .error full)
      .error
  else .error full

theorem resultOf_nil (sink : Sink) (written : Nat) (error : Option LogError) :
    resultOf sink written [] error =
      error.elim (if sink.hasRoom Tar.trailer.length then .ok written else .error full) .error := by
  have hroom : sink.hasRoom 0 = true := sink.hasRoom_zero
  rw [resultOf, entriesBytes, List.length_nil, hroom, Nat.zero_add]
  rfl

theorem resultOf_cons_of_room {sink : Sink} {written : Nat} {e : Event}
    (h : sink.hasRoom (entryPieces written e).flatten.length = true) (events : List Event)
    (error : Option LogError) :
    resultOf sink written (e :: events) error =
      resultOf (sink.offered (entryPieces written e).flatten) (written + 1) events error := by
  rw [resultOf, resultOf, entriesBytes, List.length_append, List.length_cons,
    Sink.hasRoom_offered h, Sink.hasRoom_offered h, Nat.add_assoc, Nat.add_assoc written,
    Nat.add_comm 1]

theorem resultOf_cons_of_full {sink : Sink} {written : Nat} {e : Event}
    (h : sink.hasRoom (entryPieces written e).flatten.length = false) (events : List Event)
    (error : Option LogError) : resultOf sink written (e :: events) error = .error full := by
  rw [resultOf, entriesBytes, List.length_append, Sink.not_hasRoom_of_le (Nat.le_add_right _ _) h]
  rfl

theorem resultOf_of_unlimited {sink : Sink} (h : sink.room = none) (written : Nat)
    (events : List Event) (error : Option LogError) :
    resultOf sink written events error = error.elim (.ok (written + events.length)) .error := by
  rw [resultOf, Sink.hasRoom_of_unlimited h, Sink.hasRoom_of_unlimited h]
  rfl

/-- **A sink takes the front of one text**, the entries of all events and the end of the archive,
whatever ends the writing. -/
theorem writeCalls_spec {events : List Event} {error : Option LogError}
    {calls : List (Step EventIterator LogError Event)}
    (hcalls : ∀ n : Nat, calls[n]?.bind Step.item = (eventsThen events error)[n]?) (a : Archive)
    (before : List Notice) :
    (a.writeCalls before calls).result = resultOf a.sink a.written events error ∧
      (a.writeCalls before calls).archive.sink =
        a.sink.offered (entriesBytes a.written events ++ Tar.trailer) := by
  induction events generalizing calls a before with
  | nil =>
      -- Nothing is offered but the end of the archive, with an error of the log or without one.
      rw [resultOf_nil]
      cases calls with
      | nil =>
          cases error with
          | none => exact a.complete_spec _
          | some error => cases hcalls 0
      | cons call calls =>
          rw [writeCalls]
          cases error with
          | none =>
              have hitem : call.item = none := hcalls 0
              rw [hitem]
              exact a.complete_spec _
          | some error =>
              have hitem : call.item = some (.error error) := hcalls 0
              rw [hitem]
              exact a.abandon_spec error _
  | cons e events ih =>
      cases calls with
      | nil => cases hcalls 0
      | cons call calls =>
          have hitem : call.item = some (.ok e) := hcalls 0
          have hrest : ∀ n : Nat, calls[n]?.bind Step.item = (eventsThen events error)[n]? :=
            fun n => hcalls (n + 1)
          rw [writeCalls, entriesBytes, List.append_assoc]
          cases hroom : a.sink.hasRoom (entryPieces a.written e).flatten.length with
          | true =>
              rw [resultOf_cons_of_room hroom, ← Sink.offered_offered]
              simp only [hitem, write_of_room hroom]
              exact ih hrest _ _
          | false =>
              rw [resultOf_cons_of_full hroom, Sink.offered_append_of_full hroom,
                ← Sink.offered_append_of_full hroom Tar.trailer, ← Sink.offered_offered]
              simp only [hitem, write_of_full hroom]
              exact abandon_spec _ full _

section Events

variable {it : EventIterator} {events : List Event} {error : Option LogError}
  (hcalls : ∀ n : Nat, it.calls[n]?.bind Step.item = (eventsThen events error)[n]?)
include hcalls

theorem writeEvents_spec (sink : Sink) :
    (writeEvents it sink).result = resultOf sink 0 events error ∧
      (writeEvents it sink).archive.sink =
        sink.offered (entriesBytes 0 events ++ Tar.trailer) :=
  writeCalls_spec hcalls (start sink) []

/-- A sink with room for everything holds the whole archive. -/
theorem writeEvents_unlimited :
    (writeEvents it (.empty none)).result = error.elim (.ok events.length) .error ∧
      (writeEvents it (.empty none)).archive.sink.taken.toList =
        entriesBytes 0 events ++ Tar.trailer := by
  obtain ⟨hresult, hsink⟩ := writeEvents_spec hcalls (.empty none)
  refine ⟨?_, ?_⟩
  · rw [hresult, resultOf_of_unlimited rfl, Nat.zero_add]
  · rw [hsink, Sink.taken_of_unlimited rfl]
    rfl

end Events

end Archive

end EventLog
