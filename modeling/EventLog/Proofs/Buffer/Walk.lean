import EventLog.Log
import EventLog.Proofs.Buffer.Decode
import EventLog.Proofs.Buffer.Scan
import EventLog.Proofs.Event.Numbering
import EventLog.Proofs.Wire.Strict

set_option autoImplicit false

/-! # Walking over a buffer by positions

A `Walk` scans a log by positions and decodes its records in the same way; it counts records and
events in 64 bits. However often it is called, it halts with no breach, and its calls give what
those of an event iterator give (`Log.walk_in_range`).
-/

namespace EventLog.Buffer

/-- A walk over the events of a log: the scan, how records are decoded, which events are selected,
the number of records taken from the scan, the number of events given, and whether the walk is
over. -/
structure Walk where
  scan : Scan
  decoder : Decoder
  filter : Filter
  records : Nat
  emitted : Nat
  finished : Bool

namespace Walk

/-- Counts and decodes a record; gives its event, if it carries a selected one, or an error. -/
def take (w : Walk) (record : Record) : Except Halt (Option (Except LogError Event) × Walk) := do
  let records ← plus w.records 1
  match decode w.decoder record with
  | .error (.breach breach) => .error (.breach breach)
  | .error (.fault fault) =>
      .ok (some (.error (.undecodable w.records record.offset fault)),
        { w with records, finished := true })
  | .ok event =>
      match event.filter fun e => w.filter.matchesType e.eventType with
      | none => .ok (none, { w with records })
      | some event => do
          let emitted ← plus w.emitted 1
          .ok (some (.ok event), { w with records, emitted })

def withScan (w : Walk) (scan : Scan) : Walk := { w with scan }

def finish (w : Walk) : Walk := { w with finished := true }

def advance (w : Walk) : Except Halt (Option (Except LogError Event) × Walk) :=
  match _h : w.scan.next with
  | .error halt => .error halt
  | .ok (none, scan) => .ok (none, (w.withScan scan).finish)
  | .ok (some (.error fault), scan) =>
      .ok (some (.error (.fault fault)), (w.withScan scan).finish)
  | .ok (some (.ok record), scan) =>
      match w.take record with
      | .error halt => .error halt
      | .ok (some item, after) => .ok (some item, after.withScan scan)
      | .ok (none, after) => (after.withScan scan).advance
termination_by w.scan.data.length - w.scan.position
decreasing_by exact Scan.next_forward _h

def next (w : Walk) : Except Halt (Option (Except LogError Event) × Walk) :=
  if w.finished then .ok (none, w) else w.advance

/-- The next selected event, rendered. It is numbered by the events given before. -/
def nextRendered {α : Type} (render : Event → α) (w : Walk) :
    Except Halt (Option (Except LogError (Rendered α)) × Walk) := do
  match ← w.next with
  | (none, w) => .ok (none, w)
  | (some (.error e), w) => .ok (some (.error e), w)
  | (some (.ok event), w) => do
      let index ← minus w.emitted 1
      .ok (some (.ok (event.rendered render index)), w)

/-! ## Walks that stay in range -/

def iterator (w : Walk) : EventIterator where
  scanner := w.scan.scanner
  decoder := w.decoder
  filter := w.filter
  records := w.records
  emitted := w.emitted
  finished := w.finished

/-- The scan stays in its log; no more records were taken than bytes were passed, and no more events
given than records taken. -/
structure Sound (w : Walk) : Prop where
  scan : w.scan.Sound
  records_le : w.records ≤ w.scan.position
  emitted_le : w.emitted ≤ w.records

/-- The unfolding of a call by what the scan gives. -/
theorem advance_eq (w : Walk) :
    w.advance =
      match w.scan.next with
      | .error halt => .error halt
      | .ok (none, scan) => .ok (none, (w.withScan scan).finish)
      | .ok (some (.error fault), scan) =>
          .ok (some (.error (.fault fault)), (w.withScan scan).finish)
      | .ok (some (.ok record), scan) =>
          match w.take record with
          | .error halt => .error halt
          | .ok (some item, after) => .ok (some item, after.withScan scan)
          | .ok (none, after) => (after.withScan scan).advance := by
  rw [advance]
  split <;> next h => rw [h]

theorem Sound.records_lt {w : Walk} (hw : w.Sound) : w.records + 1 < 2 ^ 64 := by
  have hrecords := hw.records_le
  have hposition := hw.scan.position_le
  have hlength := hw.scan.length_lt
  omega

/-- A record is taken as an iterator takes it. -/
theorem take_eq {w : Walk} (hw : w.Sound) {r : Record}
    (hroom : r.payloadOffset + r.payload.length < 2 ^ 63) :
    w.take r =
      match w.iterator.select r with
      | .error fault =>
          .ok (some (.error (.undecodable w.records r.offset fault)),
            { w with records := w.records + 1, finished := true })
      | .ok none => .ok (none, { w with records := w.records + 1 })
      | .ok (some e) =>
          .ok (some (.ok e), { w with records := w.records + 1, emitted := w.emitted + 1 }) := by
  -- No more events than records, and the records are bounded by the position.
  have hemitted : w.emitted + 1 < 2 ^ 64 :=
    Nat.lt_of_le_of_lt (Nat.succ_le_succ hw.emitted_le) hw.records_lt
  have hdecoder : w.iterator.decoder = w.decoder := rfl
  rw [EventIterator.select_eq, hdecoder, take, plus_of_lt hw.records_lt,
    (matches_decode w.decoder hroom).1]
  cases w.decoder.decode r with
  | error fault => rfl
  | ok event =>
      simp only [bind, Except.bind, Except.map, Except.mapError]
      have hfilter : w.iterator.filter = w.filter := rfl
      rw [hfilter]
      cases event.filter fun e => w.filter.matchesType e.eventType with
      | none => rfl
      | some e => rw [plus_of_lt hemitted]

/-- What the scanner of an iterator gives, the scan gives. -/
theorem scan_next {w : Walk} (hw : w.Sound) {item : Option (Except Fault Record)}
    {scanner : Scanner} {scanned : List Notice}
    (hnext : w.iterator.scanner.next = ⟨item, scanner, scanned⟩) :
    ∃ t, w.scan.next = .ok (item, t) ∧ scanner = t.scanner ∧ t.Sound ∧
      w.scan.position ≤ t.position ∧
      ∀ r, item = some (.ok r) →
        w.scan.position < t.position ∧ r.payloadOffset + r.payload.length < 2 ^ 63 := by
  have hscan := Scan.next_eq hw.scan
  have hscanner : w.scan.scanner.next = ⟨item, scanner, scanned⟩ := hnext
  rwa [hscanner] at hscan

theorem Sound.withScan {w : Walk} (hw : w.Sound) {t : Scan} (ht : t.Sound)
    (hle : w.scan.position ≤ t.position) : (w.withScan t).Sound :=
  ⟨ht, Nat.le_trans hw.records_le hle, hw.emitted_le⟩

/-- A walk that takes one more record. -/
theorem Sound.taken {w : Walk} (hw : w.Sound) {t : Scan} (ht : t.Sound)
    (hlt : w.scan.position < t.position) {emitted : Nat} (hle : emitted ≤ w.records + 1)
    (finished : Bool) :
    (Walk.withScan { w with records := w.records + 1, emitted, finished } t).Sound :=
  ⟨ht, Nat.lt_of_le_of_lt hw.records_le hlt, hle⟩

/-- A call halts with no breach and gives what that of an iterator gives. -/
theorem advance_spec (it : EventIterator) (before : List Notice) :
    ∀ w : Walk, w.Sound → w.iterator = it →
      ∃ v, w.advance = .ok ((it.advance before).item, v) ∧
        (it.advance before).state = v.iterator ∧ v.Sound := by
  -- The walk follows the iterator: both pass the same records up to the item that they give.
  fun_induction it.advance before with
  | case1 it before scanner scanned hnext =>
      rintro w hw rfl
      obtain ⟨t, hscan, rfl, ht, hle, -⟩ := scan_next hw hnext
      have hstop := hw.withScan ht hle
      refine ⟨(w.withScan t).finish, ?_, rfl, ⟨hstop.scan, hstop.records_le, hstop.emitted_le⟩⟩
      rw [advance_eq, hscan]
  | case2 it before fault scanner scanned hnext =>
      rintro w hw rfl
      obtain ⟨t, hscan, rfl, ht, hle, -⟩ := scan_next hw hnext
      have hstop := hw.withScan ht hle
      refine ⟨(w.withScan t).finish, ?_, rfl, ⟨hstop.scan, hstop.records_le, hstop.emitted_le⟩⟩
      rw [advance_eq, hscan]
  | case3 it before record scanner scanned hnext reported passed fault hselect =>
      rintro w hw rfl
      obtain ⟨t, hscan, rfl, ht, -, hrecord⟩ := scan_next hw hnext
      obtain ⟨hlt, hroom⟩ := hrecord record rfl
      refine ⟨_, ?_, rfl, hw.taken ht hlt (Nat.le_succ_of_le hw.emitted_le) true⟩
      rw [advance_eq, hscan]
      dsimp only
      rw [take_eq hw hroom, hselect]
      rfl
  | case4 it before record scanner scanned hnext reported passed event hselect =>
      rintro w hw rfl
      obtain ⟨t, hscan, rfl, ht, -, hrecord⟩ := scan_next hw hnext
      obtain ⟨hlt, hroom⟩ := hrecord record rfl
      refine ⟨_, ?_, rfl, hw.taken ht hlt (Nat.succ_le_succ hw.emitted_le) w.finished⟩
      rw [advance_eq, hscan]
      dsimp only
      rw [take_eq hw hroom, hselect]
  | case5 it before record scanner scanned hnext reported passed hselect ih =>
      rintro w hw rfl
      obtain ⟨t, hscan, rfl, ht, -, hrecord⟩ := scan_next hw hnext
      obtain ⟨hlt, hroom⟩ := hrecord record rfl
      rw [advance_eq, hscan]
      dsimp only
      rw [take_eq hw hroom, hselect]
      exact ih _ (hw.taken ht hlt (Nat.le_succ_of_le hw.emitted_le) w.finished) rfl

/-- **A walk halts with no breach**: each call gives what that of an iterator gives. -/
theorem next_spec {w : Walk} (hw : w.Sound) :
    ∃ v, w.next = .ok (w.iterator.next.item, v) ∧ w.iterator.next.state = v.iterator ∧ v.Sound := by
  by_cases hfinished : w.finished = true
  · have hiterator : w.iterator.next = ⟨none, w.iterator, []⟩ := if_pos hfinished
    rw [hiterator]
    exact ⟨w, if_pos hfinished, rfl, hw⟩
  · have hiterator : w.iterator.next = w.iterator.advance [] := if_neg hfinished
    rw [hiterator, next, if_neg hfinished]
    exact advance_spec w.iterator [] w hw rfl

/-- Rendered events are numbered after they were counted. -/
theorem nextRendered_spec {α : Type} (render : Event → α) {w : Walk} (hw : w.Sound) :
    ∃ v, w.nextRendered render = .ok ((w.iterator.nextRendered render).item, v) ∧
      (w.iterator.nextRendered render).state = v.iterator ∧ v.Sound := by
  obtain ⟨v, hnext, hstate, hv⟩ := next_spec hw
  refine ⟨v, ?_, hstate, hv⟩
  rw [nextRendered, hnext, EventIterator.nextRendered]
  cases hitem : w.iterator.next.item with
  | none => rfl
  | some item =>
      cases item with
      | error e => rfl
      | ok e =>
          have hcount := EventIterator.emitted_next hitem
          rw [hstate] at hcount
          have hemitted : v.emitted = w.emitted + 1 := hcount
          show minus v.emitted 1 >>= _ = _
          rw [minus_of_le (by omega), hstate]
          rfl

end Walk

/-! ## Sequences of calls -/

section Calls

variable {σ τ ε α : Type}

/-- What a number of calls give, one after another; the first that halts ends them. -/
def callItems (next : σ → Except Halt (α × σ)) : Nat → σ → Except Halt (List α)
  | 0, _ => .ok []
  | n + 1, s => do
      let (item, s) ← next s
      let items ← callItems next n s
      return item :: items

/-- Calls that give the same items one by one give the same items one after another. -/
theorem callItems_eq {next : σ → Except Halt (Option (Except ε α) × σ)} {step : τ → Step τ ε α}
    {R : σ → τ → Prop}
    (hstep : ∀ {s t}, R s t → ∃ s', next s = .ok ((step t).item, s') ∧ R s' (step t).state)
    (n : Nat) {s : σ} {t : τ} (h : R s t) :
    callItems next n s =
      .ok ((List.range n).map fun i => (step (Step.after step i t)).item) := by
  induction n generalizing s t with
  | zero => rfl
  | succ n ih =>
      obtain ⟨s', hnext, h'⟩ := hstep h
      rw [callItems, hnext, ok_bind]
      dsimp only
      rw [ih h', List.range_succ_eq_map, List.map_cons, List.map_map]
      rfl

end Calls

end EventLog.Buffer

namespace EventLog

open Buffer

def Log.positionWalk (log : Log) : Walk where
  scan := .start log.data log.settings.validateChecksums
  decoder := { table := log.settings.table, strict := log.settings.strictLength }
  filter := log.settings.filter
  records := 0
  emitted := 0
  finished := false

theorem Log.sound_positionWalk {log : Log} (h : log.data.length < 2 ^ 63) : log.positionWalk.Sound :=
  ⟨Scan.sound_start h _, Nat.le_refl 0, Nat.le_refl 0⟩

/-- **No step of a walk leaves its range.** For a log of any size that a byte string can have, under
any settings, the calls of a walk by positions never halt, however many there are, and neither do
those of one that renders its events: no difference is negative, no sum exceeds 64 bits, and no
branch is taken that a check before it has closed. They give what an event iterator gives.

A record whose payload has its place in the log is decoded as it is without positions, and never
with a fault about a position behind the end of the payload. -/
theorem Log.walk_in_range {α : Type} (render : Event → α) (log : Log)
    (hsize : log.data.length < 2 ^ 63) :
    (∀ n, callItems Walk.next n log.positionWalk =
      .ok ((List.range n).map fun i =>
        (Step.after EventIterator.next i log.events).next.item)) ∧
    (∀ n, callItems (Walk.nextRendered render) n log.positionWalk =
      .ok ((List.range n).map fun i =>
        ((Step.after (EventIterator.nextRendered render) i log.events).nextRendered render).item)) ∧
    ∀ (d : Decoder) (r : Record), r.payloadOffset + r.payload.length ≤ log.data.length →
      Buffer.decode d r = (d.decode r).mapError .fault ∧
      ∀ offset need available,
        Buffer.decode d r ≠ .error (.fault (.truncated .start offset need available)) := by
  have hstart : log.positionWalk.Sound ∧ log.positionWalk.iterator = log.events :=
    ⟨log.sound_positionWalk hsize, rfl⟩
  refine ⟨fun n => ?_, fun n => ?_, fun d r hroom => ?_⟩
  · refine callItems_eq (R := fun w it => w.Sound ∧ w.iterator = it) ?_ n hstart
    rintro w _ ⟨hw, rfl⟩
    obtain ⟨v, hnext, hstate, hv⟩ := Walk.next_spec hw
    exact ⟨v, hnext, hv, hstate.symm⟩
  · refine callItems_eq (R := fun w it => w.Sound ∧ w.iterator = it) ?_ n hstart
    rintro w _ ⟨hw, rfl⟩
    obtain ⟨v, hnext, hstate, hv⟩ := Walk.nextRendered_spec render hw
    exact ⟨v, hnext, hv, hstate.symm⟩
  · obtain ⟨hdecode, hin⟩ := matches_decode d (Nat.lt_of_le_of_lt hroom hsize)
    refine ⟨hdecode, fun offset need available hreported => ?_⟩
    rw [hdecode] at hreported
    cases hfault : d.decode r with
    | error fault =>
        rw [hfault] at hreported
        cases hreported
        exact hin _ hfault rfl
    | ok event =>
        rw [hfault] at hreported
        cases hreported

/-- A log of one event without fields, and three bytes behind its frame. -/
def strayLog : Log where
  data := Frame.magic ++ [48, 0, 0, 0, 0, 0, 0, 0] ++ Decoder.barePayload ++ [1, 2, 3]
  settings := { table := Decoder.bareTable }

def strayIterator : EventIterator :=
  { strayLog.events with scanner := ⟨64, [1, 2, 3], 1, true, false⟩, records := 1, emitted := 1 }

theorem Log.walk_in_range_stray :
    strayLog.data.length < 2 ^ 63 ∧
      callItems (Walk.nextRendered Event.eventType) 3 strayLog.positionWalk =
        .ok [some (.ok ⟨0, 0, 2, 0, 2⟩), some (.error (.fault (.shortRead 3 16 64))), none] := by
  have hsize : strayLog.data.length < 2 ^ 63 := by decide
  -- One event, then a byte that is no head, then nothing more.
  have hfirst : strayLog.events.next.item = some (.ok Decoder.bareEvent) ∧
      strayLog.events.next.state = strayIterator := by
    rw [EventIterator.next, if_neg (by decide), EventIterator.advance]
    exact ⟨rfl, rfl⟩
  have hsecond : strayIterator.next.item = some (.error (.fault (.shortRead 3 16 64))) ∧
      strayIterator.next.state.finished = true := by
    rw [EventIterator.next, if_neg (by decide), EventIterator.advance]
    exact ⟨rfl, rfl⟩
  have hthird : strayIterator.next.state.next.item = none := by
    rw [EventIterator.next, if_pos hsecond.2]
  refine ⟨hsize, ?_⟩
  rw [(Log.walk_in_range Event.eventType strayLog hsize).2.1 3]
  show Except.ok [_, _, _] = _
  simp only [Step.after, EventIterator.nextRendered, hfirst, hsecond.1, hthird]
  rfl

end EventLog
