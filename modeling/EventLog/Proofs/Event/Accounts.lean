import EventLog.Proofs.Event.Ending
import EventLog.Proofs.Record.Progress

set_option autoImplicit false

/-! # The accounts of a walk

However often an iterator is called, every record that it has seen is accounted for: as an event
that was given, as the end of a batch, as an event that its filter rejects, or as the record at
which the walk ended (`EventIterator.Accounts`). The end of a log is reported when a walk comes
to it, once, and by no other walk (`Log.accounts_after`).
-/

namespace EventLog

/-! ## What is reported on the way -/

namespace Notice

theorem atLeast_append (s : Severity) (front back : List Notice) :
    atLeast s (front ++ back) = atLeast s front ++ atLeast s back := List.filter_append ..

theorem atLeast_cons_of_lt {s : Severity} {n : Notice} (h : n.severity.rank < s.rank)
    (notices : List Notice) : atLeast s (n :: notices) = atLeast s notices :=
  List.filter_cons_of_neg (by simpa using h)

theorem line_endOfLog (records size : Nat) :
    (endOfLog records size).line =
      s!"INFO Reached end of log after {records} records ({size} bytes)" := by
  have hfront : "INFO Reached end of log after " = "INFO " ++ "Reached end of log after " := rfl
  rw [hfront]
  show "INFO " ++ s!"Reached end of log after {records} records ({size} bytes)" = _
  simp only [String.append_assoc]
  rfl

theorem line_decoded (events records : Nat) :
    (decoded events records).line = s!"INFO Decoded {events} events from {records} records" := by
  have hfront : "INFO Decoded " = "INFO " ++ "Decoded " := rfl
  rw [hfront]
  show "INFO " ++ s!"Decoded {events} events from {records} records" = _
  simp only [String.append_assoc]
  rfl

end Notice

theorem Context.atLeast_info_notices (version : UInt16) (c : Cursor) :
    Notice.atLeast .info (Context.notices version c) = [] := by
  rw [Context.notices]
  split <;> rfl

theorem Payload.atLeast_info_fieldNotices (specs : List FieldSpec) (c : Cursor) :
    Notice.atLeast .info (fieldNotices specs c) = [] := by
  induction specs generalizing c with
  | nil => rfl
  | cons spec specs ih =>
      rw [fieldNotices, Notice.atLeast_cons_of_lt (by decide : Severity.trace.rank < _)]
      split
      · exact ih _
      · rfl

theorem Payload.atLeast_info_notices (table : Schema.Table) (key : EventKey) (c : Cursor) :
    Notice.atLeast .info (Payload.notices table key c) = [] := by
  rw [Payload.notices]
  split
  · rfl
  · rw [Notice.atLeast_cons_of_lt (by decide : Severity.trace.rank < _)]
    exact atLeast_info_fieldNotices _ c

/-- Decoding a record reports nothing but details. -/
theorem Decoder.atLeast_info_notices (d : Decoder) (r : Record) :
    Notice.atLeast .info (d.notices r) = [] := by
  rw [Decoder.notices]
  split
  · rfl
  · split
    · rfl
    · rw [bodyNotices, Notice.atLeast_append, Context.atLeast_info_notices]
      split
      · exact Payload.atLeast_info_notices _ _ _
      · rfl

namespace Scanner

/-- A scanner reports the end of the log when it comes to it. -/
theorem notices_next_of_end {s : Scanner} (hlive : s.exhausted = false)
    (hitem : s.next.item = none) : s.next.notices = [.endOfLog s.recordsRead s.logSize] := by
  have hrest := (next_eq_none_iff hlive).mp hitem
  rw [next, hlive, hrest]
  rfl

theorem atLeast_info_notices_next {s : Scanner} {item : Except Fault Record}
    (hitem : s.next.item = some item) : Notice.atLeast .info s.next.notices = [] := by
  rw [next] at hitem ⊢
  split at hitem
  · cases hitem
  · next hlive =>
      rw [if_neg hlive]
      split at hitem
      · cases hitem
      · next hrest =>
          rw [if_neg hrest, readRecord]
          cases Frame.read s.position s.rest with
          | error fault => rfl
          | ok frame => cases hclose : frame.close s.validate <;> simp only [hclose] <;> rfl

theorem validate_next (s : Scanner) : s.next.state.validate = s.validate := by
  rcases next_cases s with ⟨-, -, hstate⟩ | ⟨-, -, -, hstate⟩ | ⟨-, -, -, -, hstate⟩ |
    ⟨-, -, _, _, _, -, -, -, hstate⟩ <;> rw [hstate] <;> rfl

theorem exhausted_next_of_record {s : Scanner} {r : Record} (hitem : s.next.item = some (.ok r)) :
    s.next.state.exhausted = false := by
  obtain ⟨hlive, f, more, -, -, -, hstate⟩ := next_eq_ok_iff.mp ⟨hitem, rfl⟩
  rw [hstate]
  exact hlive

end Scanner

/-! ## What becomes of a record -/

/-- Whether a record ends a batch: its payload has a whole header whose type is zero. -/
def Record.endsBatch (r : Record) : Bool :=
  decide (8 ≤ r.payload.length) && r.payload.take 4 == List.replicate 4 0

/-- Whether a record carries an event that the filter of a log does not select. -/
def Log.rejects (log : Log) (r : Record) : Bool :=
  match log.events.decoder.decode r with
  | .ok (some e) => !log.settings.filter.matchesType e.eventType
  | _ => false

/-- One if the last of some items is the error of a record that cannot be decoded. -/
def undecodedLast (items : List (Except LogError Event)) : Nat :=
  match items.getLast? with
  | some (.error (.undecodable _ _ _)) => 1
  | _ => 0

def eventOffset? : Except LogError Event → Option Nat
  | .ok e => some e.offset
  | .error _ => none

theorem Decoder.endsBatch_eq (d : Decoder) (r : Record) :
    r.endsBatch = decide (d.decode r = .ok none) := by
  rw [Bool.eq_iff_iff, decide_eq_true_eq, decode_eq_none_iff, Record.endsBatch, Bool.and_eq_true,
    decide_eq_true_eq, beq_iff_eq]
  rfl

theorem Decoder.offset_of_decode {d : Decoder} {r : Record} {e : Event}
    (h : d.decode r = .ok (some e)) : e.offset = r.offset := by
  obtain ⟨x, rest, -, -, -, rfl⟩ := decode_eq_some_iff.mp h
  rfl

/-- Behind events alone, the last item is that of what follows, if anything does. -/
theorem undecodedLast_append {items : List (Except LogError Event)}
    (h : items.all Except.isOk = true) (more : List (Except LogError Event)) :
    undecodedLast (items ++ more) = undecodedLast more := by
  cases hmore : more.getLast? with
  | some last => rw [undecodedLast, undecodedLast, List.getLast?_append, hmore, Option.some_or]
  | none =>
      rw [List.getLast?_eq_none_iff.mp hmore, List.append_nil, undecodedLast]
      split
      · next hlast => exact absurd (List.mem_of_getLast? hlast) (all_isOk_iff.mp h _)
      · rfl

namespace EventIterator

/-- How an iterator over a log stands that has given some items, reported some notices and seen
some records. -/
structure Accounts (log : Log) (given : List (Except LogError Event)) (reported : List Notice)
    (seen : List Record) (it : EventIterator) : Prop where
  decoder_eq : it.decoder = log.events.decoder
  filter_eq : it.filter = log.settings.filter
  validate_eq : it.scanner.validate = log.settings.validateChecksums
  passed : it.scanner.HasPassed log.data seen
  records_eq : it.records = seen.length
  emitted_eq : it.emitted = given.countP Except.isOk
  tally : seen.length = it.emitted + seen.countP Record.endsBatch + seen.countP log.rejects +
    undecodedLast given
  offsets : (given.filterMap eventOffset?).Sublist (seen.map Record.offset)
  live : it.finished = false → it.scanner.exhausted = false ∧ given.all Except.isOk = true
  reported_eq : Notice.atLeast .info reported =
    if it.finished && given.all Except.isOk then
      [.endOfLog seen.length log.data.length, .decoded it.emitted seen.length]
    else []

theorem accounts_start (log : Log) : log.events.Accounts log [] [] [] where
  decoder_eq := rfl
  filter_eq := rfl
  validate_eq := rfl
  passed := Scanner.hasPassed_start _ _
  records_eq := rfl
  emitted_eq := rfl
  tally := rfl
  offsets := List.Sublist.refl _
  live _ := ⟨rfl, rfl⟩
  reported_eq := rfl

variable {log : Log} {given : List (Except LogError Event)} {reported : List Notice}
  {seen : List Record} {it : EventIterator}

theorem Accounts.reported_of_live (h : it.Accounts log given reported seen)
    (hlive : it.finished = false) : Notice.atLeast .info reported = [] := by
  rw [h.reported_eq, hlive]
  rfl

/-! ## One record -/

/-- The item that a record comes to, if it comes to one. -/
def itemOf (it : EventIterator) (r : Record) : Option (Except LogError Event) :=
  match it.select r with
  | .error fault => some (.error (.undecodable it.records r.offset fault))
  | .ok event => event.map .ok

def behind (it : EventIterator) (r : Record) : EventIterator :=
  let passed := (it.withScanner it.scanner.next.state).countRecord
  match it.select r with
  | .error _ => passed.finish
  | .ok (some _) => passed.countEvent
  | .ok none => passed

theorem behind_eq (it : EventIterator) (r : Record) :
    it.behind r =
      { it with
        scanner := it.scanner.next.state
        records := it.records + 1
        emitted := it.emitted + (it.itemOf r).toList.countP Except.isOk
        finished := it.finished || !(it.itemOf r).toList.all Except.isOk } := by
  rw [behind, itemOf]
  -- The record fails, is passed over in silence or gives an event.
  cases it.select r with
  | error fault =>
      show _ = EventIterator.mk _ _ _ _ _ (it.finished || true)
      rw [Bool.or_true]
      rfl
  | ok event =>
      have hlive : (it.finished || false) = it.finished := Bool.or_false _
      cases event with
      | none =>
          show _ = EventIterator.mk _ _ _ _ _ (it.finished || false)
          rw [hlive]
          rfl
      | some e =>
          show _ = EventIterator.mk _ _ _ _ _ (it.finished || false)
          rw [hlive]
          rfl

/-- A record ends a batch, has its event rejected, gives its event, or cannot be decoded, and only
one of these. -/
theorem Accounts.count_of_record (h : it.Accounts log given reported seen) (r : Record) :
    (it.itemOf r).toList.countP Except.isOk + [r].countP Record.endsBatch +
      [r].countP log.rejects + undecodedLast (it.itemOf r).toList = 1 := by
  rw [List.countP_singleton, List.countP_singleton, itemOf, select_eq, h.decoder_eq, h.filter_eq,
    Log.rejects, Decoder.endsBatch_eq log.events.decoder]
  -- One of the four counts is one: event, batch end, event that is rejected, error.
  cases log.events.decoder.decode r with
  | error fault => rfl
  | ok event =>
      cases event with
      | none => rfl
      | some e =>
          simp only [Except.map, Option.filter]
          by_cases hmatch : log.settings.filter.matchesType e.eventType = true
          · simp only [hmatch, if_true]
            rfl
          · simp only [hmatch]
            rfl

/-- An event has the place of its record. -/
theorem offset_itemOf (it : EventIterator) (r : Record) :
    ((it.itemOf r).toList.filterMap eventOffset?).Sublist [r.offset] := by
  rw [itemOf]
  cases hselect : it.select r with
  | error fault => exact List.nil_sublist _
  | ok event =>
      cases event with
      | none => exact List.nil_sublist _
      | some e =>
          rw [select_eq] at hselect
          obtain ⟨event, hdecode, hfilter⟩ := map_eq_ok.mp hselect
          obtain ⟨rfl, -⟩ := Option.filter_eq_some_iff.mp hfilter
          show [e.offset].Sublist [r.offset]
          rw [Decoder.offset_of_decode hdecode]

/-- **A record that the scanner gives is accounted for.** -/
theorem Accounts.concat (h : it.Accounts log given reported seen) (hlive : it.finished = false)
    {r : Record} (hitem : it.scanner.next.item = some (.ok r)) {more : List Notice}
    (hmore : Notice.atLeast .info more = []) :
    (it.behind r).Accounts log (given ++ (it.itemOf r).toList) (reported ++ more)
      (seen ++ [r]) := by
  obtain ⟨-, hgiven⟩ := h.live hlive
  rw [behind_eq]
  exact {
    decoder_eq := h.decoder_eq
    filter_eq := h.filter_eq
    validate_eq := (Scanner.validate_next _).trans h.validate_eq
    passed := h.passed.concat hitem
    records_eq := by
      rw [List.length_append, ← h.records_eq]
      rfl
    emitted_eq := by
      rw [List.countP_append, ← h.emitted_eq]
    tally := by
      -- A walk that goes on has given events alone, so its last item counts for nothing so far.
      have hcount := h.count_of_record r
      have htally := h.tally
      rw [← List.append_nil given, undecodedLast_append hgiven] at htally
      rw [undecodedLast_append hgiven, List.length_append, List.countP_append, List.countP_append,
        List.length_singleton, htally]
      show _ = it.emitted + _ + _ + _ + _
      simp only [undecodedLast, List.getLast?_nil] at hcount ⊢
      omega
    offsets := by
      rw [List.filterMap_append, List.map_append]
      exact h.offsets.append (it.offset_itemOf r)
    live := fun hfinished => by
      rw [hlive, Bool.false_or, Bool.not_eq_false'] at hfinished
      rw [List.all_append, hgiven, hfinished]
      exact ⟨Scanner.exhausted_next_of_record hitem, rfl⟩
    reported_eq := by
      -- The walk goes on, or it ends with an error.
      rw [Notice.atLeast_append, hmore, h.reported_of_live hlive, List.all_append, hgiven, hlive,
        Bool.true_and, Bool.false_or, Bool.not_and_self]
      rfl }

theorem Accounts.concat_of_next {before scanned : List Notice} {record : Record} {scanner : Scanner}
    (h : it.Accounts log given (reported ++ before) seen) (hlive : it.finished = false)
    (hnext : it.scanner.next =
      { item := some (.ok record), state := scanner, notices := scanned }) :
    (it.behind record).Accounts log (given ++ (it.itemOf record).toList)
      (reported ++ (before ++ (scanned ++ it.decoder.notices record))) (seen ++ [record]) := by
  have hitem : it.scanner.next.item = some (.ok record) := by rw [hnext]
  have hscanned := Scanner.atLeast_info_notices_next hitem
  rw [hnext] at hscanned
  rw [← List.append_assoc]
  refine h.concat hlive hitem ?_
  rw [Notice.atLeast_append, hscanned, Decoder.atLeast_info_notices, List.append_nil]

/-! ## The end of a walk -/

def ended (it : EventIterator) : EventIterator := (it.withScanner it.scanner.next.state).finish

/-- **A walk that ends without a further record is accounted for**: it has come to a fault, or else
to the end of the log. -/
theorem Accounts.ended (h : it.Accounts log given reported seen) (hlive : it.finished = false)
    (hitem : ∀ r, it.scanner.next.item ≠ some (.ok r)) (fault : Option Fault) {more : List Notice}
    (hmore : Notice.atLeast .info more =
      if fault.isSome then [] else
        [.endOfLog it.scanner.recordsRead it.scanner.logSize, .decoded it.emitted it.records]) :
    it.ended.Accounts log (given ++ (fault.map fun f => .error (.fault f)).toList)
      (reported ++ more) seen := by
  obtain ⟨-, hgiven⟩ := h.live hlive
  -- Neither a fault of the scanner nor the end of the log counts a record.
  have hcount : (fault.map fun f => (.error (.fault f) : Except LogError Event)).toList.countP
      Except.isOk = 0 := by cases fault <;> rfl
  exact {
    decoder_eq := h.decoder_eq
    filter_eq := h.filter_eq
    validate_eq := (Scanner.validate_next _).trans h.validate_eq
    passed := h.passed.of_no_record hitem
    records_eq := h.records_eq
    emitted_eq := by
      rw [List.countP_append, hcount, ← h.emitted_eq]
      rfl
    tally := by
      have htally := h.tally
      rw [← List.append_nil given, undecodedLast_append hgiven] at htally
      rw [undecodedLast_append hgiven]
      cases fault <;> exact htally
    offsets := by
      have hnone : (fault.map fun f => (.error (.fault f) : Except LogError Event)).toList.filterMap
          eventOffset? = [] := by cases fault <;> rfl
      rw [List.filterMap_append, hnone, List.append_nil]
      exact h.offsets
    live := nofun
    reported_eq := by
      rw [Notice.atLeast_append, hmore, h.reported_of_live hlive, List.all_append, hgiven,
        h.records_eq, h.passed.recordsRead_eq, h.passed.logSize_eq]
      cases fault <;> rfl }

theorem Accounts.ended_of_end {before scanned : List Notice} {scanner : Scanner}
    (h : it.Accounts log given (reported ++ before.reverse) seen) (hlive : it.finished = false)
    (hnext : it.scanner.next = { item := none, state := scanner, notices := scanned }) :
    (it.withScanner scanner).finish.Accounts log (given ++ [])
      (reported ++ (before.reverse ++ scanned ++ [.decoded it.emitted it.records])) seen := by
  have hitem : it.scanner.next.item = none := by rw [hnext]
  have hscanned : scanned = [.endOfLog it.scanner.recordsRead it.scanner.logSize] := by
    rw [← Scanner.notices_next_of_end (h.live hlive).1 hitem, hnext]
  have hmore : Notice.atLeast .info (scanned ++ [.decoded it.emitted it.records]) =
      [.endOfLog it.scanner.recordsRead it.scanner.logSize, .decoded it.emitted it.records] := by
    rw [hscanned]
    rfl
  have hended := h.ended hlive (fun r => by simp [hitem]) none hmore
  rwa [EventIterator.ended, hnext, List.append_assoc, ← List.append_assoc before.reverse]
    at hended

theorem Accounts.ended_of_fault {before scanned : List Notice} {scanner : Scanner} {fault : Fault}
    (h : it.Accounts log given (reported ++ before.reverse) seen) (hlive : it.finished = false)
    (hnext : it.scanner.next =
      { item := some (.error fault), state := scanner, notices := scanned }) :
    (it.withScanner scanner).finish.Accounts log (given ++ [.error (.fault fault)])
      (reported ++ (before.reverse ++ scanned)) seen := by
  have hitem : it.scanner.next.item = some (.error fault) := by rw [hnext]
  have hscanned := Scanner.atLeast_info_notices_next hitem
  rw [hnext] at hscanned
  have hended := h.ended hlive (fun r => by simp [hitem]) (some fault) hscanned
  rwa [EventIterator.ended, hnext, List.append_assoc] at hended

/-- **A call of an iterator is accounted for**, however many records it takes. -/
theorem Accounts.advance {it : EventIterator} {before : List Notice} (hlive : it.finished = false) :
    ∀ {given : List (Except LogError Event)} {seen : List Record},
      it.Accounts log given (reported ++ before.reverse) seen →
      ∃ more, (it.advance before).state.Accounts log (given ++ (it.advance before).item.toList)
        (reported ++ (it.advance before).notices) (seen ++ more) := by
  -- One step for each record that the call takes; what was given and seen before it varies.
  fun_induction EventIterator.advance it before with
  | case1 it before scanner scanned hnext =>
      intro given seen h
      exact ⟨[], (List.append_nil seen).symm ▸ h.ended_of_end hlive hnext⟩
  | case2 it before fault scanner scanned hnext =>
      intro given seen h
      exact ⟨[], (List.append_nil seen).symm ▸ h.ended_of_fault hlive hnext⟩
  | case3 it before record scanner scanned hnext reported' passed fault =>
      rename_i hselect
      intro given seen h
      have hrecord := h.concat_of_next hlive hnext
      simp only [itemOf, behind, hselect, hnext] at hrecord
      exact ⟨[record], hrecord⟩
  | case4 it before record scanner scanned hnext reported' passed event =>
      rename_i hselect
      intro given seen h
      have hrecord := h.concat_of_next hlive hnext
      simp only [itemOf, behind, hselect, hnext] at hrecord
      exact ⟨[record], hrecord⟩
  | case5 it before record scanner scanned hnext reported' passed hselect =>
      rename_i ih
      intro given seen h
      have hrecord := h.concat_of_next hlive hnext
      simp only [itemOf, behind, hselect, hnext, Option.map_none, Option.toList_none,
        List.append_nil] at hrecord
      -- The record comes to no item, so the call goes on behind it.
      have hbefore : before.reverse ++ reported' = (reported'.reverse ++ before).reverse := by
        rw [List.reverse_append, List.reverse_reverse]
      obtain ⟨more, hmore⟩ := ih hlive (hbefore ▸ hrecord)
      exact ⟨record :: more, List.append_cons seen record more ▸ hmore⟩

/-! ## Any number of calls -/

theorem next_of_finished {it : EventIterator} (h : it.finished = true) :
    it.next = { item := none, state := it, notices := [] } := by
  rw [next, if_pos h]

theorem Accounts.next (h : it.Accounts log given reported seen) :
    ∃ more, it.next.state.Accounts log (given ++ it.next.item.toList) (reported ++ it.next.notices)
      (seen ++ more) := by
  cases hfinished : it.finished with
  | true =>
      rw [next_of_finished hfinished]
      refine ⟨[], ?_⟩
      show it.Accounts log (given ++ []) (reported ++ []) (seen ++ [])
      rwa [List.append_nil, List.append_nil, List.append_nil]
  | false =>
      rw [EventIterator.next, hfinished]
      refine Accounts.advance hfinished ?_
      rwa [List.reverse_nil, List.append_nil]

/-- **However often an iterator is called, the records that it has seen are accounted for.** -/
theorem Accounts.after {items : List (Except LogError Event)}
    (hyields : Step.Yields EventIterator.next it items) (h : it.Accounts log given reported seen)
    (n : Nat) :
    ∃ more, (Step.after EventIterator.next n it).Accounts log (given ++ items.take n)
      (reported ++ Step.reported EventIterator.next n it) (seen ++ more) := by
  -- On the calls; the invariant holds of whatever has been given, reported and seen before.
  induction n generalizing it given reported seen items with
  | zero =>
      refine ⟨[], ?_⟩
      rw [List.take_zero, Step.reported, List.append_nil, List.append_nil, List.append_nil]
      exact h
  | succ n ih =>
      obtain ⟨hitem, htail⟩ := hyields.tail
      obtain ⟨first, hfirst⟩ := h.next
      obtain ⟨more, hmore⟩ := ih htail hfirst
      have htake : items.take (n + 1) = items.head?.toList ++ items.tail.take n := by
        cases items with
        | nil =>
            rw [List.take_nil, List.tail_nil, List.take_nil, List.head?_nil, Option.toList_none,
              List.append_nil]
        | cons item items => rfl
      refine ⟨first ++ more, ?_⟩
      rw [htake, ← hitem, Step.reported, ← List.append_assoc, ← List.append_assoc,
        ← List.append_assoc]
      exact hmore

/-- An iterator is finished once it has been called more often than there are events. -/
theorem finished_after {events : List Event} {error : Option LogError} (hlive : it.finished = false)
    (hyields : Step.Yields EventIterator.next it (eventsThen events error)) (n : Nat) :
    (Step.after EventIterator.next n it).finished = decide (events.length < n) := by
  -- On the calls: as long as an event comes the walk is live, and what is no event ends it.
  induction n generalizing it events with
  | zero => exact hlive
  | succ n ih =>
      obtain ⟨hitem, htail⟩ := hyields.tail
      rcases next_cases hlive with ⟨e, he, -, hlive'⟩ | ⟨-, hlast, hfinished⟩
      · cases events with
        | nil =>
            rw [hitem] at he
            cases error <;> cases he
        | cons e' events =>
            rw [Step.after, ih hlive' htail]
            exact decide_eq_decide.mpr Nat.succ_lt_succ_iff.symm
      · cases events with
        | nil =>
            rw [Step.after, Step.after_of_fixed (by rw [next_of_finished hfinished]), hfinished]
            exact (decide_eq_true n.succ_pos).symm
        | cons e' events => exact absurd hitem (hlast e')

end EventIterator

/-! ## The walk over a log -/

theorem take_eventsThen (events : List Event) (error : Option LogError) (n : Nat) :
    (eventsThen events error).take n =
      (events.take n).map .ok ++ ((error.map .error).toList).take (n - events.length) := by
  rw [eventsThen, List.take_append, List.length_map, List.map_take]

theorem countP_isOk_take_eventsThen (events : List Event) (error : Option LogError) (n : Nat) :
    ((eventsThen events error).take n).countP Except.isOk = min n events.length := by
  have hevents : ((events.take n).map (Except.ok (ε := LogError))).countP Except.isOk =
      min n events.length := by
    rw [List.countP_map, ← List.length_take]
    exact List.countP_eq_length.mpr fun _ _ => rfl
  have herror : ((error.map (Except.error (α := Event))).toList.take
      (n - events.length)).countP Except.isOk = 0 := by
    refine List.countP_eq_zero.mpr fun item hitem => ?_
    obtain ⟨e, -, rfl⟩ :=
      Option.map_eq_some_iff.mp (Option.mem_toList.mp (List.mem_of_mem_take hitem))
    nofun
  rw [take_eventsThen, List.countP_append, hevents, herror, Nat.add_zero]

theorem filterMap_eventOffset?_take (events : List Event) (error : Option LogError) :
    ((eventsThen events error).take events.length).filterMap eventOffset? =
      events.map Event.offset := by
  rw [take_eventsThen, Nat.sub_self, List.take_zero, List.append_nil, List.take_length,
    List.filterMap_map]
  exact congrFun List.filterMap_eq_map events

theorem all_isOk_take_eventsThen (events : List Event) (error : Option LogError) {n : Nat}
    (h : events.length < n) :
    ((eventsThen events error).take n).all Except.isOk = error.isNone := by
  have hlength : (eventsThen events error).length ≤ n := by
    rw [eventsThen, List.length_append, List.length_map]
    cases error with
    | none => exact h.le
    | some e => exact h
  have hevents : (events.map (Except.ok (ε := LogError))).all Except.isOk = true :=
    List.all_map.trans (List.all_eq_true.mpr fun _ _ => rfl)
  rw [List.take_of_length_le hlength, eventsThen, List.all_append, hevents, Bool.true_and]
  cases error <;> rfl

/-- **However often the iterator over a log is called, every record that it has seen is accounted
for**: as one of the events given, which stand at rising places, as a batch's end, as a rejected
event or as the record at which the walk ended. The scanner stands at the end of the last of these
records, and after the first error or the end no call does anything. The end of the log is reported
once, when the walk comes to it, and never behind an error. -/
theorem Log.accounts_after (log : Log) :
    ∃ (events : List Event) (error : Option LogError),
      Step.Yields EventIterator.next log.events (eventsThen events error) ∧
      (events.map Event.offset).Pairwise (· < ·) ∧
      (∀ n, ∃ seen : List Record,
        let it := Step.after EventIterator.next n log.events
        seen.map .ok <+: log.records.items ∧
        it.records = seen.length ∧
        it.records = it.scanner.recordsRead ∧
        it.records = it.emitted + seen.countP Record.endsBatch + seen.countP log.rejects +
          undecodedLast ((eventsThen events error).take n) ∧
        it.emitted = min n events.length ∧
        it.scanner.position ≤ log.data.length ∧
        8 ∣ it.scanner.position ∧
        16 * it.scanner.recordsRead ≤ it.scanner.position ∧
        it.scanner.position = reached seen) ∧
      (∀ n, events.length < n →
        let it := Step.after EventIterator.next n log.events
        it.next.item = none ∧ it.next.state = it) ∧
      ∀ n,
        let it := Step.after EventIterator.next n log.events
        (Notice.atLeast .info (Step.reported EventIterator.next n log.events)).map Notice.line =
          if error = none ∧ events.length < n then
            [s!"INFO Reached end of log after {it.scanner.recordsRead} records ({log.data.length} bytes)",
              s!"INFO Decoded {it.emitted} events from {it.scanner.recordsRead} records"]
          else [] := by
  obtain ⟨events, error, -, hyields, -⟩ := log.exists_events
  -- Every part of the statement is read off the invariant after `n` calls.
  have hafter (n : Nat) : ∃ seen, (Step.after EventIterator.next n log.events).Accounts log
      ((eventsThen events error).take n) (Step.reported EventIterator.next n log.events) seen :=
    (EventIterator.accounts_start log).after hyields n
  have hlive : log.events.finished = false := rfl
  have hfinished (n : Nat) := EventIterator.finished_after hlive hyields n
  refine ⟨events, error, hyields, ?_, fun n => ?_, fun n hn => ?_, fun n => ?_⟩
  · obtain ⟨seen, h⟩ := hafter events.length
    have hoffsets := h.offsets
    rw [filterMap_eventOffset?_take] at hoffsets
    exact h.passed.pairwise_offset.sublist hoffsets
  · obtain ⟨seen, h⟩ := hafter n
    refine ⟨seen, ?_, h.records_eq, ?_, ?_, ?_, h.passed.position_le, h.passed.dvd_position,
      h.passed.sixteen_mul_recordsRead_le, h.passed.position_eq⟩
    · have hprefix := h.passed.prefix_items
      rwa [h.validate_eq] at hprefix
    · rw [h.records_eq, h.passed.recordsRead_eq]
    · rw [h.records_eq, h.tally]
    · rw [h.emitted_eq, countP_isOk_take_eventsThen]
  · -- More calls than events: the walk is over, with or without an error.
    have hover := (hfinished n).trans (decide_eq_true hn)
    intro it
    rw [EventIterator.next_of_finished hover]
    exact ⟨rfl, rfl⟩
  · obtain ⟨seen, h⟩ := hafter n
    intro it
    rw [h.reported_eq, hfinished n, ← h.passed.recordsRead_eq]
    by_cases hn : events.length < n
    · rw [all_isOk_take_eventsThen events error hn, decide_eq_true hn, Bool.true_and]
      cases error with
      | none =>
          rw [if_pos (And.intro rfl hn), ← Notice.line_endOfLog, ← Notice.line_decoded]
          rfl
      | some e =>
          rw [if_neg fun hclean => nomatch And.left hclean]
          rfl
    · rw [decide_eq_false hn, if_neg fun hclean => hn (And.right hclean)]
      rfl

end EventLog
