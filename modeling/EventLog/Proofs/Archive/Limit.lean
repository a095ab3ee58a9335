import EventLog.Proofs.Archive.RoundTrip
import Mathlib.Algebra.Order.Ring.Nat

set_option autoImplicit false

/-! # Archives in sinks with little room

Two things can end the writing of an archive before all events are in it: the log may hold a
record that cannot be read, and the sink may be full. Either way the sink holds the front of one
text, which is as long as there is room for (`Archive.writeEvents_limited`): the entries of the
events before the error, each of whole blocks, and the end of the archive.
-/

namespace EventLog

namespace Archive

/-! ## Whole blocks -/

/-- An entry takes a block for its header, and whole blocks for its contents. -/
theorem length_entryPieces {index : Nat} (hindex : index < UInt64.size) (e : Event) :
    (entryPieces index e).flatten.length = 512 + Tar.wholeBlocks (Entry.content e).length := by
  have hheader : (headerOf index e).bytes.length = 512 :=
    Tar.Header.length_bytes (Entry.length_name_lt e.eventType hindex)
      (show entryMode < Nat.pow 8 7 by decide)
  rw [flatten_entryPieces, List.length_append, List.length_append, hheader, Tar.zeros,
    List.length_replicate, Entry.content_eq, Tar.wholeBlocks_eq, Nat.add_assoc]

theorem length_entriesBytes {index : Nat} {events : List Event}
    (hcount : index + events.length ≤ UInt64.size) :
    (entriesBytes index events).length =
      (events.map fun e => 512 + Tar.wholeBlocks (Entry.content e).length).sum := by
  induction events generalizing index with
  | nil => rfl
  | cons e events ih =>
      rw [List.length_cons] at hcount
      rw [entriesBytes, List.length_append, length_entryPieces (by omega), ih (by omega),
        List.map_cons, List.sum_cons]

/-! ## A sink with room for a number of bytes -/

theorem taken_offered (n : Nat) (bytes : List UInt8) :
    ((Sink.empty (some n)).offered bytes).taken.toList = bytes.take n := by
  rw [Sink.empty, Sink.offered, Array.toList_appendList]
  rfl

/-- Writing into a sink with room for `n` bytes comes to the number of events, to the error of the
log or to an error of the sink, by where the room ends. -/
theorem resultOf_cases (n : Nat) (events : List Event) (error : Option LogError) :
    (error = none ∧ (entriesBytes 0 events).length + 1024 ≤ n ∧
      resultOf (.empty (some n)) 0 events error = .ok events.length) ∨
    (∃ e, error = some e ∧ (entriesBytes 0 events).length ≤ n ∧
      resultOf (.empty (some n)) 0 events error = .error e) ∨
    ((n < (entriesBytes 0 events).length ∨
        error = none ∧ n < (entriesBytes 0 events).length + 1024) ∧
      resultOf (.empty (some n)) 0 events error = .error full) := by
  have hroom (size : Nat) : (Sink.empty (some n)).hasRoom size = decide (size ≤ n) := rfl
  have htrailer : Tar.trailer.length = 1024 := List.length_replicate
  simp only [resultOf, hroom, htrailer, decide_eq_true_eq, Nat.zero_add]
  by_cases hentries : (entriesBytes 0 events).length ≤ n
  · rw [if_pos hentries]
    cases error with
    | some e => exact .inr (.inl ⟨e, rfl, hentries, rfl⟩)
    | none =>
        by_cases hall : (entriesBytes 0 events).length + 1024 ≤ n
        · exact .inl ⟨rfl, hall, if_pos hall⟩
        · exact .inr (.inr ⟨.inr ⟨rfl, Nat.lt_of_not_le hall⟩, if_neg hall⟩)
  · exact .inr (.inr ⟨.inl (Nat.lt_of_not_le hentries), if_neg hentries⟩)

/-- The three results, each with the places where the room may end. -/
theorem resultOf_iff (n : Nat) (events : List Event) {error : Option LogError}
    (hio : ∀ cause, error ≠ some (.io cause)) :
    (∀ k, resultOf (.empty (some n)) 0 events error = .ok k ↔
      k = events.length ∧ error = none ∧ (entriesBytes 0 events).length + 1024 ≤ n) ∧
    (∀ e, error = some e → (resultOf (.empty (some n)) 0 events error = .error e ↔
      (entriesBytes 0 events).length ≤ n)) ∧
    ((∃ cause, resultOf (.empty (some n)) 0 events error = .error (.io cause)) ↔
      n < (entriesBytes 0 events).length ∨
        error = none ∧ n < (entriesBytes 0 events).length + 1024) := by
  -- Three outcomes: all is written, the log's own error comes first, or the room runs out.
  rcases resultOf_cases n events error with ⟨rfl, hroom, h⟩ | ⟨e, rfl, hroom, h⟩ | ⟨hroom, h⟩
  · rw [h]
    refine ⟨fun k => ?_, nofun, iff_of_false nofun (by omega)⟩
    rw [Except.ok.injEq]
    exact ⟨fun hk => ⟨hk.symm, rfl, hroom⟩, fun hk => hk.1.symm⟩
  · rw [h]
    refine ⟨fun k => iff_of_false nofun nofun, ?_, ?_⟩
    · rintro _ ⟨⟩
      exact iff_of_true rfl hroom
    · refine iff_of_false ?_ ?_
      · rintro ⟨cause, hcause⟩
        exact hio cause (congrArg some (Except.error.inj hcause))
      · rintro (hless | ⟨hnone, -⟩)
        · omega
        · cases hnone
  · rw [h]
    refine ⟨fun k => iff_of_false nofun ?_, ?_, iff_of_true ⟨_, rfl⟩ hroom⟩
    · rintro ⟨-, -, hall⟩
      omega
    · rintro e rfl
      refine iff_of_false ?_ ?_
      · intro hfull
        exact hio _ (congrArg some (Except.error.inj hfull).symm)
      · rcases hroom with hless | ⟨hnone, -⟩
        · omega
        · cases hnone

/-- **A sink with room for `n` bytes holds the first `n` bytes of the archive**, whether or not the
log has an error, which is the archive of the events before the error. The number of events is
the result exactly when there is no error and room for everything; the error of the log is the
result exactly when there is room for all entries; and otherwise it is an error of the sink. A
sink with room for everything holds the whole archive, also when the log has an error. -/
theorem writeEvents_limited {log : Log} (hlog : log.data.length < UInt64.size) :
    ∃ (events : List Event) (error : Option LogError),
      Step.Yields EventIterator.next log.events (eventsThen events error) ∧
      (entriesBytes 0 events).length =
        (events.map fun e => 512 + Tar.wholeBlocks (Entry.content e).length).sum ∧
      (∀ n : Nat,
        (writeEvents log.events (.empty (some n))).archive.sink.taken.toList =
          (entriesBytes 0 events ++ List.replicate 1024 0).take n ∧
        (∀ k, (writeEvents log.events (.empty (some n))).result = .ok k ↔
          k = events.length ∧ error = none ∧ (entriesBytes 0 events).length + 1024 ≤ n) ∧
        (∀ e, error = some e →
          ((writeEvents log.events (.empty (some n))).result = .error e ↔
            (entriesBytes 0 events).length ≤ n)) ∧
        ((∃ cause, (writeEvents log.events (.empty (some n))).result = .error (.io cause)) ↔
          n < (entriesBytes 0 events).length ∨
            error = none ∧ n < (entriesBytes 0 events).length + 1024)) ∧
      (writeEvents log.events (.empty none)).archive.sink.taken.toList =
        entriesBytes 0 events ++ List.replicate 1024 0 ∧
      (writeEvents log.events (.empty none)).result = error.elim (.ok events.length) .error ∧
      ((∀ e ∈ events, (Entry.content e).length < Nat.pow 8 11) →
        Tar.readEntries (entriesBytes 0 events ++ List.replicate 1024 0) =
          some (events.mapIdx stored, [])) := by
  obtain ⟨events, error, -, hyields, hcalls, hio, hcount⟩ := log.exists_events
  obtain ⟨hresult, htaken⟩ := writeEvents_unlimited hcalls
  refine ⟨events, error, hyields, length_entriesBytes (by omega), fun n => ?_, htaken, hresult,
    readEntries_whole (by omega)⟩
  obtain ⟨hresultLimited, hsink⟩ := writeEvents_spec hcalls (.empty (some n))
  rw [hresultLimited, hsink]
  exact ⟨taken_offered n _, resultOf_iff n events hio⟩

end Archive

/-! ## A log that is torn off -/

namespace Log

/-- A table in which one event without fields is registered. -/
def plainTable : Schema.Table where
  typeNames := []
  schemas := [({ eventType := 1, version := 1 }, [])]
  nodup_keys := by decide

def plainRecord : Record := ⟨0, 16, 0, [1, 0, 0, 0, 1, 0, 1, 0] ++ List.replicate 40 0⟩

def plainEvent : Event where
  eventType := 1
  typeName := "Unknown"
  version := 1
  contextVersion := 1
  context :=
    { timestamp := 0
      timestampText := "1970-01-01 00:00:00Z"
      user := ⟨List.replicate 16 0, rfl⟩
      address := .v4 0 }
  data := .empty
  offset := 0

/-- A log that ends with the first byte of its second record. -/
def torn : Log := { data := single plainRecord ++ [1], settings := { table := plainTable } }

theorem items_torn :
    torn.events.items = eventsThen [plainEvent] (some (.fault (.shortRead 1 16 64))) := by
  have hdecode : Decoder.decode { table := plainTable, strict := false } plainRecord =
      .ok (some plainEvent) := by decide +kernel
  have hfirst : torn.records.next.item = some (.ok plainRecord) := rfl
  have hlast : torn.records.next.state.next.item = some (.error (.shortRead 1 16 64)) := rfl
  rw [torn, items_events, ← torn, Scanner.items_of_record hfirst, Scanner.items_of_fault hlast,
    walk, hdecode]
  rfl

theorem wholeBlocks_plainEvent : Tar.wholeBlocks (Entry.content plainEvent).length = 512 := by
  rw [Entry.content_eq, Entry.documentBytes_eq]
  decide +kernel

end Log

/-- The archive of a torn log has one entry of two blocks; there is room for the entry in 1024
bytes, but not in 1023. -/
theorem Archive.writeEvents_limited_torn :
    Log.torn.data.length < UInt64.size ∧
      (entriesBytes 0 [Log.plainEvent]).length = 1024 ∧
      (writeEvents Log.torn.events (.empty (some 1500))).archive.sink.taken.toList =
        (entriesBytes 0 [Log.plainEvent] ++ List.replicate 1024 0).take 1500 ∧
      (writeEvents Log.torn.events (.empty (some 1024))).result =
        .error (.fault (.shortRead 1 16 64)) ∧
      (∃ cause, (writeEvents Log.torn.events (.empty (some 1023))).result =
        .error (.io cause)) ∧
      (writeEvents Log.torn.events (.empty none)).archive.sink.taken.toList =
        entriesBytes 0 [Log.plainEvent] ++ List.replicate 1024 0 := by
  have hlog : Log.torn.data.length < UInt64.size := by decide
  obtain ⟨events, error, hyields, hsize, hlimited, hunlimited, -⟩ := writeEvents_limited hlog
  have hitems : Step.Yields EventIterator.next Log.torn.events Log.torn.events.items :=
    EventIterator.yields_items rfl
  rw [Log.items_torn] at hitems
  -- The items of the concrete log are known, so the events that the theorem speaks of are too.
  obtain ⟨rfl, rfl⟩ := eventsThen_inj (hyields.unique hitems)
  have hlength : (entriesBytes 0 [Log.plainEvent]).length = 1024 := by
    rw [hsize, List.map_singleton, Log.wholeBlocks_plainEvent]
    rfl
  rw [hlength] at hlimited
  refine ⟨hlog, hlength, (hlimited 1500).1, ?_, ?_, hunlimited⟩
  · exact ((hlimited 1024).2.2.1 _ rfl).mpr (by decide)
  · exact (hlimited 1023).2.2.2.mpr (.inl (by decide))

end EventLog
