import EventLog.Proofs.Event.Fault
import EventLog.Proofs.Wire.Strict

set_option autoImplicit false

/-! # Tables with more schemas

A decoder asks its table for the fields of one key and for display names, and for nothing else. So
two tables that agree there give the same events (`Log.items_events_of_agree`), and a table that
was extended by further keys changes nothing in a log up to the first event whose key was unknown
before (`Log.items_extended`).
-/

namespace EventLog

namespace Schema.Table

/-- The type names of another table, and its fields for every key that is registered there. -/
structure Extends (table base : Table) : Prop where
  typeNames_eq : table.typeNames = base.typeNames
  get?_eq : ∀ key ∈ base.keys, table.get? key = base.get? key

theorem get?_of_not_mem_keys {t : Table} {key : EventKey} (h : key ∉ t.keys) : t.get? key = none := by
  refine List.lookup_eq_none_iff.mpr fun entry hentry => ?_
  rw [bne_iff_ne]
  rintro rfl
  exact h (List.mem_map_of_mem hentry)

theorem Extends.get?_cases {table base : Table} (h : table.Extends base) (key : EventKey) :
    base.get? key = none ∨ table.get? key = base.get? key := by
  by_cases hkey : key ∈ base.keys
  · exact .inr (h.get?_eq key hkey)
  · exact .inl (get?_of_not_mem_keys hkey)

end Schema.Table

/-! ## One record -/

namespace Decoder

variable {d : Decoder} {table : Schema.Table}

def withTable (d : Decoder) (table : Schema.Table) : Decoder := { d with table }

/-- Of a table only the display names and the fields of the event's key matter. -/
theorem decodeBody_withTable (hnames : table.typeNames = d.table.typeNames) {header : RecordHeader}
    (hget : table.get? header.key = d.table.get? header.key) (offset : Nat) (c : Cursor) :
    (d.withTable table).decodeBody header offset c = d.decodeBody header offset c := by
  rw [decodeBody_eq, decodeBody_eq]
  simp only [withTable, Payload.readFrom, assemble, Schema.Table.typeName, hget, hnames]

/-- An event of a key without fields is not decoded. -/
theorem decodeBody_of_unknown {header : RecordHeader} (hget : d.table.get? header.key = none)
    (offset : Nat) (c : Cursor) :
    (∃ fault, Context.readVersion header.contextVersion c = .error fault) ∨
      ∃ position, d.decodeBody header offset c = .error (.unknownSchema header.key position) := by
  rw [decodeBody_eq]
  cases Context.readVersion header.contextVersion c with
  | error fault => exact .inl ⟨fault, rfl⟩
  | ok front =>
      refine .inr ⟨front.2.position, ?_⟩
      simp only [ok_bind, Payload.readFrom, hget]
      rfl

theorem decode_withTable (hnames : table.typeNames = d.table.typeNames)
    (hget : ∀ key, table.get? key = d.table.get? key) (r : Record) :
    (d.withTable table).decode r = d.decode r := by
  rw [decode_eq, decode_eq]
  refine bind_congr fun ⟨header, c⟩ => ?_
  dsimp only
  rw [decodeBody_withTable hnames (hget header.key)]

/-- The outcome of decoding a record that has no schema. -/
def Unknown (result : Except Fault (Option Event)) : Prop :=
  ∃ key position, result = .error (.unknownSchema key position)

/-- **Under an extended table a record is decoded as before**, unless it had no schema. -/
theorem decode_extended (h : table.Extends d.table) (r : Record) :
    Unknown (d.decode r) ∨ (d.withTable table).decode r = d.decode r := by
  rw [decode_eq, decode_eq]
  cases RecordHeader.readFrom ⟨r.payloadOffset, r.payload⟩ with
  | error fault => exact .inr rfl
  | ok front =>
      obtain ⟨header, c⟩ := front
      simp only [ok_bind]
      split
      · exact .inr rfl
      -- The table is looked up once: a schema it lacks stops the record, one it has is kept.
      rcases h.get?_cases header.key with hnone | hsame
      · rcases decodeBody_of_unknown hnone r.offset c with ⟨fault, hfault⟩ | ⟨position, hunknown⟩
        · rw [decodeBody_eq, decodeBody_eq, hfault]
          exact .inr rfl
        · exact .inl ⟨header.key, position, by rw [hunknown]; rfl⟩
      · rw [decodeBody_withTable h.typeNames_eq hsame]
        exact .inr rfl

end Decoder

/-! ## A walk -/

section Walks

variable {decoder decoder' : Decoder} {filter : Filter}

/-- A walk depends on what the decoder makes of its records. -/
theorem walk_congr {items : List (Except Fault Record)}
    (h : ∀ r, .ok r ∈ items → decoder'.decode r = decoder.decode r) (index : Nat) :
    walk decoder' filter index items = walk decoder filter index items := by
  induction items generalizing index with
  | nil => rfl
  | cons item items ih =>
      cases item with
      | error fault => rfl
      | ok r =>
          have hr := h r List.mem_cons_self
          have hrest (r' : Record) (hr' : .ok r' ∈ items) := h r' (List.mem_cons_of_mem _ hr')
          simp only [walk, hr, ih hrest]

/-- A walk over records that can all be decoded gives events only. -/
theorem exists_walk_eq (filter : Filter) {passed : List Record}
    (h : ∀ p ∈ passed, ∃ event, decoder.decode p = .ok event) (index : Nat) :
    ∃ given : List Event, walk decoder filter index (passed.map .ok) = given.map .ok := by
  induction passed generalizing index with
  | nil => exact ⟨[], rfl⟩
  | cons p passed ih =>
      obtain ⟨⟨event, hevent⟩, hrest⟩ := List.forall_mem_cons.mp h
      obtain ⟨given, hgiven⟩ := ih hrest (index + 1)
      rw [List.map_cons]
      rcases walk_record decoder filter index p (passed.map .ok) with
        ⟨fault, hfault, -⟩ | ⟨e, -, hwalk⟩ | hwalk
      · rw [hevent] at hfault
        cases hfault
      · exact ⟨e :: given, by rw [hwalk, hgiven]; rfl⟩
      · exact ⟨given, by rw [hwalk, hgiven]⟩

/-- Decoders that agree on records that can be decoded give the same events for them, and go on
behind them. -/
theorem exists_walk_append_eq (filter : Filter) {passed : List Record}
    (h : ∀ p ∈ passed, ∃ event, decoder.decode p = .ok event) (index : Nat) :
    ∃ given : List Event, ∀ decoder' : Decoder,
      (∀ p ∈ passed, decoder'.decode p = decoder.decode p) → ∀ more,
        walk decoder' filter index (passed.map .ok ++ more) =
          given.map .ok ++ walk decoder' filter (index + passed.length) more := by
  obtain ⟨given, hgiven⟩ := exists_walk_eq filter h index
  refine ⟨given, ?_⟩
  intro decoder' hsame more
  have hfront : walk decoder' filter index (passed.map .ok) = given.map .ok := by
    rw [← hgiven]
    refine walk_congr (fun r hr => ?_) index
    obtain ⟨p, hp, rfl⟩ : ∃ p ∈ passed, p = r := by simpa using hr
    exact hsame p hp
  rw [walk_append, hfront, if_pos]
  simp [Except.isOk, Except.toBool]

/-- The errors of a walk have the numbers of its records. -/
theorem le_number_of_walk {index number offset : Nat} {items : List (Except Fault Record)}
    {fault : Fault} (h : .error (.undecodable number offset fault) ∈ walk decoder filter index items) :
    index ≤ number := by
  obtain ⟨n, hn⟩ := List.mem_iff_getElem?.mp h
  obtain ⟨-, i, -, hnumber, -⟩ := error_of_walk hn
  omega

/-- Every record before one that cannot be decoded was decoded. -/
theorem exists_passed {index number offset : Nat} {items : List (Except Fault Record)}
    {fault : Fault} (h : .error (.undecodable number offset fault) ∈ walk decoder filter index items) :
    ∃ (passed : List Record) (r : Record) (rest : List (Except Fault Record)),
      items = passed.map .ok ++ .ok r :: rest ∧ number = index + passed.length ∧ r.offset = offset ∧
      decoder.decode r = .error fault ∧ ∀ p ∈ passed, ∃ event, decoder.decode p = .ok event := by
  -- On the items: the error is the one of the first record that cannot be decoded.
  induction items generalizing index with
  | nil => cases h
  | cons item items ih =>
      cases item with
      | error fault' =>
          rw [walk, List.mem_singleton] at h
          cases h
      | ok r =>
          cases hdecode : decoder.decode r with
          | error fault' =>
              simp only [walk, hdecode, List.mem_singleton] at h
              cases h
              exact ⟨[], r, items, rfl, rfl, rfl, hdecode, List.forall_mem_nil _⟩
          | ok event =>
              have hrest : .error (.undecodable number offset fault) ∈
                  walk decoder filter (index + 1) items := by
                rcases walk_record decoder filter index r items with
                  ⟨fault', hfault, -⟩ | ⟨e, -, hwalk⟩ | hwalk
                · rw [hdecode] at hfault
                  cases hfault
                · rw [hwalk] at h
                  rcases List.mem_cons.mp h with heq | hrest
                  · cases heq
                  · exact hrest
                · rwa [hwalk] at h
              obtain ⟨passed, r', rest, rfl, rfl, hoffset, hfault, hpassed⟩ := ih hrest
              refine ⟨r :: passed, r', rest, rfl, ?_, hoffset, hfault, ?_⟩
              · rw [List.length_cons]
                omega
              · exact List.forall_mem_cons.mpr ⟨⟨event, hdecode⟩, hpassed⟩

/-- Where no record lacks a schema, a walk is the same under the extended table. -/
theorem walk_extended {table : Schema.Table} (h : table.Extends decoder.table) {index : Nat}
    {items : List (Except Fault Record)}
    (hknown : ∀ number offset key position, .error (.undecodable number offset
      (.unknownSchema key position)) ∉ walk decoder filter index items) :
    walk (decoder.withTable table) filter index items = walk decoder filter index items := by
  -- On the items; an unknown schema, the one thing the wider table changes, is excluded.
  induction items generalizing index with
  | nil => rfl
  | cons item items ih =>
      cases item with
      | error fault => rfl
      | ok r =>
          rcases decoder.decode_extended h r with ⟨key, position, hunknown⟩ | hsame
          · refine absurd ?_ (hknown index r.offset key position)
            simp [walk, hunknown]
          cases hdecode : decoder.decode r with
          | error fault => simp only [walk, hsame, hdecode]
          | ok event =>
              cases event with
              | none =>
                  simp only [walk, hdecode] at hknown
                  simp only [walk, hsame, hdecode]
                  exact ih hknown
              | some e =>
                  simp only [walk, hsame, hdecode]
                  by_cases hmatch : filter.matchesType e.eventType
                  · simp only [walk, hdecode, if_pos hmatch, List.mem_cons, not_or] at hknown
                    rw [if_pos hmatch, if_pos hmatch, ih]
                    intro number offset key position
                    exact (hknown number offset key position).2
                  · simp only [walk, hdecode, if_neg hmatch] at hknown
                    rw [if_neg hmatch, if_neg hmatch, ih hknown]

end Walks

namespace Log

/-- Tables with the same names and the same fields for every key give the same items. -/
theorem items_events_of_agree {settings : Settings} {table : Schema.Table}
    (hnames : table.typeNames = settings.table.typeNames)
    (hget : ∀ key, table.get? key = settings.table.get? key) (data : List UInt8) :
    (events { data, settings := { settings with table } }).items =
      (events { data, settings }).items := by
  rw [items_events, items_events]
  refine walk_congr (fun r _ => ?_) 0
  exact Decoder.decode_withTable (d := ⟨settings.table, settings.strictLength⟩) hnames hget r

/-- **Extending a table never changes what was already decoded.** Where no event lacked a schema, the
items of a log are the same. Otherwise its events are given again before anything else, and every
record before the one that lacked its schema is decoded, so that no error is about one of them. -/
theorem items_extended {settings : Settings} {table : Schema.Table}
    (h : table.Extends settings.table) (data : List UInt8) :
    let before := (events { data, settings }).items
    let after := (events { data, settings := { settings with table } }).items
    let decoder : Decoder := { table, strict := settings.strictLength }
    ((∀ index offset key position,
      .error (.undecodable index offset (.unknownSchema key position)) ∉ before) →
        after = before) ∧
    ∀ index offset key position,
      .error (.undecodable index offset (.unknownSchema key position)) ∈ before →
        ∃ (given : List Event) (more : List (Except LogError Event)) (passed : List Record)
            (r : Record) (rest : List (Except Fault Record)),
          before = given.map .ok ++
            [.error (.undecodable index offset (.unknownSchema key position))] ∧
          after = given.map .ok ++ more ∧
          (records { data, settings }).items = passed.map .ok ++ .ok r :: rest ∧
          passed.length = index ∧ r.offset = offset ∧
          (∀ p ∈ passed, ∃ event, decoder.decode p = .ok event) ∧
          ∀ number place fault, .error (.undecodable number place fault) ∈ after →
            index ≤ number := by
  intro before after decoder
  let base : Decoder := { table := settings.table, strict := settings.strictLength }
  have hbefore : before = walk base settings.filter 0 (records { data, settings }).items :=
    items_events data settings
  have hafter : after = walk decoder settings.filter 0 (records { data, settings }).items :=
    items_events data { settings with table }
  refine ⟨fun hknown => ?_, fun index offset key position hmem => ?_⟩
  · rw [hbefore] at hknown
    rw [hbefore, hafter]
    exact walk_extended h hknown
  · rw [hbefore] at hmem
    -- The records before the failed one decode alike, so both walks agree up to it.
    obtain ⟨passed, r, rest, hitems, hindex, hoffset, hunknown, hpassed⟩ := exists_passed hmem
    rw [Nat.zero_add] at hindex
    have hsame (p : Record) (hp : p ∈ passed) : decoder.decode p = base.decode p := by
      rcases base.decode_extended h p with ⟨key', position', hunknown'⟩ | hsame
      · obtain ⟨event, hevent⟩ := hpassed p hp
        rw [hevent] at hunknown'
        cases hunknown'
      · exact hsame
    obtain ⟨given, hgiven⟩ := exists_walk_append_eq settings.filter hpassed 0
    have hbase := hgiven base (fun _ _ => rfl) (.ok r :: rest)
    have hextended := hgiven decoder hsame (.ok r :: rest)
    rw [← hitems, Nat.zero_add, ← hindex] at hbase hextended
    refine ⟨given, walk decoder settings.filter index (.ok r :: rest), passed, r, rest, ?_,
      hafter.trans hextended, hitems, hindex.symm, hoffset, fun p hp => ?_, ?_⟩
    · rw [hbefore, hbase, ← hoffset]
      simp only [walk, hunknown]
    · rw [hsame p hp]
      exact hpassed p hp
    · intro number place fault herror
      rw [hafter, hextended, List.mem_append] at herror
      rcases herror with hgivenError | hlater
      · -- What was given before are events, so an error comes from the failed record or after
        -- it.
        obtain ⟨e, -, he⟩ := List.mem_map.mp hgivenError
        cases he
      · exact le_number_of_walk hlater

def widerTable : Schema.Table :=
  { typeNames := [], schemas := [(⟨3, 1⟩, []), (⟨2, 1⟩, [])], nodup_keys := by decide }

/-- A record of either of these events. -/
def bareRecord (eventType : UInt8) (offset : Nat) : Record :=
  ⟨offset, offset + 16, 0, eventType :: Decoder.barePayload.tail⟩

/-- A log of both events, of which the table of the first one alone was extended. -/
def bareLog : List UInt8 := single (bareRecord 2 0) ++ single (bareRecord 3 64)

theorem items_extended_wider :
    widerTable.Extends Decoder.bareTable ∧
      (events { data := bareLog, settings := { table := Decoder.bareTable } }).items =
        [.ok Decoder.bareEvent, .error (.undecodable 1 64 (.unknownSchema ⟨3, 1⟩ 128))] ∧
      ∃ more, (events { data := bareLog, settings := { table := widerTable } }).items =
        .ok Decoder.bareEvent :: more := by
  have hextends : widerTable.Extends Decoder.bareTable := {
    typeNames_eq := rfl
    get?_eq := by decide }
  have hrecords : (records { data := bareLog, settings := { table := Decoder.bareTable } }).items =
      [.ok (bareRecord 2 0), .ok (bareRecord 3 64)] := by
    rw [Scanner.items_of_record (r := bareRecord 2 0) rfl,
      Scanner.items_of_record (r := bareRecord 3 64) rfl, Scanner.items_of_end rfl]
  have hbefore : (events { data := bareLog, settings := { table := Decoder.bareTable } }).items =
      [.ok Decoder.bareEvent, .error (.undecodable 1 64 (.unknownSchema ⟨3, 1⟩ 128))] := by
    rw [items_events, hrecords]
    rfl
  obtain ⟨-, hunknown⟩ :=
    @items_extended { table := Decoder.bareTable } widerTable hextends bareLog
  obtain ⟨given, more, -, -, -, hgiven, hafter, -⟩ :=
    hunknown 1 64 ⟨3, 1⟩ 128 (by rw [hbefore]; exact List.mem_cons_of_mem _ (List.mem_singleton_self _))
  rw [hbefore] at hgiven
  -- The error that follows is the same on both sides, so the events before it are too.
  have hevents : ([.ok Decoder.bareEvent] : List (Except LogError Event)) = given.map .ok :=
    List.append_cancel_right hgiven
  rw [← hevents] at hafter
  exact ⟨hextends, hbefore, more, hafter⟩

end Log

end EventLog
