import EventLog.Proofs.Event.Extension
import EventLog.Proofs.Schema.Draft
import Mathlib.Data.List.Perm.Basic

set_option autoImplicit false

/-! # The order of events in a draft

What an event is registered under depends on the type names alone, and not on the events that were
registered before it (`EventDraft.entry`). The events of a draft can be registered exactly if each
has an entry and no two entries have one key, and they then make a table of these entries
(`registerAll_eq_ok_iff`). So the order of events does not matter, nor does it matter whether a type
is given by its name or its code (`TableDraft.toTable_rearranged`).
-/

namespace EventLog.Schema

/-! ## Tables of the same entries -/

theorem lookup_eq_some_iff_mem {α β : Type} [DecidableEq α] {entries : List (α × β)}
    (h : (entries.map Prod.fst).Nodup) {a : α} {b : β} :
    entries.lookup a = some b ↔ (a, b) ∈ entries := by
  -- On the entries: a key that occurs once is found where it stands.
  induction entries with
  | nil => simp
  | cons entry entries ih =>
      obtain ⟨a', b'⟩ := entry
      rw [List.map_cons, List.nodup_cons] at h
      obtain ⟨hfirst, hrest⟩ := h
      rw [List.lookup_cons, List.mem_cons, Prod.mk.injEq]
      by_cases heq : a = a'
      · subst heq
        have hnot : (a, b) ∉ entries := fun hmem => hfirst (List.mem_map.mpr ⟨_, hmem, rfl⟩)
        simp [hnot, eq_comm]
      · rw [beq_false_of_ne heq]
        simpa [heq] using ih hrest

namespace Table

variable {t t' : Table}

theorem get?_eq_some_iff_mem {key : EventKey} {fields : List FieldSpec} :
    t.get? key = some fields ↔ (key, fields) ∈ t.schemas :=
  lookup_eq_some_iff_mem t.nodup_keys

theorem get?_eq_of_perm (h : t.schemas.Perm t'.schemas) (key : EventKey) :
    t.get? key = t'.get? key := by
  apply Option.ext
  intro fields
  rw [get?_eq_some_iff_mem, get?_eq_some_iff_mem]
  exact h.mem_iff

theorem eq_of_parts (hnames : t.typeNames = t'.typeNames) (hschemas : t.schemas = t'.schemas) :
    t = t' := by
  cases t
  cases t'
  cases hnames
  cases hschemas
  rfl

theorem insert_eq_ok_iff {key : EventKey} {fields : List FieldSpec} :
    t.insert key fields = .ok t' ↔
      t'.typeNames = t.typeNames ∧ t'.schemas = (key, fields) :: t.schemas := by
  constructor
  · intro h
    rw [insert] at h
    split at h
    · cases h
    · cases h
      exact ⟨rfl, rfl⟩
  · rintro ⟨hnames, hschemas⟩
    -- The table that results holds each key once, so the key was new.
    have hnew : key ∉ t.keys := by
      have hnodup := t'.nodup_keys
      rw [hschemas, List.map_cons, List.nodup_cons] at hnodup
      exact hnodup.1
    rw [insert]
    split
    · next hsome => exact absurd (get?_of_not_mem_keys hnew) (by simp [hsome])
    · exact congrArg Except.ok (eq_of_parts hnames.symm hschemas.symm)

end Table

/-! ## What an event is registered as -/

theorem TypeRef.code?_congr {t t' : Table} (h : t.typeNames = t'.typeNames) (r : TypeRef) :
    r.code? t = r.code? t' := by
  cases r with
  | code c => rfl
  | name n => rw [code?, code?, Table.typeCode?, Table.typeCode?, h]

namespace EventDraft

/-- The key and the fields that an event registers in a table of the given type names. -/
def entry (typeNames : List String) (event : EventDraft) :
    Except Defect (EventKey × List FieldSpec) := do
  let code ← event.eventType.code? (.ofTypeNames typeNames)
  let fields ← fieldSpecs ⟨code, event.version⟩ 0 event.fields
  return (⟨code, event.version⟩, fields)

theorem register_eq (t : Table) (event : EventDraft) :
    event.register t = event.entry t.typeNames >>= fun e => t.insert e.1 e.2 := by
  have hcode : event.eventType.code? t = event.eventType.code? (.ofTypeNames t.typeNames) :=
    TypeRef.code?_congr rfl _
  rw [register, entry, hcode]
  simp only [bind_assoc, pure_bind]

/-- What registering an event does, if it succeeds. -/
theorem register_eq_ok_iff {t t' : Table} {event : EventDraft} :
    event.register t = .ok t' ↔ ∃ entry, event.entry t.typeNames = .ok entry ∧
      t'.typeNames = t.typeNames ∧ t'.schemas = entry :: t.schemas := by
  rw [register_eq, bind_eq_ok]
  simp only [Table.insert_eq_ok_iff]

end EventDraft

/-! ## What events are registered as -/

def Entries (typeNames : List String) : List EventDraft → List (EventKey × List FieldSpec) → Prop :=
  List.Forall₂ fun event entry => event.entry typeNames = .ok entry

/-- **Events are registered exactly if a table has their entries on top of those that are there.** -/
theorem registerAll_eq_ok_iff {t t' : Table} {events : List EventDraft} :
    registerAll t events = .ok t' ↔ t'.typeNames = t.typeNames ∧
      ∃ entries, Entries t.typeNames events entries ∧
        t'.schemas = entries.reverse ++ t.schemas := by
  induction events generalizing t with
  | nil =>
      constructor
      · intro h
        cases h
        exact ⟨rfl, [], .nil, rfl⟩
      · rintro ⟨hnames, entries, hentries, hschemas⟩
        cases hentries
        exact congrArg Except.ok (Table.eq_of_parts hnames.symm hschemas.symm)
  | cons event events ih =>
      rw [registerAll, bind_eq_ok]
      constructor
      · rintro ⟨t₁, hfirst, hrest⟩
        obtain ⟨entry, hentry, hnames₁, hschemas₁⟩ := EventDraft.register_eq_ok_iff.mp hfirst
        obtain ⟨hnames, entries, hentries, hschemas⟩ := ih.mp hrest
        rw [hnames₁] at hnames hentries
        refine ⟨hnames, entry :: entries, .cons hentry hentries, ?_⟩
        simp [hschemas, hschemas₁]
      · rintro ⟨hnames, _, hentries, hschemas⟩
        cases hentries with
        | @cons _ entry _ entries hentry hentries =>
            rw [List.reverse_cons, List.append_assoc, List.singleton_append] at hschemas
            -- The table in between has its keys from the last one, so they are distinct.
            have hnodup : ((entry :: t.schemas).map Prod.fst).Nodup := by
              have hlast := t'.nodup_keys
              rw [hschemas, List.map_append] at hlast
              exact (List.nodup_append.mp hlast).2.1
            refine ⟨⟨t.typeNames, entry :: t.schemas, hnodup⟩, ?_, ?_⟩
            · exact EventDraft.register_eq_ok_iff.mpr ⟨entry, hentry, rfl, rfl⟩
            · exact ih.mpr ⟨hnames, entries, hentries, hschemas⟩

namespace TableDraft

variable {typeNames : List String} {events events' : List EventDraft}

/-- A draft makes the tables that have its type names and the entries of its events. -/
theorem toTable_eq_ok_iff {t : Table} :
    toTable ⟨typeNames, events⟩ = .ok t ↔
      t.typeNames = typeNames ∧ ∃ entries, Entries typeNames events entries ∧
        t.schemas = entries.reverse := by
  rw [toTable, registerAll_eq_ok_iff]
  simp only [Table.ofTypeNames, List.append_nil]

/-- With its events in another order a draft makes a table of the same entries. -/
theorem exists_toTable_of_perm (h : events.Perm events') {t : Table}
    (ht : toTable ⟨typeNames, events⟩ = .ok t) :
    ∃ t', toTable ⟨typeNames, events'⟩ = .ok t' ∧ t.schemas.Perm t'.schemas := by
  obtain ⟨hnames, entries, hentries, hschemas⟩ := toTable_eq_ok_iff.mp ht
  obtain ⟨entries', hentries', hperm⟩ := List.perm_comp_forall₂ h.symm hentries
  have hreverse : t.schemas.Perm entries'.reverse := by
    rw [hschemas]
    exact (List.reverse_perm _).trans (hperm.symm.trans (List.reverse_perm _).symm)
  have hnodup : (entries'.reverse.map Prod.fst).Nodup :=
    (hreverse.map Prod.fst).nodup_iff.mp t.nodup_keys
  exact ⟨⟨typeNames, entries'.reverse, hnodup⟩,
    toTable_eq_ok_iff.mpr ⟨rfl, entries', hentries', rfl⟩, hreverse⟩

end TableDraft

/-! ## Types by name and by code -/

/-- The event with its type given by the code of its name. -/
def EventDraft.byCode (typeNames : List String) (event : EventDraft) : EventDraft :=
  match event.eventType with
  | .code _ => event
  | .name n => { event with eventType := .code (UInt32.ofNat (typeNames.idxOf n)) }

/-- An event with a listed type is registered as under the code of its name. -/
theorem EventDraft.register_byCode {t : Table} (hsize : t.typeNames.length ≤ UInt32.size)
    {event : EventDraft} (h : ∀ n, event.eventType = .name n → n ∈ t.typeNames) :
    (event.byCode t.typeNames).register t = event.register t := by
  rw [byCode]
  cases htype : event.eventType with
  | code c => rfl
  | name n =>
      have hcode : (TypeRef.name n).code? t = .ok (UInt32.ofNat (t.typeNames.idxOf n)) := by
        obtain ⟨c, hc⟩ := TypeRef.denotes_name hsize (h n htype)
        rw [TypeRef.code?_of_denotes hc]
        cases hc with
        | name _ hfirst => rw [← hfirst, UInt32.ofNat_toNat]
      rw [register, register, htype, hcode]
      rfl

/-- Some of the events with their types given by code. -/
def Respelled (typeNames : List String) : List EventDraft → List EventDraft → Prop :=
  List.Forall₂ fun event event' => event' = event ∨ event' = event.byCode typeNames

theorem registerAll_respelled {t : Table} (hsize : t.typeNames.length ≤ UInt32.size)
    {events events' : List EventDraft}
    (hnames : ∀ event ∈ events, ∀ n, event.eventType = .name n → n ∈ t.typeNames)
    (h : Respelled t.typeNames events events') : registerAll t events' = registerAll t events := by
  induction events generalizing t events' with
  | nil =>
      cases h
      rfl
  | cons event events ih =>
      obtain ⟨hname, hnames⟩ := List.forall_mem_cons.mp hnames
      cases h with
      | @cons _ event' _ events' hevent hevents =>
          have hregister : event'.register t = event.register t := by
            rcases hevent with rfl | rfl
            · rfl
            · exact EventDraft.register_byCode hsize hname
          rw [registerAll, registerAll, hregister]
          cases hfirst : event.register t with
          | error d => rfl
          | ok t₁ =>
              obtain ⟨-, -, hsame, -⟩ := EventDraft.register_eq_ok_iff.mp hfirst
              rw [ok_bind, ok_bind]
              rw [← hsame] at hsize hnames hevents
              exact ih hsize hnames hevents

/-! ## Drafts -/

/-- Tables that give every key, every code and every name the same. -/
structure Table.Agrees (t t' : Table) : Prop where
  get?_eq : ∀ key, t.get? key = t'.get? key
  typeName_eq : ∀ code, t.typeName code = t'.typeName code
  typeCode?_eq : ∀ name, t.typeCode? name = t'.typeCode? name

namespace TableDraft

/-- **Neither the order of its events nor the way their types are spelled matters to a draft.** With
its events in another order it makes a table if it made one before, which agrees with that one and
under which every log has the same items. With some of its listed names replaced by their codes it
makes the same table, or has the same defect. -/
theorem toTable_rearranged (draft : TableDraft) :
    (∀ events', draft.events.Perm events' →
      ((∃ t, draft.toTable = .ok t) ↔ ∃ t', toTable { draft with events := events' } = .ok t') ∧
      ∀ t t', draft.toTable = .ok t → toTable { draft with events := events' } = .ok t' →
        t.Agrees t' ∧ ∀ (data : List UInt8) (settings : Settings),
          (Log.events { data, settings := { settings with table := t } }).items =
            (Log.events { data, settings := { settings with table := t' } }).items) ∧
    (draft.typeNames.length ≤ UInt32.size →
      (∀ event ∈ draft.events, ∀ n, event.eventType = .name n → n ∈ draft.typeNames) →
      ∀ events', Respelled draft.typeNames draft.events events' →
        toTable { draft with events := events' } = draft.toTable) := by
  obtain ⟨typeNames, events⟩ := draft
  constructor
  · intro events' h
    refine ⟨⟨?_, ?_⟩, ?_⟩
    · rintro ⟨t, ht⟩
      obtain ⟨t', ht', -⟩ := exists_toTable_of_perm h ht
      exact ⟨t', ht'⟩
    · rintro ⟨t', ht'⟩
      obtain ⟨t, ht, -⟩ := exists_toTable_of_perm h.symm ht'
      exact ⟨t, ht⟩
    · intro t t' ht ht'
      have hnames : t.typeNames = t'.typeNames :=
        (toTable_eq_ok_iff.mp ht).1.trans (toTable_eq_ok_iff.mp ht').1.symm
      have hperm : t.schemas.Perm t'.schemas := by
        obtain ⟨t₂, ht₂, hperm⟩ := exists_toTable_of_perm h ht
        cases ht'.symm.trans ht₂
        exact hperm
      have hget (key : EventKey) : t.get? key = t'.get? key := Table.get?_eq_of_perm hperm key
      refine ⟨⟨hget, ?_, ?_⟩, ?_⟩
      · intro code
        rw [Table.typeName, Table.typeName, hnames]
      · intro name
        rw [Table.typeCode?, Table.typeCode?, hnames]
      · intro data settings
        exact @Log.items_events_of_agree { settings with table := t' } t hnames hget data
  · intro hsize hnames events' h
    exact registerAll_respelled (t := .ofTypeNames typeNames) hsize hnames h

/-- Two events, of which one is given by name. -/
theorem toTable_rearranged_two :
    let login : EventDraft := { eventType := .name "Login", version := 1, fields := [] }
    let logout : EventDraft :=
      { eventType := .code 1, version := 1, fields := [⟨"READ_UUID", "user", none⟩] }
    let draft : TableDraft := { typeNames := ["Login", "Logout"], events := [login, logout] }
    (∃ t t', draft.toTable = .ok t ∧
      toTable { draft with events := [logout, login] } = .ok t' ∧ t.Agrees t') ∧
    toTable { draft with events := [{ login with eventType := .code 0 }, logout] } =
      draft.toTable := by
  intro login logout draft
  obtain ⟨hperm, hrespelled⟩ := toTable_rearranged draft
  obtain ⟨hloads, hagrees⟩ := hperm [logout, login] (.swap _ _ _)
  constructor
  · obtain ⟨t, ht⟩ : ∃ t, draft.toTable = .ok t := ⟨_, rfl⟩
    obtain ⟨t', ht'⟩ := hloads.mp ⟨t, ht⟩
    exact ⟨t, t', ht, ht', (hagrees t t' ht ht').1⟩
  · have hlisted : ∀ event ∈ draft.events, ∀ n, event.eventType = .name n → n ∈ draft.typeNames := by
      simp [draft, login, logout]
    exact hrespelled (by decide) hlisted _ (.cons (.inr rfl) (.cons (.inl rfl) .nil))

end TableDraft

end EventLog.Schema
