import EventLog.Schema.Draft
import Mathlib.Data.List.Forall2
import Mathlib.Data.List.Induction

set_option autoImplicit false

/-! # What a draft makes a table of

A draft makes a table if it is valid, and the table then gives each listed key the declared fields
(`TableDraft.Valid`, `Table.Describes`). Otherwise there is a first event at fault, and in it a
first fault (`TableDraft.FirstFault`). Every draft is one or the other, and `TableDraft.toTable`
follows (`TableDraft.toTable_checks`).
-/

namespace EventLog

theorem Primitive.ofWireName?_wireName (p : Primitive) : ofWireName? p.wireName = some p := by
  cases p <;> decide

theorem Primitive.ofWireName?_eq_none {name : String} (h : ∀ p : Primitive, p.wireName ≠ name) :
    ofWireName? name = none :=
  List.find?_eq_none.mpr fun p _ hp => h p (beq_iff_eq.mp hp)

namespace Schema

/-! ## Fields -/

def layoutNames : List String := ["READ_UUID", "READ_STRING", "READ_NONEMPTY_STRING", "READ_TYPE"]

/-- The layout that its name and that of a wire integer denote. Only a layout of integers takes
account of the second name. -/
inductive DenotesLayout : String → Option String → Layout → Prop
  | uuid (primitive : Option String) : DenotesLayout "READ_UUID" primitive .uuid
  | string (primitive : Option String) : DenotesLayout "READ_STRING" primitive .string
  | nonEmptyString (primitive : Option String) :
      DenotesLayout "READ_NONEMPTY_STRING" primitive .nonEmptyString
  | integer (p : Primitive) : DenotesLayout "READ_TYPE" (some p.wireName) (.integer p)

theorem layoutOf_of_denoted {kind : String} {primitive : Option String} {l : Layout}
    (h : DenotesLayout kind primitive l) (position : Nat) (key : EventKey) :
    layoutOf kind primitive position key = .ok l := by
  cases h with
  | uuid => rfl
  | string => rfl
  | nonEmptyString => rfl
  | integer p => simp [layoutOf, p.ofWireName?_wireName]

namespace FieldDraft

/-- The field that a draft declares. -/
structure Declares (f : FieldDraft) (spec : FieldSpec) : Prop where
  name_eq : spec.name = f.name
  key_eq : spec.key = FieldName.normalize f.name
  layout : DenotesLayout f.kind f.primitive spec.layout

/-- A field of a known layout, with a known wire integer if the layout has one. -/
structure Supported (f : FieldDraft) : Prop where
  kind_mem : f.kind ∈ layoutNames
  primitive : f.kind = "READ_TYPE" → ∃ p : Primitive, f.primitive = some p.wireName

/-- What is wrong with a field at a position. -/
inductive HasFault (f : FieldDraft) (position : Nat) (key : EventKey) : Defect → Prop
  | unsupportedLayout (h : f.kind ∉ layoutNames) :
      HasFault f position key (.unsupportedLayout f.kind position key)
  | missingPrimitive (hkind : f.kind = "READ_TYPE") (h : f.primitive = none) :
      HasFault f position key (.missingPrimitive position key)
  | unsupportedPrimitive {name : String} (hkind : f.kind = "READ_TYPE")
      (hname : f.primitive = some name) (h : ∀ p : Primitive, p.wireName ≠ name) :
      HasFault f position key (.unsupportedPrimitive name position key)

theorem Supported.exists_declares {f : FieldDraft} (h : f.Supported) : ∃ spec, f.Declares spec := by
  obtain ⟨kind, name, primitive⟩ := f
  obtain ⟨hkind, hprimitive⟩ := h
  simp only [layoutNames, List.mem_cons, List.not_mem_nil, or_false] at hkind
  rcases hkind with rfl | rfl | rfl | rfl
  · exact ⟨⟨.uuid, name⟩, rfl, rfl, .uuid primitive⟩
  · exact ⟨⟨.string, name⟩, rfl, rfl, .string primitive⟩
  · exact ⟨⟨.nonEmptyString, name⟩, rfl, rfl, .nonEmptyString primitive⟩
  · obtain ⟨p, rfl⟩ := hprimitive rfl
    exact ⟨⟨.integer p, name⟩, rfl, rfl, .integer p⟩

theorem supported_or_fault (f : FieldDraft) (position : Nat) (key : EventKey) :
    f.Supported ∨ ∃ d, f.HasFault position key d := by
  by_cases hkind : f.kind ∈ layoutNames
  · by_cases htype : f.kind = "READ_TYPE"
    · cases hprimitive : f.primitive with
      | none => exact .inr ⟨_, .missingPrimitive htype hprimitive⟩
      | some name =>
          by_cases hname : ∃ p : Primitive, p.wireName = name
          · obtain ⟨p, rfl⟩ := hname
            exact .inl ⟨hkind, fun _ => ⟨p, hprimitive⟩⟩
          · exact .inr ⟨_, .unsupportedPrimitive htype hprimitive (not_exists.mp hname)⟩
    · exact .inl ⟨hkind, fun h => absurd h htype⟩
  · exact .inr ⟨_, .unsupportedLayout hkind⟩

theorem toSpec_of_declares {f : FieldDraft} {spec : FieldSpec} (h : f.Declares spec)
    (position : Nat) (key : EventKey) : f.toSpec position key = .ok spec := by
  rw [toSpec, layoutOf_of_denoted h.layout, ← h.name_eq]
  rfl

theorem toSpec_of_fault {f : FieldDraft} {position : Nat} {key : EventKey} {d : Defect}
    (h : f.HasFault position key d) : f.toSpec position key = .error d := by
  have hlayout : layoutOf f.kind f.primitive position key = .error d := by
    -- The layout is the only part of a field that can be refused.
    cases h with
    | unsupportedLayout h =>
        simp only [layoutNames, List.mem_cons, List.not_mem_nil, or_false, not_or] at h
        obtain ⟨huuid, hstring, hnonEmpty, htype⟩ := h
        unfold layoutOf
        rw [if_neg huuid, if_neg hstring, if_neg hnonEmpty, if_neg htype]
    | missingPrimitive hkind h =>
        rw [hkind, h]
        rfl
    | unsupportedPrimitive hkind hname h =>
        simp [layoutOf, hkind, hname, Primitive.ofWireName?_eq_none h]
  rw [toSpec, hlayout]
  rfl

end FieldDraft

/-! ## Lists of fields -/

theorem exists_declared {fields : List FieldDraft} (h : ∀ f ∈ fields, f.Supported) :
    ∃ specs, List.Forall₂ FieldDraft.Declares fields specs := by
  induction fields with
  | nil => exact ⟨[], .nil⟩
  | cons f fields ih =>
      obtain ⟨hf, hfields⟩ := List.forall_mem_cons.mp h
      obtain ⟨spec, hspec⟩ := hf.exists_declares
      obtain ⟨specs, hspecs⟩ := ih hfields
      exact ⟨spec :: specs, .cons hspec hspecs⟩

/-- The fields that drafts declare. -/
theorem fieldSpecs_of_declared {fields : List FieldDraft} {specs : List FieldSpec}
    (h : List.Forall₂ FieldDraft.Declares fields specs) (key : EventKey) (position : Nat) :
    fieldSpecs key position fields = .ok specs := by
  induction h generalizing position with
  | nil => rfl
  | cons hspec _ ih =>
      rw [fieldSpecs, FieldDraft.toSpec_of_declares hspec, ih]
      rfl

theorem declared_unique {fields : List FieldDraft} {specs specs' : List FieldSpec}
    (h : List.Forall₂ FieldDraft.Declares fields specs)
    (h' : List.Forall₂ FieldDraft.Declares fields specs') : specs = specs' := by
  have hspecs := fieldSpecs_of_declared h ⟨0, 0⟩ 0
  rw [fieldSpecs_of_declared h'] at hspecs
  exact (Except.ok.inj hspecs).symm

/-- The first fault of some fields, of which the first stands at a position. -/
def FieldsFault (key : EventKey) (position : Nat) (fields : List FieldDraft) (d : Defect) : Prop :=
  ∃ (good : List FieldDraft) (f : FieldDraft) (more : List FieldDraft),
    fields = good ++ f :: more ∧ (∀ g ∈ good, g.Supported) ∧
    f.HasFault (position + good.length) key d

theorem FieldsFault.cons {key : EventKey} {position : Nat} {fields : List FieldDraft} {d : Defect}
    (h : FieldsFault key (position + 1) fields d) {f : FieldDraft} (hf : f.Supported) :
    FieldsFault key position (f :: fields) d := by
  obtain ⟨good, g, more, rfl, hgood, hg⟩ := h
  refine ⟨f :: good, g, more, rfl, List.forall_mem_cons.mpr ⟨hf, hgood⟩, ?_⟩
  rwa [List.length_cons, ← Nat.succ_add_eq_add_succ]

theorem supported_or_fieldsFault (key : EventKey) (position : Nat) (fields : List FieldDraft) :
    (∀ f ∈ fields, f.Supported) ∨ ∃ d, FieldsFault key position fields d := by
  induction fields generalizing position with
  | nil => exact .inl (List.forall_mem_nil _)
  | cons f fields ih =>
      rcases f.supported_or_fault position key with hf | ⟨d, hd⟩
      · rcases ih (position + 1) with hfields | ⟨d, hd⟩
        · exact .inl (List.forall_mem_cons.mpr ⟨hf, hfields⟩)
        · exact .inr ⟨d, hd.cons hf⟩
      · exact .inr ⟨d, [], f, fields, rfl, List.forall_mem_nil _, hd⟩

/-- The first fault of some fields is reported. -/
theorem fieldSpecs_of_fault {key : EventKey} {position : Nat} {fields : List FieldDraft}
    {d : Defect} (h : FieldsFault key position fields d) :
    fieldSpecs key position fields = .error d := by
  obtain ⟨good, f, more, rfl, hgood, hf⟩ := h
  induction good generalizing position with
  | nil =>
      rw [List.length_nil, Nat.add_zero] at hf
      rw [List.nil_append, fieldSpecs, FieldDraft.toSpec_of_fault hf]
      rfl
  | cons g good ih =>
      obtain ⟨hg, hgood⟩ := List.forall_mem_cons.mp hgood
      obtain ⟨spec, hspec⟩ := hg.exists_declares
      rw [List.length_cons, ← Nat.succ_add_eq_add_succ] at hf
      rw [List.cons_append, fieldSpecs, FieldDraft.toSpec_of_declares hspec, ih hgood hf]
      rfl

/-! ## Event types -/

/-- The code that an event type denotes: that of a name is the first place of the name in the
list. -/
inductive TypeRef.Denotes (typeNames : List String) : TypeRef → UInt32 → Prop
  | code (c : UInt32) : Denotes typeNames (.code c) c
  | name {n : String} {c : UInt32} (h : n ∈ typeNames) (hfirst : c.toNat = typeNames.idxOf n) :
      Denotes typeNames (.name n) c

theorem TypeRef.Denotes.unique {typeNames : List String} {r : TypeRef} {c c' : UInt32}
    (h : r.Denotes typeNames c) (h' : r.Denotes typeNames c') : c = c' := by
  cases h with
  | code => cases h'; rfl
  | name _ hfirst =>
      cases h' with
      | name _ hfirst' => exact UInt32.toNat_inj.mp (hfirst.trans hfirst'.symm)

namespace Table

variable {t : Table} {n : String}

theorem typeCode?_of_denotes {c : UInt32} (h : (TypeRef.name n).Denotes t.typeNames c) :
    t.typeCode? n = some c := by
  cases h with
  | name hmem hfirst =>
      have hindex : t.typeNames.findIdx? (· == n) = some (t.typeNames.idxOf n) :=
        List.findIdx?_eq_some_iff_findIdx_eq.mpr ⟨List.idxOf_lt_length_of_mem hmem, rfl⟩
      rw [typeCode?, hindex, ← hfirst]
      show (if c.toNat < UInt32.size then some (UInt32.ofNat c.toNat) else none) = _
      rw [if_pos c.toNat_lt_size, UInt32.ofNat_toNat]

theorem typeCode?_of_not_mem (h : n ∉ t.typeNames) : t.typeCode? n = none := by
  have hindex : t.typeNames.findIdx? (· == n) = none :=
    List.findIdx?_eq_none_iff.mpr fun name hname => beq_false_of_ne fun heq => h (heq ▸ hname)
  rw [typeCode?, hindex]

theorem typeName_of_denotes {c : UInt32} (h : (TypeRef.name n).Denotes t.typeNames c) :
    t.typeName c = n := by
  cases h with
  | name hmem hfirst =>
      rw [typeName, hfirst, List.getElem?_idxOf hmem]
      rfl

end Table

theorem TypeRef.denotes_name {typeNames : List String} (hsize : typeNames.length ≤ UInt32.size)
    {n : String} (h : n ∈ typeNames) : ∃ c, (TypeRef.name n).Denotes typeNames c :=
  ⟨UInt32.ofNat (typeNames.idxOf n), .name h
    (UInt32.toNat_ofNat_of_lt' (Nat.lt_of_lt_of_le (List.idxOf_lt_length_of_mem h) hsize))⟩

theorem TypeRef.code?_of_denotes {t : Table} {r : TypeRef} {c : UInt32}
    (h : r.Denotes t.typeNames c) : r.code? t = .ok c := by
  cases r with
  | code c' => cases h; rfl
  | name n => rw [code?, Table.typeCode?_of_denotes h]

/-! ## Events -/

namespace EventDraft

def HasKey (typeNames : List String) (event : EventDraft) (key : EventKey) : Prop :=
  event.eventType.Denotes typeNames key.eventType ∧ key.version = event.version

theorem HasKey.unique {typeNames : List String} {event : EventDraft} {key key' : EventKey}
    (h : event.HasKey typeNames key) (h' : event.HasKey typeNames key') : key = key' := by
  obtain ⟨code, version⟩ := key
  obtain ⟨code', version'⟩ := key'
  obtain ⟨hcode, rfl⟩ := h
  obtain ⟨hcode', rfl⟩ := h'
  rw [show code = code' from hcode.unique hcode']

/-- An event that can be registered behind others, under a key. -/
structure Sound (typeNames : List String) (earlier : List EventDraft) (event : EventDraft)
    (key : EventKey) : Prop where
  hasKey : event.HasKey typeNames key
  fields : ∀ f ∈ event.fields, f.Supported
  new : ∀ e ∈ earlier, ¬ e.HasKey typeNames key

/-- The first fault of an event behind others: its type is not listed, or else one of its fields is
at fault, the first one that is, or else an earlier event has its key. -/
inductive FirstFault (typeNames : List String) (earlier : List EventDraft) (event : EventDraft) :
    Defect → Prop
  | unknownTypeName {n : String} (htype : event.eventType = .name n) (h : n ∉ typeNames) :
      FirstFault typeNames earlier event (.unknownTypeName n)
  | field {key : EventKey} {d : Defect} (hkey : event.HasKey typeNames key)
      (h : FieldsFault key 0 event.fields d) : FirstFault typeNames earlier event d
  | duplicateSchema {key : EventKey} {e : EventDraft} (hkey : event.HasKey typeNames key)
      (hfields : ∀ f ∈ event.fields, f.Supported) (he : e ∈ earlier)
      (h : e.HasKey typeNames key) : FirstFault typeNames earlier event (.duplicateSchema key)

/-- In a list that codes can count, an event type has a code, or it is a name that is not listed. -/
theorem eventType_cases {typeNames : List String} (hsize : typeNames.length ≤ UInt32.size)
    (event : EventDraft) :
    (∃ c, event.eventType.Denotes typeNames c) ∨
      ∃ n, event.eventType = .name n ∧ n ∉ typeNames := by
  cases event.eventType with
  | code c => exact .inl ⟨c, .code c⟩
  | name n =>
      by_cases h : n ∈ typeNames
      · exact .inl (TypeRef.denotes_name hsize h)
      · exact .inr ⟨n, rfl, h⟩

theorem sound_or_fault {typeNames : List String} (hsize : typeNames.length ≤ UInt32.size)
    (earlier : List EventDraft) (event : EventDraft) :
    (∃ key, event.Sound typeNames earlier key) ∨ ∃ d, event.FirstFault typeNames earlier d := by
  rcases event.eventType_cases hsize with ⟨c, hc⟩ | ⟨n, hn, h⟩
  · have hkey : event.HasKey typeNames ⟨c, event.version⟩ := ⟨hc, rfl⟩
    rcases supported_or_fieldsFault ⟨c, event.version⟩ 0 event.fields with hfields | ⟨d, hd⟩
    · by_cases hnew : ∃ e ∈ earlier, e.HasKey typeNames ⟨c, event.version⟩
      · obtain ⟨e, he, h⟩ := hnew
        exact .inr ⟨_, .duplicateSchema hkey hfields he h⟩
      · exact .inl ⟨_, hkey, hfields, fun e he h => hnew ⟨e, he, h⟩⟩
    · exact .inr ⟨d, .field hkey hd⟩
  · exact .inr ⟨_, .unknownTypeName hn h⟩

end EventDraft

/-! ## Tables -/

/-- A draft without a fault: the types that its events name are listed, their fields are supported,
and no two of them have one key. -/
structure TableDraft.Valid (draft : TableDraft) : Prop where
  typeNames : ∀ event ∈ draft.events, ∀ n, event.eventType = .name n → n ∈ draft.typeNames
  fields : ∀ event ∈ draft.events, ∀ f ∈ event.fields, f.Supported
  keys : draft.events.Pairwise fun a b =>
    ∀ key, a.HasKey draft.typeNames key → ¬ b.HasKey draft.typeNames key

/-- The first fault of a draft: that of the first event at fault. -/
def TableDraft.FirstFault (draft : TableDraft) (d : Defect) : Prop :=
  ∃ (earlier : List EventDraft) (event : EventDraft) (later : List EventDraft),
    draft.events = earlier ++ event :: later ∧ TableDraft.Valid ⟨draft.typeNames, earlier⟩ ∧
    event.FirstFault draft.typeNames earlier d

/-- A table that gives each listed key, and no other one, the fields that its event declares. -/
structure Table.Describes (t : Table) (draft : TableDraft) : Prop where
  typeNames_eq : t.typeNames = draft.typeNames
  size_eq : t.size = draft.events.length
  get?_eq_some_iff : ∀ key specs, t.get? key = some specs ↔
    ∃ event ∈ draft.events, event.HasKey draft.typeNames key ∧
      List.Forall₂ FieldDraft.Declares event.fields specs

variable {typeNames : List String} {earlier : List EventDraft} {event : EventDraft}

namespace TableDraft

theorem valid_nil (typeNames : List String) : Valid ⟨typeNames, []⟩ where
  typeNames := List.forall_mem_nil _
  fields := List.forall_mem_nil _
  keys := List.Pairwise.nil

/-- A draft with one more event is valid if that event can be registered behind the others. -/
theorem valid_concat_iff (hsize : typeNames.length ≤ UInt32.size) :
    Valid ⟨typeNames, earlier ++ [event]⟩ ↔
      Valid ⟨typeNames, earlier⟩ ∧ ∃ key, event.Sound typeNames earlier key := by
  constructor
  · rintro ⟨hnames, hfields, hkeys⟩
    obtain ⟨hnames, hname⟩ := List.forall_mem_append.mp hnames
    obtain ⟨hfields, hfield⟩ := List.forall_mem_append.mp hfields
    obtain ⟨hkeys, -, hnew⟩ := List.pairwise_append.mp hkeys
    refine ⟨⟨hnames, hfields, hkeys⟩, ?_⟩
    -- A type that is denoted by nothing is a name that is missing, which the validity excludes.
    rcases event.eventType_cases hsize with ⟨c, hc⟩ | ⟨n, hn, h⟩
    · have hkey : event.HasKey typeNames ⟨c, event.version⟩ := ⟨hc, rfl⟩
      exact ⟨_, hkey, List.forall_mem_singleton.mp hfield,
        fun e he h => hnew e he event (List.mem_singleton_self _) _ h hkey⟩
    · exact absurd (List.forall_mem_singleton.mp hname n hn) h
  · rintro ⟨⟨hnames, hfields, hkeys⟩, key, hkey, hfield, hnew⟩
    refine ⟨List.forall_mem_append.mpr ⟨hnames, List.forall_mem_singleton.mpr ?_⟩,
      List.forall_mem_append.mpr ⟨hfields, List.forall_mem_singleton.mpr hfield⟩,
      List.pairwise_append.mpr ⟨hkeys, List.pairwise_singleton _ _, fun e he => ?_⟩⟩
    · intro n hn
      obtain ⟨htype, -⟩ := hkey
      rw [hn] at htype
      cases htype with
      | name hmem => exact hmem
    · refine List.forall_mem_singleton.mpr fun key' he' hevent => ?_
      rw [hevent.unique hkey] at he'
      exact hnew e he he'

/-- Every draft is valid or has a first fault. -/
theorem valid_or_fault (hsize : typeNames.length ≤ UInt32.size) (events : List EventDraft) :
    Valid ⟨typeNames, events⟩ ∨ ∃ d, FirstFault ⟨typeNames, events⟩ d := by
  induction events using List.reverseRecOn with
  | nil => exact .inl (valid_nil typeNames)
  | append_singleton events event ih =>
      rcases ih with hvalid | ⟨d, earlier, e, later, rfl, hvalid, he⟩
      · rcases event.sound_or_fault hsize events with hsound | ⟨d, hd⟩
        · exact .inl ((valid_concat_iff hsize).mpr ⟨hvalid, hsound⟩)
        · exact .inr ⟨d, events, event, [], rfl, hvalid, hd⟩
      · refine .inr ⟨d, earlier, e, later ++ [event], ?_, hvalid, he⟩
        rw [List.append_assoc]
        rfl

end TableDraft

/-- An event with a key is registered under it if its fields are supported and the key is new. -/
theorem EventDraft.register_of_hasKey {t : Table} (ht : t.typeNames = typeNames) {key : EventKey}
    (h : event.HasKey typeNames key) :
    event.register t = fieldSpecs key 0 event.fields >>= fun fields => t.insert key fields := by
  obtain ⟨code, version⟩ := key
  obtain ⟨htype, rfl⟩ := h
  rw [register, TypeRef.code?_of_denotes (ht ▸ htype)]
  rfl

namespace Table

theorem describes_ofTypeNames (typeNames : List String) :
    (ofTypeNames typeNames).Describes ⟨typeNames, []⟩ where
  typeNames_eq := rfl
  size_eq := rfl
  get?_eq_some_iff _ _ := ⟨nofun, fun ⟨_, hevent, _⟩ => nomatch hevent⟩

variable {t : Table}

theorem insert_of_registered {key : EventKey} {fields : List FieldSpec}
    (h : t.get? key = some fields) (specs : List FieldSpec) :
    t.insert key specs = .error (.duplicateSchema key) := by
  rw [insert]
  split
  · rfl
  · next hnone => exact nomatch hnone.symm.trans h

theorem insert_of_new {key : EventKey} (h : t.get? key = none) (specs : List FieldSpec) :
    ∃ t' : Table, t.insert key specs = .ok t' ∧ t'.typeNames = t.typeNames ∧ t'.size = t.size + 1 ∧
      ∀ key', t'.get? key' = if key' = key then some specs else t.get? key' := by
  rw [insert]
  split
  · next hsome => exact nomatch hsome.symm.trans h
  · refine ⟨_, rfl, rfl, rfl, fun key' => ?_⟩
    rw [get?, List.lookup_cons]
    by_cases heq : key' = key
    · rw [if_pos heq, heq, beq_self_eq_true]
    · rw [if_neg heq, beq_false_of_ne heq]
      rfl

theorem Describes.get?_of_hasKey {draft : TableDraft} (h : t.Describes draft) (hvalid : draft.Valid)
    {key : EventKey} (hevent : event ∈ draft.events) (hkey : event.HasKey draft.typeNames key) :
    ∃ specs, t.get? key = some specs := by
  obtain ⟨specs, hspecs⟩ := exists_declared (hvalid.fields event hevent)
  exact ⟨specs, (h.get?_eq_some_iff key specs).mpr ⟨event, hevent, hkey, hspecs⟩⟩

/-- **An event without a fault is registered**, with the fields that it declares. -/
theorem Describes.register_of_sound {key : EventKey} (h : t.Describes ⟨typeNames, earlier⟩)
    (hevent : event.Sound typeNames earlier key) :
    ∃ t' : Table, event.register t = .ok t' ∧ t'.Describes ⟨typeNames, earlier ++ [event]⟩ := by
  obtain ⟨hkey, hfields, hnew⟩ := hevent
  obtain ⟨specs, hspecs⟩ := exists_declared hfields
  have hget (fields : List FieldSpec) : t.get? key ≠ some fields := by
    intro hsome
    obtain ⟨e, he, hkey', -⟩ := (h.get?_eq_some_iff key fields).mp hsome
    exact hnew e he hkey'
  obtain ⟨t', ht', hnames, hcount, hlookup⟩ :=
    insert_of_new (Option.eq_none_iff_forall_ne_some.mpr hget) specs
  have hregister : event.register t = .ok t' := by
    rw [EventDraft.register_of_hasKey h.typeNames_eq hkey, fieldSpecs_of_declared hspecs]
    exact ht'
  refine ⟨t', hregister, hnames.trans h.typeNames_eq, ?_, fun key' specs' => ?_⟩
  · rw [hcount, h.size_eq, List.length_append]
    rfl
  · simp only [hlookup, List.mem_append, List.mem_singleton, or_and_right, exists_or,
      exists_eq_left]
    split
    · next heq =>
        -- The new event is the only one of its key.
        subst heq
        rw [Option.some.injEq]
        constructor
        · rintro rfl
          exact .inr ⟨hkey, hspecs⟩
        · rintro (⟨e, he, hkey', -⟩ | ⟨-, hspecs'⟩)
          · exact absurd hkey' (hnew e he)
          · exact declared_unique hspecs hspecs'
    · next hne =>
        rw [h.get?_eq_some_iff]
        constructor
        · exact .inl
        · rintro (hearlier | ⟨hkey', -⟩)
          · exact hearlier
          · exact absurd (hkey'.unique hkey) hne

/-- **The first fault of an event is reported.** -/
theorem Describes.register_of_fault {d : Defect} (h : t.Describes ⟨typeNames, earlier⟩)
    (hvalid : TableDraft.Valid ⟨typeNames, earlier⟩)
    (hevent : event.FirstFault typeNames earlier d) : event.register t = .error d := by
  cases hevent with
  | @unknownTypeName n htype hn =>
      rw [EventDraft.register, htype, TypeRef.code?, typeCode?_of_not_mem (h.typeNames_eq ▸ hn)]
      rfl
  | field hkey hfault =>
      rw [EventDraft.register_of_hasKey h.typeNames_eq hkey, fieldSpecs_of_fault hfault]
      rfl
  | @duplicateSchema key e hkey hfields he hkey' =>
      obtain ⟨specs, hspecs⟩ := exists_declared hfields
      obtain ⟨specs', hget⟩ := h.get?_of_hasKey hvalid he hkey'
      rw [EventDraft.register_of_hasKey h.typeNames_eq hkey, fieldSpecs_of_declared hspecs]
      exact insert_of_registered hget specs

end Table

/-! ## Registering events in order -/

theorem registerAll_append (t : Table) (events more : List EventDraft) :
    registerAll t (events ++ more) = registerAll t events >>= fun t' => registerAll t' more := by
  induction events generalizing t with
  | nil => rfl
  | cons event events ih =>
      rw [List.cons_append, registerAll, registerAll]
      cases event.register t with
      | error d => rfl
      | ok t' => exact ih t'

namespace TableDraft

/-- A valid draft makes a table. -/
theorem toTable_of_valid (hsize : typeNames.length ≤ UInt32.size) {events : List EventDraft}
    (h : Valid ⟨typeNames, events⟩) :
    ∃ t, toTable ⟨typeNames, events⟩ = .ok t ∧ t.Describes ⟨typeNames, events⟩ := by
  induction events using List.reverseRecOn with
  | nil => exact ⟨_, rfl, Table.describes_ofTypeNames typeNames⟩
  | append_singleton events event ih =>
      obtain ⟨hvalid, key, hsound⟩ := (valid_concat_iff hsize).mp h
      obtain ⟨t, ht, hdescribes⟩ := ih hvalid
      obtain ⟨t', ht', hdescribes'⟩ := hdescribes.register_of_sound hsound
      refine ⟨t', ?_, hdescribes'⟩
      rw [toTable] at ht ⊢
      rw [registerAll_append, ht]
      show registerAll t [event] = _
      rw [registerAll, ht']
      rfl

theorem toTable_of_fault (hsize : typeNames.length ≤ UInt32.size) {events : List EventDraft}
    {d : Defect} (h : FirstFault ⟨typeNames, events⟩ d) :
    toTable ⟨typeNames, events⟩ = .error d := by
  obtain ⟨earlier, event, later, hevents, hvalid, hfault⟩ := h
  obtain ⟨t, ht, hdescribes⟩ := toTable_of_valid hsize hvalid
  rw [toTable] at ht ⊢
  rw [show events = earlier ++ event :: later from hevents, registerAll_append, ht]
  show registerAll t (event :: later) = _
  rw [registerAll, hdescribes.register_of_fault hvalid hfault]
  rfl

/-- **A draft makes a table exactly if it is valid, and otherwise its first fault is reported.** The
table has an entry for each event: it gives the listed keys, and no others, the declared fields in
order, and each name stands for the first of the codes that are displayed by it. -/
theorem toTable_checks (draft : TableDraft) (hsize : draft.typeNames.length ≤ UInt32.size) :
    ((∃ t, draft.toTable = .ok t) ↔ draft.Valid) ∧
    (∀ t, draft.toTable = .ok t →
      t.size = draft.events.length ∧
      (∀ key, (t.get? key).isSome = true ↔
        ∃ event ∈ draft.events, event.HasKey draft.typeNames key) ∧
      (∀ key specs, t.get? key = some specs ↔
        ∃ event ∈ draft.events, event.HasKey draft.typeNames key ∧
          List.Forall₂ FieldDraft.Declares event.fields specs) ∧
      ∀ n ∈ draft.typeNames, ∃ c, (TypeRef.name n).Denotes draft.typeNames c ∧
        t.typeCode? n = some c ∧ t.typeName c = n) ∧
    ∀ d, draft.toTable = .error d ↔ draft.FirstFault d := by
  obtain ⟨typeNames, events⟩ := draft
  refine ⟨⟨?_, ?_⟩, ?_, fun d => ⟨?_, toTable_of_fault hsize⟩⟩
  · rintro ⟨t, ht⟩
    -- A draft is valid or has a first fault, and the two have different results.
    rcases valid_or_fault hsize events with hvalid | ⟨d, hd⟩
    · exact hvalid
    · cases ht.symm.trans (toTable_of_fault hsize hd)
  · intro hvalid
    obtain ⟨t, ht, -⟩ := toTable_of_valid hsize hvalid
    exact ⟨t, ht⟩
  · intro t ht
    rcases valid_or_fault hsize events with hvalid | ⟨d, hd⟩
    · obtain ⟨t', ht', hdescribes⟩ := toTable_of_valid hsize hvalid
      cases ht.symm.trans ht'
      refine ⟨hdescribes.size_eq, fun key => ?_, hdescribes.get?_eq_some_iff, fun n hn => ?_⟩
      · rw [Option.isSome_iff_exists]
        constructor
        · rintro ⟨specs, hspecs⟩
          obtain ⟨event, hevent, hkey, -⟩ := (hdescribes.get?_eq_some_iff key specs).mp hspecs
          exact ⟨event, hevent, hkey⟩
        · rintro ⟨event, hevent, hkey⟩
          exact hdescribes.get?_of_hasKey hvalid hevent hkey
      · obtain ⟨c, hc⟩ := TypeRef.denotes_name hsize hn
        have hc' : (TypeRef.name n).Denotes t.typeNames c := hdescribes.typeNames_eq ▸ hc
        exact ⟨c, hc, Table.typeCode?_of_denotes hc', Table.typeName_of_denotes hc'⟩
    · cases ht.symm.trans (toTable_of_fault hsize hd)
  · intro hd
    rcases valid_or_fault hsize events with hvalid | ⟨d', hd'⟩
    · obtain ⟨t, ht, -⟩ := toTable_of_valid hsize hvalid
      cases ht.symm.trans hd
    · cases hd.symm.trans (toTable_of_fault hsize hd')
      exact hd'

/-- An event whose field lacks its wire integer and whose key is taken: the field is reported. -/
theorem toTable_checks_taken :
    let draft : TableDraft :=
      { typeNames := ["Login", "Logout"]
        events := [
          { eventType := .name "Logout", version := 1, fields := [] },
          { eventType := .code 1, version := 1, fields := [⟨"READ_TYPE", "user", none⟩] }] }
    draft.typeNames.length ≤ UInt32.size ∧ draft.FirstFault (.missingPrimitive 0 ⟨1, 1⟩) :=
  ⟨by decide, ((toTable_checks _ (by decide)).2.2 _).mp rfl⟩

end TableDraft

end Schema

end EventLog
