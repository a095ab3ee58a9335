import EventLog.Proofs.Schema.Members

set_option autoImplicit false

/-! # Documents of schema tables

A draft is written down as a JSON value of a certain form (`TableDraft.Form`): the members of each
object are in any order and among members of other names, and what is empty or missing may be left
out. Of every text of such a value the draft is read back (`TableDraft.parse_of_form`). Every draft
has such a text (`TableDraft.exists_text`), and it loads as the draft does
(`Table.parse_of_written`).
-/

namespace EventLog.Schema

open Json

/-! ## Fields -/

/-- The form of a field. -/
inductive FieldDraft.Form (f : FieldDraft) : Json → Prop
  | intro {type ms : List (String × Json)}
      (htype : Optional "type" (ofText? f.primitive) (f.primitive = none) type)
      (hms : HasMembers ["reader", "name", "type"]
        ([("reader", .string f.kind), ("name", .string f.name)] ++ type) ms) : Form f (.object ms)

/-- What is known of a field behind members of some names. -/
def FieldParts.after (f : FieldDraft) (names : List String) : FieldParts where
  kind := readOf names "reader" f.kind
  name := readOf names "name" f.name
  primitive := readOf names "type" f.primitive

theorem FieldParts.readsMembers {f : FieldDraft} {type : List (String × Json)}
    (htype : Optional "type" (ofText? f.primitive) (f.primitive = none) type) :
    ReadsMembers fieldMember (FieldParts.after f) ["reader", "name", "type"]
      ([("reader", .string f.kind), ("name", .string f.name)] ++ type) where
  mem := by
    cases htype <;> simp
  step := by
    have hkind : StepsOn fieldMember (FieldParts.after f) ("reader", .string f.kind) :=
      stepsOn_of_once (readText_readsForm f.kind _ · rfl)
        (fun names kind => { FieldParts.after f names with kind }) (fun _ _ => rfl)
        (by simp [FieldParts.after, readOf])
    have hname : StepsOn fieldMember (FieldParts.after f) ("name", .string f.name) :=
      stepsOn_of_once (readText_readsForm f.name _ · rfl)
        (fun names name => { FieldParts.after f names with name }) (fun _ _ => rfl)
        (by simp [FieldParts.after, readOf])
    have hprimitive : StepsOn fieldMember (FieldParts.after f) ("type", ofText? f.primitive) :=
      stepsOn_of_once (readText?_readsForm f.primitive _ · rfl)
        (fun names primitive => { FieldParts.after f names with primitive }) (fun _ _ => rfl)
        (by simp [FieldParts.after, readOf])
    exact List.forall_mem_append.mpr ⟨List.forall_mem_cons.mpr
      ⟨hkind, List.forall_mem_singleton.mpr hname⟩, htype.forall_mem hprimitive⟩
  other := by
    intro k hk names v ts hts rest
    simp only [List.mem_cons, List.not_mem_nil, or_false, not_or] at hk
    obtain ⟨hreader, hname, htypeName⟩ := hk
    -- A member of another name changes nothing that is remembered of these three.
    have hstate : FieldParts.after f (k :: names) = FieldParts.after f names := by
      simp only [FieldParts.after, readOf_cons_of_ne (Ne.symm hreader),
        readOf_cons_of_ne (Ne.symm hname), readOf_cons_of_ne (Ne.symm htypeName)]
    rw [fieldMember, if_neg hreader, if_neg hname, if_neg htypeName, hstate]
    exact other_takesFrom hts _ rest

theorem readField_readsForm : ReadsForm readField FieldDraft.Form := by
  rintro f _ ts ⟨htype, hms⟩ hts
  refine (FieldParts.readsMembers htype).takesFrom ?_ ?_ hms hts
  · cases htype <;> simp
  · intro names hread
    have hkind : "reader" ∈ names := hread ("reader", .string f.kind) (by simp)
    have hname : "name" ∈ names := hread ("name", .string f.name) (by simp)
    have hprimitive : (readOf names "type" f.primitive).getD none = f.primitive :=
      readOf_getD_of_optional htype fun m hm => hread m (List.mem_append_right _ hm)
    simp only [FieldParts.finish, FieldParts.after, readOf_of_mem hkind, readOf_of_mem hname,
      hprimitive, required]
    rfl

/-! ## Events -/

/-- An event type as a value: its code or its name. -/
def TypeRef.json : TypeRef → Json
  | .code c => .int c.toNat
  | .name n => .string n

/-- The form of an event. -/
inductive EventDraft.Form (event : EventDraft) : Json → Prop
  | intro {v : Json} {fields ms : List (String × Json)}
      (hv : ListForm FieldDraft.Form event.fields v)
      (hfields : Optional "fields" v (event.fields = []) fields)
      (hms : HasMembers ["type", "version", "fields"]
        ([("type", event.eventType.json), ("version", .int event.version.toNat)] ++ fields) ms) :
      Form event (.object ms)

theorem readTypeRef_readsForm : ReadsForm readTypeRef fun r v => v = r.json := by
  rintro (c | n) _ ts rfl hts rest
  · -- The type of an event is a number in range or a name; the reader tells them by the token.
    have hbounds : (0 : Int) ≤ c.toNat ∧ (c.toNat : Int) < UInt32.size := by
      have := c.toNat_lt_size
      omega
    rw [hts.int]
    refine bind_eq_ok.mpr ⟨(.int c.toNat, rest), rfl, ?_⟩
    show (if (0 : Int) ≤ c.toNat ∧ (c.toNat : Int) < UInt32.size
      then pure (TypeRef.code (UInt32.ofNat (c.toNat : Int).toNat), rest)
      else throw Problem.mismatched) = _
    rw [if_pos hbounds, Int.toNat_natCast, UInt32.ofNat_toNat]
    rfl
  · obtain ⟨pieces, hvalue, rfl⟩ := hts.string
    have hread : readValue typeDepth (.string pieces none :: rest) = .ok (.string n, rest) := by
      rw [readValue, hvalue]
      rfl
    exact bind_eq_ok.mpr ⟨_, hread, rfl⟩

theorem readVersion_readsForm : ReadsForm readVersion fun version v => v = .int version.toNat := by
  rintro version _ ts rfl hts rest
  have hbounds : (0 : Int) ≤ version.toNat ∧ (version.toNat : Int) < UInt16.size := by
    have := version.toNat_lt_size
    omega
  have hread : readNatural UInt16.size (.number (.ok (.integer version.toNat)) :: rest) =
      .ok (version.toNat, rest) := by
    rw [readNatural, if_pos hbounds, Int.toNat_natCast]
  rw [hts.int]
  exact bind_eq_ok.mpr ⟨_, hread, pure_eq_ok.mpr (by rw [UInt16.ofNat_toNat])⟩

/-- What is known of an event behind members of some names. -/
def EventParts.after (event : EventDraft) (names : List String) : EventParts where
  eventType := readOf names "type" event.eventType
  version := readOf names "version" event.version
  fields := readOf names "fields" event.fields

theorem EventParts.readsMembers {event : EventDraft} {v : Json} {fields : List (String × Json)}
    (hv : ListForm FieldDraft.Form event.fields v)
    (hfields : Optional "fields" v (event.fields = []) fields) :
    ReadsMembers eventMember (EventParts.after event) ["type", "version", "fields"]
      ([("type", event.eventType.json), ("version", .int event.version.toNat)] ++ fields) where
  mem := by
    cases hfields <;> simp
  step := by
    have htype : StepsOn eventMember (EventParts.after event) ("type", event.eventType.json) :=
      stepsOn_of_once (readTypeRef_readsForm event.eventType _ · rfl)
        (fun names eventType => { EventParts.after event names with eventType }) (fun _ _ => rfl)
        (by simp [EventParts.after, readOf])
    have hversion :
        StepsOn eventMember (EventParts.after event) ("version", .int event.version.toNat) :=
      stepsOn_of_once (readVersion_readsForm event.version _ · rfl)
        (fun names version => { EventParts.after event names with version }) (fun _ _ => rfl)
        (by simp [EventParts.after, readOf])
    have hlist : StepsOn eventMember (EventParts.after event) ("fields", v) :=
      stepsOn_of_once (readList_readsForm readField_readsForm event.fields v · hv)
        (fun names fields => { EventParts.after event names with fields }) (fun _ _ => rfl)
        (by simp [EventParts.after, readOf])
    exact List.forall_mem_append.mpr ⟨List.forall_mem_cons.mpr
      ⟨htype, List.forall_mem_singleton.mpr hversion⟩, hfields.forall_mem hlist⟩
  other := by
    intro k hk names v ts hts rest
    simp only [List.mem_cons, List.not_mem_nil, or_false, not_or] at hk
    obtain ⟨htype, hversion, hfields⟩ := hk
    have hstate : EventParts.after event (k :: names) = EventParts.after event names := by
      simp only [EventParts.after, readOf_cons_of_ne (Ne.symm htype),
        readOf_cons_of_ne (Ne.symm hversion), readOf_cons_of_ne (Ne.symm hfields)]
    rw [eventMember, if_neg htype, if_neg hversion, if_neg hfields, hstate]
    exact other_takesFrom hts _ rest

theorem readEvent_readsForm : ReadsForm readEvent EventDraft.Form := by
  rintro event _ ts ⟨hv, hfields, hms⟩ hts
  refine (EventParts.readsMembers hv hfields).takesFrom ?_ ?_ hms hts
  · cases hfields <;> simp
  · intro names hread
    have htype : "type" ∈ names := hread ("type", event.eventType.json) (by simp)
    have hversion : "version" ∈ names := hread ("version", .int event.version.toNat) (by simp)
    have hlist : (readOf names "fields" event.fields).getD [] = event.fields :=
      readOf_getD_of_optional hfields fun m hm => hread m (List.mem_append_right _ hm)
    simp only [EventParts.finish, EventParts.after, readOf_of_mem htype, readOf_of_mem hversion,
      hlist, required]
    rfl

/-! ## Tables -/

/-- The form of a table. -/
inductive TableDraft.Form (draft : TableDraft) : Json → Prop
  | intro {v v' : Json} {typeNames events ms : List (String × Json)}
      (hv : ListForm (fun n v => v = .string n) draft.typeNames v)
      (htypeNames : Optional "event_types" v (draft.typeNames = []) typeNames)
      (hv' : ListForm EventDraft.Form draft.events v')
      (hevents : Optional "events" v' (draft.events = []) events)
      (hms : HasMembers ["event_types", "events"] (typeNames ++ events) ms) : Form draft (.object ms)

/-- What is known of a table behind members of some names. -/
def TableParts.after (draft : TableDraft) (names : List String) : TableParts where
  typeNames := readOf names "event_types" draft.typeNames
  events := readOf names "events" draft.events

theorem TableParts.readsMembers {draft : TableDraft} {v v' : Json}
    {typeNames events : List (String × Json)}
    (hv : ListForm (fun n v => v = .string n) draft.typeNames v)
    (htypeNames : Optional "event_types" v (draft.typeNames = []) typeNames)
    (hv' : ListForm EventDraft.Form draft.events v')
    (hevents : Optional "events" v' (draft.events = []) events) :
    ReadsMembers tableMember (TableParts.after draft) ["event_types", "events"]
      (typeNames ++ events) where
  mem := by
    cases htypeNames <;> cases hevents <;> simp
  step := by
    have hnames : StepsOn tableMember (TableParts.after draft) ("event_types", v) :=
      stepsOn_of_once (readList_readsForm readText_readsForm draft.typeNames v · hv)
        (fun names typeNames => { TableParts.after draft names with typeNames }) (fun _ _ => rfl)
        (by simp [TableParts.after, readOf])
    have hlist : StepsOn tableMember (TableParts.after draft) ("events", v') :=
      stepsOn_of_once (readList_readsForm readEvent_readsForm draft.events v' · hv')
        (fun names events => { TableParts.after draft names with events }) (fun _ _ => rfl)
        (by simp [TableParts.after, readOf])
    exact List.forall_mem_append.mpr ⟨htypeNames.forall_mem hnames, hevents.forall_mem hlist⟩
  other := by
    intro k hk names v ts hts rest
    simp only [List.mem_cons, List.not_mem_nil, or_false, not_or] at hk
    obtain ⟨htypes, hevents⟩ := hk
    have hstate : TableParts.after draft (k :: names) = TableParts.after draft names := by
      simp only [TableParts.after, readOf_cons_of_ne (Ne.symm htypes),
        readOf_cons_of_ne (Ne.symm hevents)]
    rw [tableMember, if_neg htypes, if_neg hevents, hstate]
    exact other_takesFrom hts _ rest

theorem readTable_readsForm : ReadsForm readTable TableDraft.Form := by
  rintro draft _ ts ⟨hv, htypeNames, hv', hevents, hms⟩ hts
  refine (TableParts.readsMembers hv htypeNames hv' hevents).takesFrom ?_ ?_ hms hts
  · cases htypeNames <;> cases hevents <;> simp
  · intro names hread
    have hnames : (readOf names "event_types" draft.typeNames).getD [] = draft.typeNames :=
      readOf_getD_of_optional htypeNames fun m hm => hread m (List.mem_append_left _ hm)
    have hlist : (readOf names "events" draft.events).getD [] = draft.events :=
      readOf_getD_of_optional hevents fun m hm => hread m (List.mem_append_right _ hm)
    simp only [TableParts.finish, TableParts.after, hnames, hlist]

/-! ## Documents -/

/-- The draft is read back from every text of its form. -/
theorem TableDraft.parse_of_form {draft : TableDraft} {v : Json} (hv : draft.Form v)
    {text : String} (htext : v.Writes text.toList) :
    TableDraft.parse (Utf8.ofString text) = .ok draft := by
  have hread := readTable_readsForm draft v _ hv htext.hasTokens []
  rw [List.append_nil] at hread
  exact bind_eq_ok.mpr ⟨_, hread, rfl⟩

/-! ## Every draft can be written down -/

def FieldDraft.json (f : FieldDraft) : Json :=
  .object [("reader", .string f.kind), ("name", .string f.name), ("type", ofText? f.primitive)]

def EventDraft.json (event : EventDraft) : Json :=
  .object [("type", event.eventType.json), ("version", .int event.version.toNat),
    ("fields", .array (event.fields.map FieldDraft.json))]

def TableDraft.json (draft : TableDraft) : Json :=
  .object [("event_types", .array (draft.typeNames.map .string)),
    ("events", .array (draft.events.map EventDraft.json))]

theorem hasMembers_given (known : List String) (given : List (String × Json)) :
    HasMembers known given given :=
  ⟨[], List.forall_mem_nil _, by rw [List.append_nil]⟩

theorem listForm_map {α : Type} {form : α → Json → Prop} {json : α → Json}
    (h : ∀ x, form x (json x)) (xs : List α) : ListForm form xs (.array (xs.map json)) :=
  ⟨_, List.forall₂_map_right_iff.mpr (List.forall₂_same.mpr fun x _ => h x), rfl⟩

theorem TableDraft.form_json (draft : TableDraft) : draft.Form draft.json := by
  have hfield (f : FieldDraft) : f.Form f.json := .intro .given (hasMembers_given _ _)
  have hevent (event : EventDraft) : event.Form event.json :=
    .intro (listForm_map hfield event.fields) .given (hasMembers_given _ _)
  have htypeNames : ListForm (fun n v => v = .string n) draft.typeNames
      (.array (draft.typeNames.map .string)) := by
    refine listForm_map ?_ draft.typeNames
    intro n
    rfl
  exact .intro htypeNames .given (listForm_map hevent draft.events) .given (hasMembers_given _ _)

theorem inRange_natCast {n : Nat} (h : n < UInt64.size) : InRange n := by
  unfold InRange
  omega

theorem FieldDraft.fits_json (f : FieldDraft) : f.json.Fits 1 := by
  have hprimitive : (ofText? f.primitive).Fits 0 := by
    cases f.primitive <;> trivial
  exact List.forall_mem_cons.mpr
    ⟨trivial, List.forall_mem_cons.mpr ⟨trivial, List.forall_mem_singleton.mpr hprimitive⟩⟩

theorem EventDraft.fits_json (event : EventDraft) : event.json.Fits 3 := by
  have hfields : Json.Fits 2 (.array (event.fields.map FieldDraft.json)) := by
    refine List.forall_mem_map.mpr ?_
    intro f _
    exact f.fits_json
  have htype : event.eventType.json.Fits 2 := by
    cases event.eventType with
    | code c => exact inRange_natCast (Nat.lt_trans c.toNat_lt_size (by decide))
    | name n => trivial
  have hversion : Json.Fits 2 (.int event.version.toNat) :=
    inRange_natCast (Nat.lt_trans event.version.toNat_lt_size (by decide))
  exact List.forall_mem_cons.mpr
    ⟨htype, List.forall_mem_cons.mpr ⟨hversion, List.forall_mem_singleton.mpr hfields⟩⟩

theorem TableDraft.fits_json (draft : TableDraft) : draft.json.Fits 5 := by
  have htypeNames : Json.Fits 4 (.array (draft.typeNames.map .string)) := by
    refine List.forall_mem_map.mpr ?_
    intro n _
    trivial
  have hevents : Json.Fits 4 (.array (draft.events.map EventDraft.json)) := by
    refine List.forall_mem_map.mpr ?_
    intro event _
    exact event.fits_json
  exact List.forall_mem_cons.mpr ⟨htypeNames, List.forall_mem_singleton.mpr hevents⟩

/-- Every draft has a document. -/
theorem TableDraft.exists_text (draft : TableDraft) :
    ∃ (v : Json) (text : String), draft.Form v ∧ v.Writes text.toList := by
  obtain ⟨text, htext⟩ := Json.exists_text draft.fits_json
  refine ⟨draft.json, String.ofList text, draft.form_json, ?_⟩
  rwa [String.toList_ofList]

/-! ## Loading -/

/-- **A document loads as the draft that is written down in it**, be it given as a text or as
bytes: it makes the same table or has the same defect, and it is never refused for its shape. There
is a document for every draft. -/
theorem Table.parse_of_written (draft : TableDraft) :
    (∃ (v : Json) (text : String), draft.Form v ∧ v.Writes text.toList) ∧
    ∀ (v : Json) (text : String), draft.Form v → v.Writes text.toList →
      Table.parseText text = draft.toTable.mapError .defect ∧
        Table.parse (Utf8.ofString text) = draft.toTable.mapError .defect := by
  refine ⟨draft.exists_text, fun v text hv htext => ?_⟩
  have hparse : Table.parse (Utf8.ofString text) = draft.toTable.mapError .defect := by
    rw [Table.parse, TableDraft.parse_of_form hv htext]
    cases htable : draft.toTable with
    | error d => simp [htable, Except.mapError]
    | ok t => simp [htable, Except.mapError]
  exact ⟨hparse, hparse⟩

def codeDraft : TableDraft :=
  { typeNames := [], events := [{ eventType := .code 7, version := 1, fields := [] }] }

/-- A document of this draft: without its empty lists, with a member of an unknown name, an escape
in a name, and blanks. -/
def codeDocument : String :=
  "\x7b \"x\" : 1.5 ,\"events\":[\x7b\"version\":1,\"t\\u0079pe\":7\x7d]\x7d"

def codeJson : Json :=
  .object [("x", .real), ("events", .array [.object [("version", .int 1), ("type", .int 7)]])]

theorem codeDraft_form : codeDraft.Form codeJson := by
  have hevent : EventDraft.Form { eventType := .code 7, version := 1, fields := [] }
      (.object [("version", .int 1), ("type", .int 7)]) :=
    .intro ⟨[], .nil, rfl⟩ (.omitted rfl) ⟨[], List.forall_mem_nil _, .swap _ _ _⟩
  refine .intro ⟨[], .nil, rfl⟩ (.omitted rfl) ⟨_, .cons hevent .nil, rfl⟩ .given ?_
  exact ⟨[("x", .real)], by simp, .swap _ _ _⟩

theorem codeJson_writes : codeJson.Writes codeDocument.toList := by
  have hx : StringText "x" "\"x\"".toList := stringText_of_plain (by decide)
  have hevents : StringText "events" "\"events\"".toList := stringText_of_plain (by decide)
  have hversion : StringText "version" "\"version\"".toList := stringText_of_plain (by decide)
  -- The `y` of `type` is written as an escape, so the text is not the plain one.
  have htype : StringText "type" "\"t\\u0079pe\"".toList := by
    have hunit : UnitText 'y'.toNat ['0', '0', '7', '9'] :=
      .cons (by decide) (.cons (by decide) (.cons (by decide) (.cons (by decide) .nil)))
    refine ⟨[['t'], ['\\', 'u', '0', '0', '7', '9'], ['p'], ['e']], ?_, rfl⟩
    exact .cons (.plain (by decide) (by decide)) (.cons (.unit hunit)
      (.cons (.plain (by decide) (by decide)) (.cons (.plain (by decide) (by decide)) .nil)))
  have hdigit : DigitsText ['1'] ∧ DigitsText ['5'] := by simp [DigitsText, Char.isDigit]
  have hnumber : NumberText "1.5".toList :=
    @NumberText.intro [] ['1'] ['.', '5'] [] (.inl rfl) ⟨hdigit.1, by simp⟩
      (.digits hdigit.2) .absent
  have hevent : Lexemes (.object [("version", .int 1), ("type", .int 7)]) _ :=
    .object (.cons (.intro hversion (.int (by unfold InRange; decide)))
      (.cons (.intro htype (.int (by unfold InRange; decide))) .nil))
  have hlexemes : Lexemes codeJson _ :=
    .object (.cons (.intro hx (.real hnumber))
      (.cons (.intro hevents (.array (.cons hevent .nil))) .nil))
  refine ⟨_, hlexemes, ?_⟩
  have hspaced := @spaced_flatMap [([], "\x7b".toList), ([' '], "\"x\"".toList),
    ([' '], ":".toList), ([' '], "1.5".toList), ([' '], ",".toList), ([], "\"events\"".toList),
    ([], ":".toList), ([], "[".toList), ([], "\x7b".toList), ([], "\"version\"".toList),
    ([], ":".toList), ([], "1".toList), ([], ",".toList), ([], "\"t\\u0079pe\"".toList),
    ([], ":".toList), ([], "7".toList), ([], "\x7d".toList), ([], "]".toList),
    ([], "\x7d".toList)] [] (by simp [Blanks]) (List.forall_mem_nil _)
  exact hspaced

theorem Table.parse_of_written_code :
    codeDraft.Form codeJson ∧ codeJson.Writes codeDocument.toList ∧
      (Table.parse (Utf8.ofString codeDocument)).isOk = true := by
  obtain ⟨-, hparse⟩ := (Table.parse_of_written codeDraft).2 _ _ codeDraft_form codeJson_writes
  refine ⟨codeDraft_form, codeJson_writes, ?_⟩
  rw [hparse]
  rfl

end EventLog.Schema
