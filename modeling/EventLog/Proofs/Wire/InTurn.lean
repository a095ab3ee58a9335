import EventLog.Proofs.Wire.Relocation
import Mathlib.Algebra.Order.Ring.Nat

set_option autoImplicit false

/-! # Fields read in turn

The fields of a payload can be read one at a time, each by itself and at the offset where the one
before ended (`Payload.readInTurn`). Reading them together gives the same values, in a map where the
last of the fields with one key counts, or the same fault, found as many bytes further on as the
payload starts in the log (`Payload.read_eq_readInTurn`). Bytes before the first field and behind
the last have no influence.
-/

namespace EventLog

/-! ## Entries of equal keys -/

namespace Fields

theorem keys_insert (fields : Fields) (key : String) (value : FieldValue) :
    (fields.insert key value).keys =
      if key ∈ fields.keys then fields.keys else fields.keys ++ [key] :=
  keys_putEntry key value fields.entries

theorem lookup_cons_eq (entry : String × FieldValue) (rest : List (String × FieldValue))
    (key : String) :
    (entry :: rest).lookup key = if key = entry.1 then some entry.2 else rest.lookup key := by
  rw [List.lookup_cons]
  by_cases h : key = entry.1
  · rw [if_pos h, beq_iff_eq.mpr h]
  · rw [if_neg h, beq_eq_false_iff_ne.mpr h]

theorem get?_insert (fields : Fields) (key other : String) (value : FieldValue) :
    (fields.insert key value).get? other =
      if other = key then some value else fields.get? other := by
  show (putEntry key value fields.entries).lookup other = if other = key then some value else
    fields.entries.lookup other
  -- On the entries: the first of a key is the one that counts, and it is the one replaced.
  induction fields.entries with
  | nil => exact lookup_cons_eq (key, value) [] other
  | cons entry rest ih =>
      rw [putEntry, lookup_cons_eq]
      by_cases hkey : entry.1 = key
      · rw [if_pos hkey, lookup_cons_eq, hkey]
        split <;> rfl
      · rw [if_neg hkey, lookup_cons_eq, ih]
        by_cases hother : other = entry.1
        · rw [if_pos hother, if_pos hother, if_neg (hother ▸ hkey)]
        · rw [if_neg hother, if_neg hother]

/-- Keys that are new come behind those before, each where it first appears. -/
theorem keys_foldl_insert (entries : List (String × FieldValue)) (before : Fields) :
    (entries.foldl (fun fields entry => fields.insert entry.1 entry.2) before).keys =
      before.keys ++ ((entries.map Prod.fst).removeAll before.keys).eraseDups := by
  induction entries generalizing before with
  | nil => simp
  | cons entry rest ih =>
      rw [List.foldl_cons, ih, keys_insert, List.map_cons, List.cons_removeAll]
      by_cases h : entry.1 ∈ before.keys
      · rw [if_pos h, if_neg (by simpa using h)]
      · have hremove : (rest.map Prod.fst).removeAll (before.keys ++ [entry.1]) =
            ((rest.map Prod.fst).removeAll before.keys).filter fun b => !b == entry.1 := by
          simp [List.removeAll, List.filter_filter, Bool.beq_eq_decide_eq, Bool.and_comm]
        rw [if_neg h, if_pos (by simpa using h), List.eraseDups_cons, hremove, List.append_assoc]
        rfl

/-- The keys of a list of entries are their keys, each where it first appears. -/
theorem keys_ofList (entries : List (String × FieldValue)) :
    (ofList entries).keys = (entries.map Prod.fst).eraseDups := by
  rw [ofList, keys_foldl_insert]
  simp [keys, empty, List.removeAll]

/-- Entries of other keys leave the value of a key. -/
theorem get?_foldl_insert {entries : List (String × FieldValue)} {key : String}
    (h : ∀ entry ∈ entries, entry.1 ≠ key) (before : Fields) :
    (entries.foldl (fun fields entry => fields.insert entry.1 entry.2) before).get? key =
      before.get? key := by
  induction entries generalizing before with
  | nil => rfl
  | cons entry rest ih =>
      rw [List.foldl_cons, ih fun other hother => h other (List.mem_cons_of_mem _ hother),
        get?_insert, if_neg (h entry List.mem_cons_self).symm]

/-- The last entry of a key gives its value. -/
theorem get?_ofList {entries : List (String × FieldValue)} {i : Nat} {key : String}
    {value : FieldValue} (hentry : entries[i]? = some (key, value))
    (hlast : ∀ j entry, i < j → entries[j]? = some entry → entry.1 ≠ key) :
    (ofList entries).get? key = some value := by
  obtain ⟨hi, hget⟩ := List.getElem?_eq_some_iff.mp hentry
  have hsplit : entries = entries.take i ++ (key, value) :: entries.drop (i + 1) := by
    rw [← hget, List.getElem_cons_drop, List.take_append_drop]
  have hbehind : ∀ entry ∈ entries.drop (i + 1), entry.1 ≠ key := by
    intro entry hmem
    obtain ⟨n, hn⟩ := List.getElem?_of_mem hmem
    rw [List.getElem?_drop] at hn
    exact hlast _ entry (by omega) hn
  rw [ofList, hsplit, List.foldl_append, List.foldl_cons, get?_foldl_insert hbehind, get?_insert,
    if_pos rfl]

/-- The value of a field is that of its key, if no later field has the same key. -/
theorem get?_fieldEntries {specs : List FieldSpec} {values : List FieldValue} {i : Nat}
    {spec : FieldSpec} {value : FieldValue} (hspec : specs[i]? = some spec)
    (hvalue : values[i]? = some value)
    (hlast : ∀ (j : Nat) (later : FieldSpec), i < j → specs[j]? = some later →
      later.key ≠ spec.key) :
    (ofList (fieldEntries specs values)).get? spec.key = some value := by
  refine get?_ofList (i := i) ?_ ?_
  · simp [fieldEntries, List.getElem?_zip_eq_some, hspec, hvalue]
  · intro j entry hj hentry
    obtain ⟨hkey, -⟩ := List.getElem?_zip_eq_some.mp hentry
    rw [List.getElem?_map, Option.map_eq_some_iff] at hkey
    obtain ⟨later, hlater, hkey⟩ := hkey
    exact hkey ▸ hlast j later hj hlater

theorem keys_fieldEntries {specs : List FieldSpec} {values : List FieldValue}
    (h : specs.length ≤ values.length) :
    (ofList (fieldEntries specs values)).keys = (specs.map FieldSpec.key).eraseDups := by
  rw [keys_ofList, fieldEntries, List.map_fst_zip (by rwa [List.length_map])]

end Fields

/-! ## One field -/

namespace Cursor

theorem Spans.next_eq {c next : Cursor} {bytes : List UInt8} (h : c.Spans bytes next) :
    next = c.advance bytes.length := by
  rw [advance, h.1, List.drop_left, ← h.2]

/-- The cursor at an offset of bytes that start at position `base` of the log. -/
def of (data : List UInt8) (offset base : Nat) : Cursor := ⟨base + offset, data.drop offset⟩

theorem at?_eq {data : List UInt8} {offset : Nat} (h : offset ≤ data.length) (base : Nat) :
    at? data offset base = .ok (of data offset base) :=
  if_pos (hasAtLeast_iff.mpr h)

theorem of_moved (data : List UInt8) (offset base : Nat) :
    (of data offset 0).moved base = of data offset base := by
  rw [moved, of, of, Nat.zero_add, Nat.add_comm]

theorem field_of (data : List UInt8) (offset base : Nat) (layout : Layout) :
    (of data offset base).field layout = relocate movedPair base ((of data offset 0).field layout) := by
  rw [← of_moved]
  exact movable_field layout _ base

theorem advance_of (data : List UInt8) (offset base n : Nat) :
    (of data offset base).advance n = of data (offset + n) base := by
  rw [advance, of, of, List.drop_drop, Nat.add_assoc]

end Cursor

/-- A field that is read by itself takes the bytes of its value, and they lie in the data. -/
theorem Layout.readAt_eq_ok_iff {layout : Layout} {data : List UInt8} {offset size : Nat}
    {value : FieldValue} (hoffset : offset ≤ data.length) :
    layout.readAt data offset = .ok (value, size) ↔
      offset + size ≤ data.length ∧
        (Cursor.of data offset 0).field layout = .ok (value, Cursor.of data (offset + size) 0) := by
  rw [readAt, Cursor.at?_eq hoffset]
  show ((Cursor.of data offset 0).field layout >>= _) = _ ↔ _
  rw [bind_eq_ok]
  constructor
  · rintro ⟨⟨v, next⟩, hfield, hresult⟩
    obtain ⟨hholds, hspans⟩ := Cursor.field_eq_ok_iff.mp hfield
    -- The size is a difference of positions; what was read spans just that many bytes.
    have hsize : next.position - (Cursor.of data offset 0).position = v.wire.length := by
      rw [hspans.2, Nat.add_sub_cancel_left]
    have hlength := congrArg List.length hspans.1
    rw [Cursor.of, List.length_drop, List.length_append] at hlength
    cases hresult
    rw [hsize, ← Cursor.advance_of, ← hspans.next_eq]
    exact ⟨by omega, hfield⟩
  · rintro ⟨-, hfield⟩
    refine ⟨_, hfield, ?_⟩
    show Except.ok (value, 0 + (offset + size) - (0 + offset)) = _
    congr 2
    omega

theorem Layout.readAt_eq_error_iff {layout : Layout} {data : List UInt8} {offset : Nat}
    {fault : Fault} (hoffset : offset ≤ data.length) :
    layout.readAt data offset = .error fault ↔
      (Cursor.of data offset 0).field layout = .error fault := by
  rw [readAt, Cursor.at?_eq hoffset]
  show ((Cursor.of data offset 0).field layout >>= _) = _ ↔ _
  rw [bind_eq_error]
  exact or_iff_left fun ⟨_, _, h⟩ => nomatch h

/-! ## Fields one after another -/

namespace Payload

/-- Reads fields one after another, each by itself and at the offset where the one before ended;
gives each value with the number of its bytes. -/
def readInTurn (data : List UInt8) : List FieldSpec → (offset : Nat) →
    Except Fault (List (FieldValue × Nat))
  | [], _ => .ok []
  | spec :: specs, offset => do
      let (value, size) ← spec.layout.readAt data offset
      let reads ← readInTurn data specs (offset + size)
      return (value, size) :: reads

def taken (reads : List (FieldValue × Nat)) : Nat := (reads.map Prod.snd).sum

theorem length_of_readInTurn {data : List UInt8} {specs : List FieldSpec} {offset : Nat}
    {reads : List (FieldValue × Nat)} (h : readInTurn data specs offset = .ok reads) :
    reads.length = specs.length := by
  induction specs generalizing offset reads with
  | nil =>
      cases h
      rfl
  | cons spec specs ih =>
      obtain ⟨⟨value, size⟩, -, hrest⟩ := bind_eq_ok.mp h
      obtain ⟨reads', hreads', hresult⟩ := bind_eq_ok.mp hrest
      cases hresult
      exact congrArg Nat.succ (ih hreads')

/-- **The cursor goes where the reads in turn go**: fields read together are those read in turn, and
the cursor then stands behind the last of them. -/
theorem readFields_eq_ok {data : List UInt8} {specs : List FieldSpec} {offset : Nat}
    {reads : List (FieldValue × Nat)} (hoffset : offset ≤ data.length)
    (h : readInTurn data specs offset = .ok reads) (before : Fields) (base : Nat) :
    offset + taken reads ≤ data.length ∧
      readFields before specs (.of data offset base) =
        .ok ((fieldEntries specs (reads.map Prod.fst)).foldl
          (fun map entry => map.insert entry.1 entry.2) before,
          .of data (offset + taken reads) base) := by
  -- On the fields, with the offset and the map that the earlier ones left.
  induction specs generalizing offset reads before with
  | nil =>
      cases h
      exact ⟨hoffset, rfl⟩
  | cons spec specs ih =>
      obtain ⟨⟨value, size⟩, hread, hrest⟩ := bind_eq_ok.mp h
      obtain ⟨reads', hreads', hresult⟩ := bind_eq_ok.mp hrest
      cases hresult
      obtain ⟨hsize, hfield⟩ := (Layout.readAt_eq_ok_iff hoffset).mp hread
      obtain ⟨hbound, hfields⟩ := ih hsize hreads' (before.insert spec.key value)
      have htaken : offset + taken ((value, size) :: reads') = offset + size + taken reads' :=
        (Nat.add_assoc offset size _).symm
      rw [htaken, readFields, Cursor.field_of, hfield]
      refine ⟨hbound, ?_⟩
      show readFields _ specs ((Cursor.of data (offset + size) 0).moved base) = _
      rw [Cursor.of_moved, hfields]
      rfl

/-- The first field that cannot be read is at fault for all of them. -/
theorem readFields_eq_error {data : List UInt8} {specs : List FieldSpec} {offset : Nat}
    {fault : Fault} (hoffset : offset ≤ data.length)
    (h : readInTurn data specs offset = .error fault) (before : Fields) (base : Nat) :
    readFields before specs (.of data offset base) = .error (fault.moved base) := by
  -- On the fields: a fault in a later one is met after the earlier ones were read.
  induction specs generalizing offset before with
  | nil => cases h
  | cons spec specs ih =>
      rw [readFields, Cursor.field_of]
      rcases bind_eq_error.mp h with hread | ⟨⟨value, size⟩, hread, hrest⟩
      · rw [(Layout.readAt_eq_error_iff hoffset).mp hread]
        rfl
      · obtain ⟨hsize, hfield⟩ := (Layout.readAt_eq_ok_iff hoffset).mp hread
        rw [hfield]
        show readFields _ specs ((Cursor.of data (offset + size) 0).moved base) = _
        rw [Cursor.of_moved]
        rcases bind_eq_error.mp hrest with hreads | ⟨_, _, hresult⟩
        · exact ih hsize hreads _
        · cases hresult

/-! ## The fields of a payload -/

theorem read_eq {table : Schema.Table} {key : EventKey} {data : List UInt8} {offset : Nat}
    (hoffset : offset ≤ data.length) (base : Nat) :
    read table key data offset base =
      (readFrom table key (.of data offset base)).map fun result =>
        (result.1, result.2.position - (base + offset)) := by
  rw [read, Cursor.at?_eq hoffset]
  show (readFrom table key (.of data offset base) >>= _) = _
  cases readFrom table key (.of data offset base) with
  | error fault => rfl
  | ok result => rfl

/-- The fields of a payload are read exactly from the wire forms of their values, whatever comes
before and behind them. -/
theorem read_eq_ok_iff {table : Schema.Table} {key : EventKey} {data : List UInt8}
    {offset base n : Nat} {fields : Fields} (hoffset : offset ≤ data.length) :
    read table key data offset base = .ok (fields, n) ↔
      ∃ specs values, table.get? key = some specs ∧ FieldsHold specs values ∧
        fields = .ofList (fieldEntries specs values) ∧
        n = (values.flatMap FieldValue.wire).length ∧
        (data.drop offset).take n = values.flatMap FieldValue.wire := by
  rw [read_eq hoffset, map_eq_ok]
  constructor
  · rintro ⟨⟨fields', next⟩, hread, hresult⟩
    obtain ⟨specs, values, hget, hholds, hspans, rfl⟩ := readFrom_eq_ok_iff.mp hread
    cases hresult
    have hn : next.position - (base + offset) = (values.flatMap FieldValue.wire).length := by
      rw [hspans.2]
      exact Nat.add_sub_cancel_left _ _
    refine ⟨specs, values, hget, hholds, rfl, hn, ?_⟩
    rw [hn, show data.drop offset = _ from hspans.1, List.take_left]
  · rintro ⟨specs, values, hget, hholds, rfl, rfl, htake⟩
    let wires := values.flatMap FieldValue.wire
    -- The values' bytes are at the offset, whatever stands behind them.
    have hspans : (Cursor.of data offset base).Spans wires
        ⟨base + offset + wires.length, (data.drop offset).drop wires.length⟩ := by
      have hsplit := (List.take_append_drop wires.length (data.drop offset)).symm
      rw [htake] at hsplit
      exact ⟨hsplit, rfl⟩
    refine ⟨_, readFrom_eq_ok_iff.mpr ⟨specs, values, hget, hholds, hspans, rfl⟩, ?_⟩
    simp only [Nat.add_sub_cancel_left, wires]

section InTurn

variable {table : Schema.Table} {key : EventKey} {specs : List FieldSpec} {data : List UInt8}
  {offset : Nat}

/-- Where the reads in turn succeed, they make the map of the payload. -/
theorem read_of_readInTurn {reads : List (FieldValue × Nat)} (base : Nat)
    (hspecs : table.get? key = some specs) (hoffset : offset ≤ data.length)
    (h : readInTurn data specs offset = .ok reads) :
    offset + taken reads ≤ data.length ∧
      read table key data offset base =
        .ok (.ofList (fieldEntries specs (reads.map Prod.fst)), taken reads) := by
  obtain ⟨hbound, hfields⟩ := readFields_eq_ok hoffset h .empty base
  refine ⟨hbound, ?_⟩
  rw [read_eq hoffset, readFrom, hspecs]
  show (readFields .empty specs _).map _ = _
  rw [hfields]
  show Except.ok (_, base + (offset + taken reads) - (base + offset)) = _
  rw [← Nat.add_assoc, Nat.add_sub_cancel_left]
  rfl

theorem read_of_fault {fault : Fault} (base : Nat) (hspecs : table.get? key = some specs)
    (hoffset : offset ≤ data.length) (h : readInTurn data specs offset = .error fault) :
    read table key data offset base = .error (fault.moved base) := by
  rw [read_eq hoffset, readFrom, hspecs]
  show (readFields .empty specs _).map _ = _
  rw [readFields_eq_error hoffset h]
  rfl

/-- The value of a key is that of the last field with this key. -/
theorem get?_of_last {reads : List (FieldValue × Nat)} {i : Nat} {spec : FieldSpec}
    (hlength : reads.length = specs.length) (hspec : specs[i]? = some spec)
    (hlast : ∀ (j : Nat) (later : FieldSpec), i < j → specs[j]? = some later →
      later.key ≠ spec.key) :
    ∃ value size, reads[i]? = some (value, size) ∧
      (Fields.ofList (fieldEntries specs (reads.map Prod.fst))).get? spec.key = some value := by
  have hi : i < reads.length := by
    rw [hlength]
    exact (List.getElem?_eq_some_iff.mp hspec).1
  have hvalue : reads[i]? = some (reads[i].1, reads[i].2) := List.getElem?_eq_getElem hi
  refine ⟨reads[i].1, reads[i].2, hvalue, Fields.get?_fieldEntries hspec ?_ hlast⟩
  rw [List.getElem?_map, hvalue]
  rfl

end InTurn

/-- **A payload is read as its fields in turn.** Where all of them can be read, their bytes are taken
and lie in the data, the keys are those of the fields where they first appear, and the last field of
a key gives its value; neither the bytes before nor those behind are looked at. Where one cannot be
read, its fault is that of the payload, found as many bytes further on as the data start in the
log. -/
theorem read_eq_readInTurn {table : Schema.Table} {key : EventKey} {specs : List FieldSpec}
    {data : List UInt8} {offset : Nat} (base : Nat) (hspecs : table.get? key = some specs)
    (hoffset : offset ≤ data.length) :
    (match readInTurn data specs offset with
      | .ok reads => ∃ fields,
          read table key data offset base = .ok (fields, taken reads) ∧
          offset + taken reads ≤ data.length ∧
          fields.keys = (specs.map FieldSpec.key).eraseDups ∧
          (∀ (i : Nat) (spec : FieldSpec), specs[i]? = some spec →
            (∀ (j : Nat) (later : FieldSpec), i < j → specs[j]? = some later → later.key ≠ spec.key) →
            ∃ value size, reads[i]? = some (value, size) ∧ fields.get? spec.key = some value) ∧
          ∀ data' : List UInt8, offset + taken reads ≤ data'.length →
            (data'.drop offset).take (taken reads) = (data.drop offset).take (taken reads) →
            read table key data' offset base = .ok (fields, taken reads)
      | .error fault => read table key data offset base = .error (fault.moved base)) ∧
    ∀ data' : List UInt8, offset ≤ data'.length → data'.drop offset = data.drop offset →
      read table key data' offset base = read table key data offset base := by
  constructor
  · cases hturn : readInTurn data specs offset with
    | error fault => exact read_of_fault base hspecs hoffset hturn
    | ok reads =>
        obtain ⟨hbound, hread⟩ := read_of_readInTurn base hspecs hoffset hturn
        have hlength := length_of_readInTurn hturn
        refine ⟨_, hread, hbound, ?_, fun i spec => get?_of_last hlength, ?_⟩
        · exact Fields.keys_fieldEntries (by rw [List.length_map, hlength])
        · intro data' hbound' htake
          obtain ⟨specs', values, hget, hholds, hmap, hsize, hwires⟩ :=
            (read_eq_ok_iff hoffset).mp hread
          exact (read_eq_ok_iff (by omega)).mpr
            ⟨specs', values, hget, hholds, hmap, hsize, htake.trans hwires⟩
  · intro data' hoffset' hdrop
    -- Nothing before the offset is looked at, so equal remainders make equal cursors.
    have hcursor : Cursor.of data' offset base = .of data offset base := by
      rw [Cursor.of, Cursor.of, hdrop]
    rw [read_eq hoffset', read_eq hoffset, hcursor]

/-- Three fields, of which the first and the last have one key. -/
def countedFields : List FieldSpec :=
  [⟨.integer .uint16, "itemCount"⟩, ⟨.string, "name"⟩, ⟨.integer .uint16, "item_count"⟩]

def countedTable : Schema.Table :=
  { typeNames := [], schemas := [(⟨1, 1⟩, countedFields)], nodup_keys := by decide }

/-- One byte before these fields, their bytes, and one byte behind them. -/
def countedData : List UInt8 := [9, 1, 0, 1, 0, 0, 0, 97, 2, 0, 7]

theorem read_eq_readInTurn_counted :
    countedTable.get? ⟨1, 1⟩ = some countedFields ∧ 1 ≤ countedData.length ∧
      readInTurn countedData countedFields 1 =
        .ok [(.uint16 1, 2), (.string "a", 5), (.uint16 2, 2)] ∧
      ∃ fields, read countedTable ⟨1, 1⟩ countedData 1 100 = .ok (fields, 9) ∧
        fields.keys = ["item_count", "name"] ∧
        fields.get? "item_count" = some (.uint16 2) := by
  have hspecs : countedTable.get? ⟨1, 1⟩ = some countedFields := rfl
  have hoffset : 1 ≤ countedData.length := by decide
  have hturn : readInTurn countedData countedFields 1 =
      .ok [(.uint16 1, 2), (.string "a", 5), (.uint16 2, 2)] := rfl
  have h := (read_eq_readInTurn 100 hspecs hoffset).1
  rw [hturn] at h
  obtain ⟨fields, hread, -, hkeys, hvalues, -⟩ := h
  have hkey : FieldSpec.key ⟨.integer .uint16, "item_count"⟩ = "item_count" := by decide
  obtain ⟨value, size, hvalue, hget⟩ := hvalues 2 ⟨.integer .uint16, "item_count"⟩ rfl
    fun j later hj hlater => by
      rw [List.getElem?_eq_none (show countedFields.length ≤ j from hj)] at hlater
      cases hlater
  cases hvalue
  exact ⟨hspecs, hoffset, hturn, fields, hread, hkeys.trans (by decide), hkey ▸ hget⟩

end Payload

end EventLog
