import EventLog.Archive.Entry
import EventLog.Proofs.Text.Digits
import EventLog.Proofs.Workspace.Path

set_option autoImplicit false

/-! # Names and contents of entries

The name of an entry is a path of two names (`Entry.components_name`), which are never too long, as
the events are counted in 64 bits. Entries of different numbers have different names
(`Entry.baseName_inj`).
-/

namespace EventLog.Entry

theorem content_eq (e : Event) : content e = e.documentBytes true := rfl

theorem documentBytes_eq (e : Event) :
    e.documentBytes true = Utf8.encode (Json.indentedChars 0 e.toJson) := by
  rw [Event.documentBytes, Event.document, Json.text, if_pos rfl, Json.indented, Utf8.ofString,
    String.toList_ofList]

theorem toList_name (index : Nat) (eventType : UInt32) :
    (name index eventType).toList =
      (decimal 4 (index / perDirectory)).toList ++ ['/'] ++
        ((decimal 8 index).toList ++ ['.', 'e'] ++ (decimal 1 eventType.toNat).toList) := by
  simp only [name, directory, baseName, String.toList_append]
  rfl

theorem plain_of_mem_name {index : Nat} {eventType : UInt32} {c : Char}
    (h : c ∈ (name index eventType).toList) : Plain c := by
  rw [toList_name] at h
  simp only [List.mem_append] at h
  rcases h with (hdirectory | hslash) | ((hindex | hmark) | htype)
  · exact plain_of_mem_decimal hdirectory
  · rw [List.mem_singleton.mp hslash]
    decide
  · exact plain_of_mem_decimal hindex
  · rcases List.mem_cons.mp hmark with rfl | hletter
    · decide
    · rw [List.mem_singleton.mp hletter]
      decide
  · exact plain_of_mem_decimal htype

theorem ofString_name (index : Nat) (eventType : UInt32) :
    Utf8.ofString (name index eventType) =
      (name index eventType).toList.map fun c => UInt8.ofNat c.toNat :=
  Utf8.encode_of_plain fun _ => plain_of_mem_name

theorem name_ne_zero {index : Nat} {eventType : UInt32} :
    ∀ b ∈ Utf8.ofString (name index eventType), b ≠ 0 := by
  intro b hb
  rw [ofString_name] at hb
  obtain ⟨c, hc, rfl⟩ := List.mem_map.mp hb
  obtain ⟨hpos, hlt⟩ := plain_of_mem_name hc
  intro hzero
  have hbyte := congrArg UInt8.toNat hzero
  rw [UInt8.toNat_ofNat_of_lt' (by simp only [UInt8.size]; omega)] at hbyte
  exact absurd hbyte (Nat.ne_of_gt hpos)

/-- The name of an entry has fewer bytes than the field for it. -/
theorem length_name_lt {index : Nat} (eventType : UInt32) (h : index < UInt64.size) :
    (Utf8.ofString (name index eventType)).length < 100 := by
  have hindex : index < Nat.pow 10 20 := Nat.lt_of_lt_of_le h (by decide)
  have hgroup : index / perDirectory < Nat.pow 10 20 := Nat.lt_of_le_of_lt (Nat.div_le_self _ _) hindex
  have htype : eventType.toNat < Nat.pow 10 10 := Nat.lt_of_lt_of_le eventType.toNat_lt (by decide)
  have hdirectory : (decimal 4 (index / perDirectory)).toList.length ≤ 20 :=
    length_decimal_le (by decide) (by decide) hgroup
  have hnumber : (decimal 8 index).toList.length ≤ 20 :=
    length_decimal_le (by decide) (by decide) hindex
  have hsuffix : (decimal 1 eventType.toNat).toList.length ≤ 10 :=
    length_decimal_le (by decide) (by decide) htype
  rw [ofString_name, List.length_map, toList_name]
  simp only [List.length_append, List.length_cons, List.length_nil]
  omega

/-! ## Names as paths -/

theorem toList_baseName (index : Nat) (eventType : UInt32) :
    (baseName index eventType).toList =
      (decimal 8 index).toList ++ '.' :: 'e' :: (decimal 1 eventType.toNat).toList := by
  rw [baseName, String.toList_append, String.toList_append, List.append_assoc]
  rfl

theorem not_slash_mem_baseName (index : Nat) (eventType : UInt32) :
    '/' ∉ (baseName index eventType).toList := by
  rw [toList_baseName, List.mem_append, List.mem_cons, List.mem_cons]
  rintro (hindex | hdot | hletter | htype)
  · exact not_mem_decimal (by decide) _ _ hindex
  · cases hdot
  · cases hletter
  · exact not_mem_decimal (by decide) _ _ htype

/-- A text of three characters at least is neither empty nor dots. -/
theorem isName_of_length {s : String} (hlength : 3 ≤ s.toList.length) (hslash : '/' ∉ s.toList)
    (hsize : s.utf8ByteSize ≤ 255) : Path.IsName s := by
  refine ⟨?_, hslash, ?_, ?_, hsize⟩
  · rintro rfl
    exact absurd hlength (by decide)
  · rintro rfl
    exact absurd hlength (by decide)
  · rintro rfl
    exact absurd hlength (by decide)

theorem size_name_lt {index : Nat} (h : index < UInt64.size) (eventType : UInt32) :
    (name index eventType).utf8ByteSize < 100 := by
  rw [← Utf8.length_ofString]
  exact length_name_lt eventType h

theorem size_name (index : Nat) (eventType : UInt32) :
    (name index eventType).utf8ByteSize =
      (directory index).utf8ByteSize + 1 + (baseName index eventType).utf8ByteSize := by
  rw [name, String.utf8ByteSize_append, String.utf8ByteSize_append]
  rfl

section Path

variable {index : Nat} (h : index < UInt64.size) (eventType : UInt32)
include h

theorem isName_directory : Path.IsName (directory index) := by
  have hsize := size_name_lt h 0
  rw [size_name] at hsize
  exact isName_of_length (Nat.le_trans (by decide) (le_length_decimal 4 _))
    (not_mem_decimal (by decide) _ _) (by omega)

theorem isName_baseName : Path.IsName (baseName index eventType) := by
  have hsize := size_name_lt h eventType
  have hlength := le_length_decimal 8 index
  rw [size_name] at hsize
  refine isName_of_length ?_ (not_slash_mem_baseName index eventType) (by omega)
  rw [toList_baseName, List.length_append]
  omega

/-- **The name of an entry is a path of two names.** -/
theorem components_name :
    Path.components (name index eventType) = [directory index, baseName index eventType] := by
  rw [name, Path.components_slash, (isName_directory h).components_eq,
    (isName_baseName h eventType).components_eq]
  rfl

theorem isRooted_name : Path.isRooted (name index eventType) = false := by
  have hdirectory := isName_directory h
  rw [name, String.append_assoc, Path.isRooted_append hdirectory.ne_empty]
  exact hdirectory.isRooted_eq

theorem namesDirectory_name : Path.namesDirectory (name index eventType) = false := by
  have hbase := isName_baseName h eventType
  rw [name, Path.namesDirectory_append _ hbase.ne_empty]
  exact hbase.namesDirectory_eq

theorem name_ne_empty : name index eventType ≠ "" := by
  intro hempty
  have hcomponents := components_name h eventType
  rw [hempty] at hcomponents
  cases hcomponents

end Path

/-- **Entries of different numbers have different names**, also when they stand in one directory. -/
theorem baseName_inj {index index' : Nat} {eventType eventType' : UInt32}
    (hname : baseName index eventType = baseName index' eventType') : index = index' := by
  -- The number stands before the first dot.
  have hdigits (index : Nat) (eventType : UInt32) :
      (baseName index eventType).toList.takeWhile (· ≠ '.') = paddedDigits 10 8 index := by
    rw [toList_baseName, List.takeWhile_append_of_pos, List.takeWhile_cons_of_neg (by decide),
      List.append_nil, decimal, String.toList_ofList]
    intro c hc
    refine decide_eq_true ?_
    rintro rfl
    exact not_mem_decimal (by decide) _ _ hc
  have heq : paddedDigits 10 8 index = paddedDigits 10 8 index' := by
    rw [← hdigits index eventType, hname, hdigits]
  exact paddedDigits_inj (by decide) (by decide) heq

theorem name_inj {index index' : Nat} {eventType eventType' : UInt32} (h : index < UInt64.size)
    (h' : index' < UInt64.size) (hname : name index eventType = name index' eventType') :
    index = index' := by
  have hcomponents := components_name h eventType
  rw [hname, components_name h' eventType'] at hcomponents
  exact baseName_inj (List.cons.inj (List.cons.inj hcomponents).2).1.symm

end EventLog.Entry
