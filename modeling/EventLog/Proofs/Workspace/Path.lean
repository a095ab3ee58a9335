import EventLog.Proofs.Text.Utf8
import EventLog.Workspace.Path
import Mathlib.Data.List.Basic

set_option autoImplicit false

/-! # Paths put together

The components of a path below a directory are those of the directory, followed by those of the
rest (`Path.components_join`), wherever slashes stand in the directory's path. It begins where that
path begins, and it is longer by a slash at most. The directory above a path is what stands before
its last slash (`Path.parent?_append`).
-/

namespace EventLog

/-- The size of a text is the number of its bytes. -/
theorem Utf8.length_ofString (s : String) : (ofString s).length = s.utf8ByteSize := by
  rw [String.utf8ByteSize.eq_1, ← String.utf8Encode_toList, List.utf8Encode, List.size_toByteArray]
  rfl

namespace Path

/-! ## Slashes -/

/-- No piece between separators holds one. -/
theorem not_mem_of_mem_splitOn {separator : Char} {cs part : List Char}
    (h : part ∈ cs.splitOn separator) : separator ∉ part := by
  induction cs generalizing part with
  | nil =>
      rw [List.splitOn_nil, List.mem_singleton] at h
      exact h ▸ List.not_mem_nil
  | cons c cs ih =>
      rw [List.splitOn_cons_eq_if_modifyHead] at h
      split at h
      · rcases List.mem_cons.mp h with rfl | hrest
        · exact List.not_mem_nil
        · exact ih hrest
      · next hc =>
          -- The first piece is longer by the character, which is no separator.
          obtain ⟨first, parts, hparts⟩ := List.exists_cons_of_ne_nil (List.splitOn_ne_nil separator cs)
          rw [hparts] at h ih
          rcases List.mem_cons.mp h with rfl | hrest
          · refine List.not_mem_cons_of_ne_of_not_mem ?_ (ih List.mem_cons_self)
            exact fun hsame => hc (beq_iff_eq.mpr hsame.symm)
          · exact ih (List.mem_cons_of_mem _ hrest)

theorem namesDirectory_iff {path : String} :
    namesDirectory path = true ↔ ∃ front, path.toList = front ++ ['/'] := by
  rw [namesDirectory, beq_iff_eq, List.getLast?_eq_some_iff]

/-- A text ends like its second part. -/
theorem namesDirectory_append (front : String) {back : String} (h : back ≠ "") :
    namesDirectory (front ++ back) = namesDirectory back := by
  have hchars : back.toList ≠ [] := fun hnil => h (String.toList_eq_nil_iff.mp hnil)
  rw [namesDirectory, namesDirectory, String.toList_append, List.getLast?_append_of_ne_nil _ hchars]

/-- A text begins like its first part. -/
theorem isRooted_append {front : String} (h : front ≠ "") (back : String) :
    isRooted (front ++ back) = isRooted front := by
  have hchars : front.toList ≠ [] := fun hnil => h (String.toList_eq_nil_iff.mp hnil)
  rw [isRooted, isRooted, String.toList_append, List.head?_append_of_ne_nil _ hchars]

/-! ## Names -/

/-- A text that can be the name of something in a directory. -/
structure IsName (name : String) : Prop where
  ne_empty : name ≠ ""
  no_slash : '/' ∉ name.toList
  ne_dot : name ≠ "."
  ne_dots : name ≠ ".."
  size_le : name.utf8ByteSize ≤ 255

variable {name : String}

theorem IsName.components_eq (h : IsName name) : components name = [name] := by
  rw [components, List.splitOn_eq_singleton h.no_slash, List.map_singleton, String.ofList_toList,
    List.filter_cons_of_pos (by simpa using h.ne_empty), List.filter_nil]

theorem IsName.not_tooLong (h : IsName name) : nameIsTooLong name = false :=
  decide_eq_false (Nat.not_lt_of_le h.size_le)

theorem IsName.namesDirectory_eq (h : IsName name) : namesDirectory name = false := by
  rw [← Bool.not_eq_true, namesDirectory_iff]
  rintro ⟨front, hfront⟩
  exact h.no_slash (hfront ▸ List.mem_append_right front (List.mem_singleton_self '/'))

theorem IsName.isRooted_eq (h : IsName name) : isRooted name = false := by
  rw [isRooted, beq_eq_false_iff_ne]
  exact fun hfirst => h.no_slash (List.mem_of_mem_head? hfirst)

/-- A component of a path is a name, unless it is made of dots or too long. -/
theorem isName_of_mem_components {path : String} (h : name ∈ components path) (hdot : name ≠ ".")
    (hdots : name ≠ "..") (hsize : nameIsTooLong name = false) : IsName name := by
  obtain ⟨hmem, hne⟩ := List.mem_filter.mp h
  obtain ⟨part, hpart, rfl⟩ := List.mem_map.mp hmem
  refine ⟨bne_iff_ne.mp hne, ?_, hdot, hdots, Nat.le_of_not_lt (of_decide_eq_false hsize)⟩
  rw [String.toList_ofList]
  exact not_mem_of_mem_splitOn hpart

/-! ## Joined paths -/

/-- The components of a path with a slash are those on either side. -/
theorem components_slash (front back : String) :
    components (front ++ "/" ++ back) = components front ++ components back := by
  have hchars : (front ++ "/" ++ back).toList = front.toList ++ '/' :: back.toList := by
    rw [String.toList_append, String.toList_append, List.append_assoc]
    rfl
  rw [components, hchars, List.splitOn_append_cons_self, List.map_append, List.filter_append]
  rfl

/-- **The components of a joined path** are those of its two parts. -/
theorem components_join (directory rest : String) :
    components (join directory rest) = components directory ++ components rest := by
  rw [join]
  split
  · next h =>
      rcases h with rfl | hslash
      · rw [String.empty_append]
        rfl
      · -- The slash at the end of the directory is followed by nothing but an empty component.
        obtain ⟨front, hfront⟩ := namesDirectory_iff.mp hslash
        have hdirectory : directory = String.ofList front ++ "/" ++ "" := by
          rw [← String.ofList_toList (s := directory), hfront, String.append_empty,
            String.ofList_append]
        have hpath : directory ++ rest = String.ofList front ++ "/" ++ rest := by
          rw [hdirectory, String.append_empty]
        have hempty : components "" = [] := rfl
        rw [hpath, components_slash, hdirectory, components_slash, hempty, List.append_nil]
  · rw [components_slash]

/-- Between its two parts, a joined path has a slash at most, and none in front. -/
theorem exists_join_eq (directory rest : String) :
    ∃ between, join directory rest = directory ++ (between ++ rest) ∧ between.utf8ByteSize ≤ 1 ∧
      (directory = "" → between = "") := by
  rw [join]
  split
  · exact ⟨"", by rw [String.empty_append], Nat.zero_le 1, fun _ => rfl⟩
  · next h =>
      exact ⟨"/", String.append_assoc, Nat.le_refl 1, fun hempty => absurd (.inl hempty) h⟩

theorem utf8ByteSize_join_le (directory rest : String) :
    (join directory rest).utf8ByteSize ≤ directory.utf8ByteSize + 1 + rest.utf8ByteSize := by
  obtain ⟨between, hjoin, hsize, -⟩ := exists_join_eq directory rest
  rw [hjoin, String.utf8ByteSize_append, String.utf8ByteSize_append]
  omega

/-- A joined path begins where the path of the directory does. -/
theorem isRooted_join (directory : String) {rest : String} (h : isRooted rest = false) :
    isRooted (join directory rest) = isRooted directory := by
  obtain ⟨between, hjoin, -, hempty⟩ := exists_join_eq directory rest
  rw [hjoin]
  by_cases hdirectory : directory = ""
  · rw [hempty hdirectory, hdirectory, String.empty_append, String.empty_append, h]
    rfl
  · exact isRooted_append hdirectory _

/-- A joined path ends like its second part. -/
theorem namesDirectory_join (directory : String) {rest : String} (h : rest ≠ "") :
    namesDirectory (join directory rest) = namesDirectory rest := by
  obtain ⟨between, hjoin, -⟩ := exists_join_eq directory rest
  rw [hjoin, ← String.append_assoc]
  exact namesDirectory_append _ h

theorem join_ne_empty (directory : String) {rest : String} (h : rest ≠ "") :
    join directory rest ≠ "" := by
  obtain ⟨between, hjoin, -⟩ := exists_join_eq directory rest
  rw [hjoin]
  intro hempty
  rw [String.append_eq_empty_iff, String.append_eq_empty_iff] at hempty
  exact h hempty.2.2

/-! ## The directory above -/

/-- The text ends with a character that is neither a slash nor a dot. -/
def EndsPlainly (text : List Char) : Prop :=
  ∃ front c, text = front ++ [c] ∧ c ≠ '/' ∧ c ≠ '.'

theorem EndsPlainly.append {text : List Char} (h : EndsPlainly text) (before : List Char) :
    EndsPlainly (before ++ text) := by
  obtain ⟨front, c, rfl, hc⟩ := h
  exact ⟨before ++ front, c, (List.append_assoc _ _ _).symm, hc⟩

/-- There is nothing to trim at its end. -/
theorem EndsPlainly.trimEnd_eq {text : List Char} (h : EndsPlainly text) :
    trimEnd text.reverse = text.reverse := by
  obtain ⟨front, c, rfl, hslash, hdot⟩ := h
  rw [List.reverse_append, List.reverse_singleton, List.singleton_append]
  unfold trimEnd
  split
  · next heq => exact absurd (List.cons.inj heq).1 hslash
  · next heq => exact absurd (List.cons.inj heq).1 hdot
  · rfl

theorem EndsPlainly.isEmpty_reverse {text : List Char} (h : EndsPlainly text) :
    text.reverse.isEmpty = false := by
  obtain ⟨front, c, rfl, -⟩ := h
  rw [List.reverse_append]
  rfl

/-- **The directory above** is what stands before the last slash. -/
theorem parent?_append {directory base : String} (hdirectory : EndsPlainly directory.toList)
    (hbase : EndsPlainly base.toList) (hslash : '/' ∉ base.toList) :
    parent? (directory ++ "/" ++ base) = some directory := by
  have hpath : EndsPlainly (directory ++ "/" ++ base).toList := by
    rw [String.toList_append]
    exact hbase.append _
  have hreverse : (directory ++ "/" ++ base).toList.reverse =
      base.toList.reverse ++ '/' :: directory.toList.reverse := by
    rw [String.toList_append, String.toList_append, List.reverse_append, List.reverse_append]
    rfl
  -- The base holds no slash, so the last slash is the one between the two.
  have hdrop : (directory ++ "/" ++ base).toList.reverse.dropWhile (· != '/') =
      '/' :: directory.toList.reverse := by
    rw [hreverse, List.dropWhile_append_of_pos]
    · rfl
    · intro c hc
      rw [bne_iff_ne]
      rintro rfl
      exact hslash (List.mem_reverse.mp hc)
  have habove : trimEnd ('/' :: directory.toList.reverse) = directory.toList.reverse := by
    rw [trimEnd, hdirectory.trimEnd_eq]
  unfold parent?
  simp only [hpath.trimEnd_eq, hdrop, habove, hpath.isEmpty_reverse, hdirectory.isEmpty_reverse,
    Bool.false_eq_true, false_and, if_false, List.reverse_reverse, String.ofList_toList]

end Path

end EventLog
