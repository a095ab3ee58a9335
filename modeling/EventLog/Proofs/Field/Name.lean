import EventLog.Field.Name
import Mathlib

set_option autoImplicit false

/-! # Names and their keys

The key of a name is the name with its ASCII capitals marked (`Marks`), less the underscores at both
ends (`exists_marks_normalize`). So a key has no capitals and no underscores at its ends
(`isKey_normalize`), a name of this form is its own key (`normalize_of_isKey`), and a name differs
from its key in case and underscores only (`normalize_projects`).
-/

namespace EventLog.FieldName

/-! ## Marked capitals -/

/-- A name and the text in which an underscore stands before each of its ASCII capitals and the
capital is in lower case. -/
inductive Marks : List Char → List Char → Prop
  | nil : Marks [] []
  | capital {c : Char} {name marked : List Char} (h : c.isUpper = true) (rest : Marks name marked) :
      Marks (c :: name) ('_' :: c.toLower :: marked)
  | other {c : Char} {name marked : List Char} (h : c.isUpper = false) (rest : Marks name marked) :
      Marks (c :: name) (c :: marked)

def withoutUnderscores (cs : List Char) : List Char := cs.filter (· ≠ '_')

theorem withoutUnderscores_underscore (cs : List Char) :
    withoutUnderscores ('_' :: cs) = withoutUnderscores cs :=
  List.filter_cons_of_neg (by decide)

theorem withoutUnderscores_cons {c : Char} (h : c ≠ '_') (cs : List Char) :
    withoutUnderscores (c :: cs) = c :: withoutUnderscores cs :=
  List.filter_cons_of_pos (decide_eq_true h)

theorem withoutUnderscores_append (as bs : List Char) :
    withoutUnderscores (as ++ bs) = withoutUnderscores as ++ withoutUnderscores bs :=
  List.filter_append ..

theorem withoutUnderscores_replicate (n : Nat) :
    withoutUnderscores (List.replicate n '_') = [] :=
  List.filter_replicate_of_neg (by decide)

theorem toLower_ne_underscore {c : Char} (h : c.isUpper = true) : c.toLower ≠ '_' := by
  have hlower : c.toLower.isLower = true := by
    rw [Char.isLower_toLower_eq_isAlpha, Char.isAlpha, h, Bool.true_or]
  intro hunderscore
  rw [hunderscore] at hlower
  exact absurd hlower (by decide)

theorem marks_flatMap_separate (name : List Char) : Marks name (name.flatMap separate) := by
  induction name with
  | nil => exact .nil
  | cons c name ih =>
      rw [List.flatMap_cons, separate]
      split
      · next h => exact .capital h ih
      · next h => exact .other (Bool.eq_false_of_not_eq_true h) ih

namespace Marks

theorem no_capital {name marked : List Char} (h : Marks name marked) :
    ∀ c ∈ marked, c.isUpper = false := by
  induction h with
  | nil => exact List.forall_mem_nil _
  | capital h rest ih =>
      refine List.forall_mem_cons.mpr ⟨by decide, List.forall_mem_cons.mpr ⟨?_, ih⟩⟩
      exact Char.isUpper_toLower_eq_false _
  | other h rest ih => exact List.forall_mem_cons.mpr ⟨h, ih⟩

theorem eq_self {name marked : List Char} (h : Marks name marked)
    (hname : ∀ c ∈ name, c.isUpper = false) : marked = name := by
  induction h with
  | nil => rfl
  | capital h rest ih => exact absurd h (by rw [hname _ List.mem_cons_self]; decide)
  | other h rest ih => rw [ih fun c hc => hname c (List.mem_cons_of_mem _ hc)]

/-- Marking adds underscores and changes the case of ASCII capitals. -/
theorem withoutUnderscores_eq {name marked : List Char} (h : Marks name marked) :
    withoutUnderscores marked = (withoutUnderscores name).map Char.toLower := by
  induction h with
  | nil => rfl
  | @capital c name marked h rest ih =>
      -- A capital is no underscore, before and after.
      have hc : c ≠ '_' := by
        rintro rfl
        exact absurd h (by decide)
      rw [withoutUnderscores_underscore, withoutUnderscores_cons (toLower_ne_underscore h),
        withoutUnderscores_cons hc, List.map_cons, ih]
  | @other c name marked h rest ih =>
      by_cases hc : c = '_'
      · subst hc
        rw [withoutUnderscores_underscore, withoutUnderscores_underscore, ih]
      · rw [withoutUnderscores_cons hc, withoutUnderscores_cons hc, List.map_cons,
          Char.toLower_eq_of_not_isUpper (Bool.eq_false_iff.mp h), ih]

end Marks

/-! ## Trimming -/

theorem exists_dropWhile_eq (cs : List Char) :
    ∃ n : Nat, cs = List.replicate n '_' ++ cs.dropWhile (· == '_') := by
  have hfront : ∀ c ∈ cs.takeWhile (· == '_'), c = '_' := by
    intro c hc
    simpa using List.mem_takeWhile_imp hc
  refine ⟨(cs.takeWhile (· == '_')).length, ?_⟩
  rw [← List.eq_replicate_of_mem hfront, List.takeWhile_append_dropWhile]

theorem exists_dropWhile_eq_trim (cs : List Char) :
    ∃ behind : Nat, cs.dropWhile (· == '_') = trim cs ++ List.replicate behind '_' := by
  obtain ⟨behind, hbehind⟩ := exists_dropWhile_eq (cs.dropWhile (· == '_')).reverse
  refine ⟨behind, ?_⟩
  rw [← List.reverse_inj, List.reverse_append, List.reverse_replicate, trim, List.reverse_reverse]
  exact hbehind

/-- Trimming takes away underscores at both ends and nothing else. -/
theorem exists_trim_eq (cs : List Char) : ∃ before behind : Nat,
    cs = List.replicate before '_' ++ trim cs ++ List.replicate behind '_' := by
  obtain ⟨before, hbefore⟩ := exists_dropWhile_eq cs
  obtain ⟨behind, hbehind⟩ := exists_dropWhile_eq_trim cs
  refine ⟨before, behind, ?_⟩
  calc cs = List.replicate before '_' ++ cs.dropWhile (· == '_') := hbefore
    _ = List.replicate before '_' ++ (trim cs ++ List.replicate behind '_') := by rw [hbehind]
    _ = List.replicate before '_' ++ trim cs ++ List.replicate behind '_' :=
        (List.append_assoc ..).symm

theorem head?_dropWhile_ne (cs : List Char) : (cs.dropWhile (· == '_')).head? ≠ some '_' := by
  intro h
  have hstop := List.head?_dropWhile_not (· == '_') cs
  rw [h] at hstop
  exact absurd hstop (by decide)

theorem head?_trim_ne (cs : List Char) : (trim cs).head? ≠ some '_' := by
  intro h
  -- The end does not change how the text begins.
  obtain ⟨behind, hbehind⟩ := exists_dropWhile_eq_trim cs
  apply head?_dropWhile_ne cs
  rw [hbehind, List.head?_append, h, Option.some_or]

theorem getLast?_trim_ne (cs : List Char) : (trim cs).getLast? ≠ some '_' := by
  rw [trim, List.getLast?_reverse]
  exact head?_dropWhile_ne _

theorem trim_eq_self {cs : List Char} (hhead : cs.head? ≠ some '_')
    (hlast : cs.getLast? ≠ some '_') : trim cs = cs := by
  have hreverse : cs.reverse.head? ≠ some '_' := by rwa [List.head?_reverse]
  rw [trim, List.dropWhile_beq_eq_self_of_head?_ne hhead,
    List.dropWhile_beq_eq_self_of_head?_ne hreverse, List.reverse_reverse]

/-! ## Keys -/

/-- A text without ASCII capitals that neither begins nor ends with an underscore. -/
structure IsKey (text : String) : Prop where
  no_capital : ∀ c ∈ text.toList, c.isUpper = false
  head_ne : text.toList.head? ≠ some '_'
  last_ne : text.toList.getLast? ≠ some '_'

theorem toList_normalize (name : String) :
    (normalize name).toList = trim (name.toList.flatMap separate) :=
  String.toList_ofList

/-- A key is the marked name without some underscores at its ends. -/
theorem exists_marks_normalize (name : String) : ∃ before behind : Nat,
    Marks name.toList
      (List.replicate before '_' ++ (normalize name).toList ++ List.replicate behind '_') := by
  obtain ⟨before, behind, hmarked⟩ := exists_trim_eq (name.toList.flatMap separate)
  refine ⟨before, behind, ?_⟩
  rw [toList_normalize, ← hmarked]
  exact marks_flatMap_separate name.toList

theorem isKey_normalize (name : String) : IsKey (normalize name) where
  no_capital := by
    intro c hc
    obtain ⟨before, behind, hmarks⟩ := exists_marks_normalize name
    exact hmarks.no_capital c (List.mem_append_left _ (List.mem_append_right _ hc))
  head_ne := by
    rw [toList_normalize]
    exact head?_trim_ne _
  last_ne := by
    rw [toList_normalize]
    exact getLast?_trim_ne _

theorem normalize_of_isKey {name : String} (h : IsKey name) : normalize name = name := by
  have hmarked : name.toList.flatMap separate = name.toList :=
    (marks_flatMap_separate name.toList).eq_self h.no_capital
  apply String.toList_injective
  calc (normalize name).toList = trim (name.toList.flatMap separate) := toList_normalize name
    _ = trim name.toList := by rw [hmarked]
    _ = name.toList := trim_eq_self h.head_ne h.last_ne

theorem withoutUnderscores_normalize (name : String) :
    withoutUnderscores (normalize name).toList =
      (withoutUnderscores name.toList).map Char.toLower := by
  obtain ⟨before, behind, hmarks⟩ := exists_marks_normalize name
  calc withoutUnderscores (normalize name).toList
      = withoutUnderscores (List.replicate before '_' ++ (normalize name).toList ++
          List.replicate behind '_') := by
        rw [withoutUnderscores_append, withoutUnderscores_append, withoutUnderscores_replicate,
          withoutUnderscores_replicate, List.nil_append, List.append_nil]
    _ = (withoutUnderscores name.toList).map Char.toLower := hmarks.withoutUnderscores_eq

/-- **Names are projected onto keys and lose only case and underscores.** A name is turned into a
key, which is turned into itself, and exactly the keys stay as they are. Without underscores, the
key is the name with its ASCII capitals in lower case and its other characters as they are. The
underscores of the key are those of the marked name, but for some at its ends. -/
theorem normalize_projects (name : String) :
    IsKey (normalize name) ∧
    normalize (normalize name) = normalize name ∧
    (normalize name = name ↔ IsKey name) ∧
    withoutUnderscores (normalize name).toList =
      (withoutUnderscores name.toList).map Char.toLower ∧
    ∃ before behind : Nat, Marks name.toList
      (List.replicate before '_' ++ (normalize name).toList ++ List.replicate behind '_') := by
  have hkey : IsKey (normalize name) := isKey_normalize name
  refine ⟨hkey, normalize_of_isKey hkey, ⟨?_, normalize_of_isKey⟩,
    withoutUnderscores_normalize name, exists_marks_normalize name⟩
  intro hsame
  rwa [hsame] at hkey

example : normalize "_userIDÉ" = "user_i_dÉ" := by decide

end EventLog.FieldName
