import EventLog.Event.Filter
import Mathlib.Data.List.Sort

set_option autoImplicit false

/-! # Filters as sets

A filter keeps its types in strictly increasing order and looks them up by halving. Which types it
selects depends on nothing but the set that it was made of: those in the set, and all types if the
set is empty (`Filter.matchesType_ofList`). The filter itself depends on nothing else either
(`Filter.ofList_eq_ofList_iff`).
-/

namespace EventLog

/-! ## Removing repetitions -/

theorem mem_dropRepeated {code : UInt32} {codes : List UInt32} :
    code ∈ dropRepeated codes ↔ code ∈ codes := by
  fun_induction dropRepeated codes with
  | case1 b rest ih =>
      rw [ih]
      simp only [List.mem_cons, or_self_left]
  | case2 a b rest hne ih =>
      rw [List.mem_cons, ih, ← List.mem_cons]
  | case3 codes hshort => exact Iff.rfl

/-- Without repetitions, an increasing list is strictly increasing. -/
theorem pairwise_dropRepeated {codes : List UInt32} (h : codes.Pairwise (· ≤ ·)) :
    (dropRepeated codes).Pairwise (· < ·) := by
  fun_induction dropRepeated codes with
  | case1 b rest ih => exact ih h.of_cons
  | case2 a b rest hne ih =>
      refine List.pairwise_cons.mpr ⟨fun code hcode => ?_, ih h.of_cons⟩
      rw [mem_dropRepeated] at hcode
      -- The element after `a` is greater, and what follows it is not smaller than it is.
      have hab : a < b :=
        UInt32.lt_of_le_of_ne (List.rel_of_pairwise_cons h List.mem_cons_self) hne
      rcases List.mem_cons.mp hcode with rfl | hrest
      · exact hab
      · exact UInt32.lt_of_lt_of_le hab (List.rel_of_pairwise_cons h.of_cons hrest)
  | case3 codes hshort =>
      match codes, hshort with
      | [], _ => exact List.Pairwise.nil
      | [a], _ => exact List.pairwise_singleton _ a
      | a :: b :: rest, hshort => exact (hshort a b rest rfl).elim

namespace Filter

/-! ## Looking up a type -/

theorem lt_of_getElem? {codes : Array UInt32} (hsorted : codes.toList.Pairwise (· < ·)) {i j : Nat}
    {a b : UInt32} (hij : i < j) (ha : codes[i]? = some a) (hb : codes[j]? = some b) : a < b := by
  obtain ⟨hi, rfl⟩ := Array.getElem?_eq_some_iff.mp ha
  obtain ⟨hj, rfl⟩ := Array.getElem?_eq_some_iff.mp hb
  exact List.pairwise_iff_getElem.mp hsorted i j hi hj hij

/-- A search by halves finds a code exactly when it stands in the part that is searched. -/
theorem search_eq_true_iff {codes : Array UInt32} (hsorted : codes.toList.Pairwise (· < ·))
    {code : UInt32} {low high : Nat} (h : high ≤ codes.size) :
    search codes code low high h = true ↔ ∃ i, low ≤ i ∧ i < high ∧ codes[i]? = some code := by
  fun_induction search codes code low high h with
  | case1 low high h hlow middle hmiddle found hfound =>
      have hat : codes[middle]? = some code := by
        rw [← hfound]
        exact Array.getElem?_eq_getElem _
      exact iff_of_true rfl ⟨middle, by omega, hmiddle, hat⟩
  | case2 low high h hlow middle hmiddle found hne hless ih =>
      have hat : codes[middle]? = some found := Array.getElem?_eq_getElem _
      refine Iff.trans ih ?_
      constructor
      · rintro ⟨i, hi, hrest⟩
        exact ⟨i, by omega, hrest⟩
      · rintro ⟨i, hi, hhigh, hcode⟩
        refine ⟨i, ?_, hhigh, hcode⟩
        -- The code stands behind the middle, where everything is greater than what was found.
        by_cases hbehind : middle < i
        · exact hbehind
        · rcases Nat.lt_or_eq_of_le (Nat.le_of_not_lt hbehind) with hbefore | rfl
          · have hcode' := lt_of_getElem? hsorted hbefore hcode hat
            exact absurd (UInt32.lt_trans hless hcode') (UInt32.lt_irrefl _)
          · rw [hat] at hcode
            exact absurd (Option.some.inj hcode) hne
  | case3 low high h hlow middle hmiddle found hne hnless ih =>
      have hat : codes[middle]? = some found := Array.getElem?_eq_getElem _
      refine Iff.trans ih ?_
      constructor
      · rintro ⟨i, hi, hbefore, hcode⟩
        exact ⟨i, hi, by omega, hcode⟩
      · rintro ⟨i, hi, hhigh, hcode⟩
        refine ⟨i, hi, ?_, hcode⟩
        by_cases hbefore : i < middle
        · exact hbefore
        · rcases Nat.lt_or_eq_of_le (Nat.le_of_not_lt hbefore) with hbehind | rfl
          · exact absurd (lt_of_getElem? hsorted hbehind hat hcode) hnless
          · rw [hat] at hcode
            exact absurd (Option.some.inj hcode) hne
  | case4 low high h hnone =>
      refine iff_of_false Bool.false_ne_true ?_
      rintro ⟨i, hi, hhigh, -⟩
      omega

theorem mem_codes_ofList {codes : List UInt32} {code : UInt32} :
    code ∈ (ofList codes).codes ↔ code ∈ codes := by
  rw [ofList, List.mem_toArray, mem_dropRepeated, List.mem_mergeSort]

/-- The types of a filter are in strictly increasing order. -/
theorem pairwise_codes_ofList (codes : List UInt32) :
    (ofList codes).codes.toList.Pairwise (· < ·) := by
  refine pairwise_dropRepeated ?_
  have hsorted : (codes.mergeSort fun a b => decide (a ≤ b)).Pairwise
      fun a b => decide (a ≤ b) = true := List.pairwise_mergeSort
    (fun a b c hab hbc => by
      rw [decide_eq_true_eq] at hab hbc ⊢
      exact UInt32.le_trans hab hbc)
    (fun a b => by
      rw [Bool.or_eq_true, decide_eq_true_eq, decide_eq_true_eq]
      exact UInt32.le_total a b) codes
  exact hsorted.imp of_decide_eq_true

theorem isEmpty_ofList {codes : List UInt32} : (ofList codes).isEmpty = true ↔ codes = [] := by
  rw [isEmpty, Array.isEmpty_iff, List.eq_nil_iff_forall_not_mem, Array.eq_empty_iff_forall_not_mem]
  exact forall_congr' fun code => not_congr mem_codes_ofList

/-- **A filter selects the types that it was made of**, and all types if it was made of none. -/
theorem matchesType_ofList {codes : List UInt32} {code : UInt32} :
    (ofList codes).matchesType code = true ↔ codes = [] ∨ code ∈ codes := by
  rw [matchesType, Bool.or_eq_true, isEmpty_ofList, search_eq_true_iff (pairwise_codes_ofList codes),
    ← mem_codes_ofList, Array.mem_iff_getElem?]
  refine or_congr_right ⟨?_, ?_⟩
  · rintro ⟨i, -, -, hcode⟩
    exact ⟨i, hcode⟩
  · rintro ⟨i, hcode⟩
    obtain ⟨hi, -⟩ := Array.getElem?_eq_some_iff.mp hcode
    exact ⟨i, Nat.zero_le i, hi, hcode⟩

theorem matchesType_all (code : UInt32) : all.matchesType code = true := rfl

/-! ## Equal filters -/

/-- Strictly increasing lists of the same codes are equal. -/
theorem codes_ext {codes others : List UInt32} (h : codes.Pairwise (· < ·))
    (h' : others.Pairwise (· < ·)) (hmem : ∀ code, code ∈ codes ↔ code ∈ others) :
    codes = others := by
  have : Std.Irrefl fun a b : UInt32 => a < b := ⟨UInt32.lt_irrefl⟩
  have : Std.Antisymm fun a b : UInt32 => a < b :=
    ⟨fun a b hab hba => absurd hba (UInt32.lt_asymm hab)⟩
  exact h.eq_of_mem_iff h' hmem

theorem ofList_eq_ofList_iff {codes others : List UInt32} :
    ofList codes = ofList others ↔ ∀ code, code ∈ codes ↔ code ∈ others := by
  constructor
  · intro h code
    rw [← mem_codes_ofList, h, mem_codes_ofList]
  · intro hmem
    have hlist : (ofList codes).codes.toList = (ofList others).codes.toList := by
      refine codes_ext (pairwise_codes_ofList codes) (pairwise_codes_ofList others) fun code => ?_
      rw [Array.mem_toList_iff, Array.mem_toList_iff, mem_codes_ofList, mem_codes_ofList]
      exact hmem code
    exact congrArg mk (Array.toList_inj.mp hlist)

/-- **A filter is the set of its types.** It selects a type if it was made of none or of this one
among others, it keeps its types in strictly increasing order, and filters are equal exactly if
they were made of the same types. -/
theorem ofList_tells_types (codes : List UInt32) :
    (∀ code, (ofList codes).matchesType code = true ↔ codes = [] ∨ code ∈ codes) ∧
    (ofList codes).codes.toList.Pairwise (· < ·) ∧
    (∀ code, code ∈ (ofList codes).codes ↔ code ∈ codes) ∧
    ∀ others, ofList codes = ofList others ↔ ∀ code, code ∈ codes ↔ code ∈ others :=
  ⟨fun _ => matchesType_ofList, pairwise_codes_ofList codes, fun _ => mem_codes_ofList,
    fun _ => ofList_eq_ofList_iff⟩

end Filter

end EventLog
