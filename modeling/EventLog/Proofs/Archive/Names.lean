import EventLog.Archive.Tree
import EventLog.Archive.Writer
import EventLog.Proofs.Archive.Entry
import EventLog.Proofs.Text.Order
import EventLog.Proofs.Workspace.Steps
import Mathlib.Data.List.Basic

set_option autoImplicit false

/-! # The names of entries

The name of an entry tells its number and the type of its event (`Entry.name_eq_iff`), its directory
tells the number without the last four digits, and up to a hundred million entries the names stand
in the order of the numbers (`Entry.name_lt`). As both kinds of writers number their entries
(`Entry.Numbered`), no two entries that were written have one name, whatever else failed between
them (`Entry.name_identifies`).
-/

namespace EventLog

/-! ## What a name tells -/

namespace Entry

section

variable {i j : Nat} {t u : UInt32}

theorem directory_eq_iff : directory i = directory j ↔ i / perDirectory = j / perDirectory := by
  constructor
  · intro h
    exact decimal_inj h
  · intro h
    rw [directory, h, directory]

theorem baseName_eq_iff : baseName i t = baseName j u ↔ i = j ∧ t = u := by
  constructor
  · intro h
    have hindex : i = j := baseName_inj h
    subst hindex
    have hchars := congrArg String.toList h
    rw [toList_baseName, toList_baseName] at hchars
    have htail := List.append_cancel_left hchars
    simp only [List.cons.injEq, true_and] at htail
    exact ⟨rfl, UInt32.toNat_inj.mp (decimal_inj (String.toList_inj.mp htail))⟩
  · rintro ⟨rfl, rfl⟩
    rfl

/-- The characters of a name, cut at its slash. -/
theorem toList_name_eq (i : Nat) (t : UInt32) :
    (name i t).toList = (directory i).toList ++ '/' :: (baseName i t).toList := by
  rw [name, String.toList_append, String.toList_append, List.append_assoc]
  rfl

theorem not_slash_mem_directory (i : Nat) : '/' ∉ (directory i).toList :=
  not_mem_decimal (by decide) _ _

/-- **A name tells the number and the type of its entry.** -/
theorem name_eq_iff : name i t = name j u ↔ i = j ∧ t = u := by
  constructor
  · intro h
    -- Neither of the two components has a slash, so the one between them is found.
    have hchars := congrArg String.toList h
    rw [toList_name_eq, toList_name_eq, List.append_cons_inj_of_notMem (not_slash_mem_directory i)
      (not_slash_mem_baseName i t)] at hchars
    exact baseName_eq_iff.mp (String.toList_inj.mp hchars.2.2)
  · rintro ⟨rfl, rfl⟩
    rfl

/-- Names with smaller numbers come first, as long as no number needs more digits than the zeros in
front make up for. -/
theorem name_lt (h : i < j) (hj : j < Nat.pow 10 8) :
    Utf8.ofString (name i t) < Utf8.ofString (name j u) := by
  have hi : i < Nat.pow 10 8 := Nat.lt_trans h hj
  -- Below 10⁸ the directory's number has four digits, so texts of one width are compared.
  have hgroup (k : Nat) (hk : k < Nat.pow 10 8) : k / perDirectory < Nat.pow 10 4 := by
    have hpow : Nat.pow 10 8 = 10000 * Nat.pow 10 4 := by decide
    rw [hpow] at hk
    exact Nat.div_lt_of_lt_mul hk
  refine Utf8.ofString_lt_ofString (fun _ => plain_of_mem_name) (fun _ => plain_of_mem_name) ?_
  rw [toList_name_eq, toList_name_eq, directory, directory]
  refine decimal_append_lt '/' (by decide) (hgroup i hi) (hgroup j hj) ?_
  by_cases hsame : i / perDirectory = j / perDirectory
  · -- In one directory, the numbers themselves decide.
    refine .inr ⟨hsame, ?_⟩
    rw [toList_baseName, toList_baseName]
    exact decimal_append_lt '.' (by decide) hi hj (.inl h)
  · have hle : i / perDirectory ≤ j / perDirectory := Nat.div_le_div_right (Nat.le_of_lt h)
    exact .inl (by omega)

end

/-! ## Names as texts and paths -/

theorem digitChar_mem {d : Nat} (h : d < 10) : d.digitChar ∈ "0123456789".toList := by
  have hall : ∀ d < 10, d.digitChar ∈ "0123456789".toList := by decide
  exact hall d h

theorem mem_of_mem_decimal {width n : Nat} {c : Char} (h : c ∈ (decimal width n).toList) :
    c ∈ "0123456789".toList := by
  rw [decimal, String.toList_ofList] at h
  obtain ⟨d, hd, rfl⟩ := exists_digit_of_mem_paddedDigits (by decide) h
  exact digitChar_mem hd

/-- A name is made of digits, a slash, a dot and a letter. -/
theorem mem_of_mem_name {i : Nat} {t : UInt32} {c : Char} (h : c ∈ (name i t).toList) :
    c ∈ "0123456789.e/".toList := by
  have hdigit {width n : Nat} (hc : c ∈ (decimal width n).toList) :
      c ∈ "0123456789.e/".toList := by
    show c ∈ "0123456789".toList ++ ".e/".toList
    exact List.mem_append_left _ (mem_of_mem_decimal hc)
  rw [toList_name_eq, toList_baseName] at h
  simp only [List.mem_append, List.mem_cons] at h
  -- The directory, the number and the type are digits; the other characters are as stated.
  rcases h with hdirectory | rfl | hnumber | rfl | rfl | htype
  · exact hdigit hdirectory
  · decide
  · exact hdigit hnumber
  · decide
  · decide
  · exact hdigit htype

theorem endsPlainly_decimal (width n : Nat) :
    Path.EndsPlainly (decimal width n).toList := by
  have hne : (decimal width n).toList ≠ [] := by
    rw [decimal, String.toList_ofList]
    exact paddedDigits_ne_nil _ _ _
  have hlast := List.getLast_mem hne
  refine ⟨_, _, (List.dropLast_append_getLast hne).symm, ?_, ?_⟩
  · intro hslash
    rw [hslash] at hlast
    exact not_mem_decimal (by decide) _ _ hlast
  · intro hdot
    rw [hdot] at hlast
    exact not_mem_decimal (by decide) _ _ hlast

/-- **The directory part of a name** is the directory of its entry. -/
theorem parent?_name (i : Nat) (t : UInt32) :
    Path.parent? (name i t) = some (directory i) := by
  have hbase : Path.EndsPlainly (baseName i t).toList := by
    rw [toList_baseName, List.append_cons, List.append_cons]
    exact (endsPlainly_decimal 1 t.toNat).append _
  have hdirectory : Path.EndsPlainly (directory i).toList :=
    endsPlainly_decimal 4 (i / perDirectory)
  exact Path.parent?_append hdirectory hbase (not_slash_mem_baseName i t)

/-! ## Runs of writers -/

/-- Results of writing entries that are numbered from `n` on: each success takes the next number,
and a failure takes none. -/
inductive Numbered : Nat → List (Except LogError String) → Prop
  | nil (n : Nat) : Numbered n []
  | ok {n : Nat} {results : List (Except LogError String)} (t : UInt32)
      (rest : Numbered (n + 1) results) : Numbered n (.ok (name n t) :: results)
  | error {n : Nat} {results : List (Except LogError String)} (e : LogError)
      (rest : Numbered n results) : Numbered n (.error e :: results)

def written (results : List (Except LogError String)) : List String :=
  results.filterMap Except.toOption

theorem Numbered.exists_of_mem {n : Nat} {results : List (Except LogError String)} {s : String}
    (h : Numbered n results) (hs : s ∈ written results) : ∃ k t, n ≤ k ∧ s = name k t := by
  induction h with
  | nil => cases hs
  | @ok n results t _ ih =>
      change s ∈ name n t :: written results at hs
      rcases List.mem_cons.mp hs with rfl | hs
      · exact ⟨n, t, Nat.le_refl n, rfl⟩
      · obtain ⟨k, u, hk, rfl⟩ := ih hs
        exact ⟨k, u, by omega, rfl⟩
  | error _ _ ih => exact ih hs

/-- Numbered entries have different names. -/
theorem Numbered.nodup {n : Nat} {results : List (Except LogError String)}
    (h : Numbered n results) : (written results).Nodup := by
  induction h with
  | nil => exact List.nodup_nil
  | @ok n results t rest ih =>
      show (name n t :: written results).Nodup
      refine List.nodup_cons.mpr ⟨?_, ih⟩
      -- All later names have greater numbers.
      intro hmem
      obtain ⟨k, u, hk, hname⟩ := rest.exists_of_mem hmem
      have hindex := (name_eq_iff.mp hname).1
      omega
  | error _ _ ih => exact ih

end Entry

/-- The results of writing events into an archive, one after the other; after a failure, the next
ones are tried all the same. -/
def Archive.results (a : Archive) : List Event → List (Except LogError String)
  | [] => []
  | e :: events => (a.write e).result :: (a.write e).archive.results events

/-- One write takes a number if it succeeds, and else takes none. -/
theorem Archive.write_cases (a : Archive) (e : Event) :
    ((a.write e).result = .ok (Entry.name a.written e.eventType) ∧
      (a.write e).archive.written = a.written + 1) ∨
    ((a.write e).result = .error full ∧ (a.write e).archive.written = a.written) := by
  unfold write
  cases a.sink.writeAll (entryPieces a.written e) with
  | mk sink whole =>
      cases whole with
      | true => exact .inl ⟨rfl, rfl⟩
      | false => exact .inr ⟨rfl, rfl⟩

theorem Archive.numbered_results (a : Archive) (events : List Event) :
    Entry.Numbered a.written (a.results events) := by
  induction events generalizing a with
  | nil => exact .nil a.written
  | cons e events ih =>
      have hrest := ih (a.write e).archive
      rw [results]
      rcases a.write_cases e with ⟨hresult, hwritten⟩ | ⟨hresult, hwritten⟩
      · rw [hwritten] at hrest
        rw [hresult]
        exact .ok e.eventType hrest
      · rw [hwritten] at hrest
        rw [hresult]
        exact .error full hrest

/-- The results of writing events below a root, one after the other. Each write finds the files as
they are then: as the write before left them, or as others have changed them since. -/
def EntryTree.results (t : EntryTree) : List (World × Event) → List (Except LogError String)
  | [] => []
  | (w, e) :: calls =>
      match (t.write (m := StateM World) e w).1 with
      | .ok (name, next) => .ok name :: next.results calls
      | .error error => .error error :: t.results calls

/-- One write that succeeds takes a number. -/
theorem EntryTree.write_eq_ok {t next : EntryTree} {e : Event} {w w' : World} {name : String}
    (h : t.write (m := StateM World) e w = (.ok (name, next), w')) :
    name = Entry.name t.written e.eventType ∧ next.written = t.written + 1 := by
  unfold write at h
  obtain ⟨-, w1, -, h⟩ := Workspace.exists_of_bind_eq_ok h
  obtain ⟨-, w2, -, h⟩ := Workspace.exists_of_bind_eq_ok h
  obtain ⟨-, w3, -, h⟩ := Workspace.exists_of_bind_eq_ok h
  obtain ⟨-, w4, -, h⟩ := Workspace.exists_of_bind_eq_ok h
  cases h
  exact ⟨rfl, rfl⟩

theorem EntryTree.numbered_results (t : EntryTree) (calls : List (World × Event)) :
    Entry.Numbered t.written (t.results calls) := by
  -- On the calls: one that fails keeps the count, one that succeeds raises it by one.
  induction calls generalizing t with
  | nil => exact .nil t.written
  | cons call calls ih =>
      obtain ⟨w, e⟩ := call
      rw [results]
      cases hwrite : t.write (m := StateM World) e w with
      | mk result w' =>
          cases result with
          | error error => exact .error error (ih t)
          | ok pair =>
              obtain ⟨name, next⟩ := pair
              obtain ⟨rfl, hnext⟩ := write_eq_ok hwrite
              have hrest := ih next
              rw [hnext] at hrest
              exact .ok e.eventType hrest

/-! ## The main result -/

/-- **The names of entries tell them apart.** Two names are equal only for entries of one number
and type, and they share their directory part exactly when the numbers have one quotient by ten
thousand. Below a hundred million, a smaller number gives a name whose bytes come first. A name is a
relative path of two components, made of digits, a dot, a letter and the slash between them, and
fits the field of a header. No writer gives one name to two entries, however many it writes and
however many it fails to write. -/
theorem Entry.name_identifies (i j : UInt64) (t u : UInt32) :
    (name i.toNat t = name j.toNat u ↔ i = j ∧ t = u) ∧
    (Path.parent? (name i.toNat t) = Path.parent? (name j.toNat u) ↔ i / 10000 = j / 10000) ∧
    (i < j → j < 100000000 →
      Utf8.ofString (name i.toNat t) < Utf8.ofString (name j.toNat u)) ∧
    Path.isRooted (name i.toNat t) = false ∧
    Path.components (name i.toNat t) = [directory i.toNat, baseName i.toNat t] ∧
    (∀ c ∈ (name i.toNat t).toList, c ∈ "0123456789.e/".toList) ∧
    (Utf8.ofString (name i.toNat t)).length ≤ 99 ∧
    (∀ (a : Archive) (events : List Event), (written (a.results events)).Nodup) ∧
    ∀ (tree : EntryTree) (calls : List (World × Event)), (written (tree.results calls)).Nodup := by
  -- The number of the directory is divided out in the machine's integers, where nothing is
  -- lost.
  have hquotient : i / 10000 = j / 10000 ↔ i.toNat / 10000 = j.toNat / 10000 := by
    rw [← UInt64.toNat_inj, UInt64.toNat_div, UInt64.toNat_div]
    rfl
  refine ⟨?_, ?_, ?_, isRooted_name i.toNat_lt t, components_name i.toNat_lt t, ?_, ?_, ?_, ?_⟩
  · rw [name_eq_iff, UInt64.toNat_inj]
  · rw [parent?_name, parent?_name, Option.some_inj, directory_eq_iff, hquotient]
    rfl
  · intro hij hj
    exact name_lt (UInt64.lt_iff_toNat_lt.mp hij) (UInt64.lt_iff_toNat_lt.mp hj)
  · intro c hc
    exact mem_of_mem_name hc
  · exact Nat.le_of_lt_succ (length_name_lt t i.toNat_lt)
  · intro a events
    exact (a.numbered_results events).nodup
  · intro tree calls
    exact (tree.numbered_results calls).nodup

/-- The last entry of a directory comes before the first one of the next, though its type is
greater. -/
theorem Entry.name_identifies_nextDirectory :
    Utf8.ofString "0000/00009999.e15" < Utf8.ofString "0001/00010000.e7" :=
  (name_identifies 9999 10000 15 7).2.2.1 (by decide) (by decide)

end EventLog
