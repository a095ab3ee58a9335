import EventLog.Proofs.Json.Reading
import EventLog.Schema.Document

set_option autoImplicit false

/-! # Objects with known members

An object says what it says by some of its members, in any order and among members of other names
(`HasMembers`). A reader goes through them in the order of the text. What it knows behind some of
them depends only on their names (`ReadsMembers`), since no known name stands there twice, and so it
ends as if it had read the known members alone (`ReadsMembers.takesFrom`).
-/

namespace EventLog.Schema

open Json

/-! ## Objects -/

/-- The members of an object are those given, in any order and among others of unknown names. -/
def HasMembers (known : List String) (given ms : List (String × Json)) : Prop :=
  ∃ others, (∀ m ∈ others, m.1 ∉ known) ∧ ms.Perm (given ++ others)

/-- A member that may be left out under a condition. -/
inductive Optional (name : String) (v : Json) (absent : Prop) : List (String × Json) → Prop
  | given : Optional name v absent [(name, v)]
  | omitted (h : absent) : Optional name v absent []

theorem Optional.forall_mem {name : String} {v : Json} {absent : Prop}
    {given : List (String × Json)} (h : Optional name v absent given) {P : String × Json → Prop}
    (hP : P (name, v)) : ∀ m ∈ given, P m := by
  cases h with
  | given => exact List.forall_mem_singleton.mpr hP
  | omitted => exact List.forall_mem_nil _

theorem HasMembers.given_or_unknown {known : List String} {given ms : List (String × Json)}
    (h : HasMembers known given ms) : ∀ m ∈ ms, m ∈ given ∨ m.1 ∉ known := by
  obtain ⟨others, hothers, hperm⟩ := h
  intro m hm
  rcases List.mem_append.mp (hperm.mem_iff.mp hm) with hgiven | hother
  · exact .inl hgiven
  · exact .inr (hothers m hother)

theorem HasMembers.mem_of_given {known : List String} {given ms : List (String × Json)}
    (h : HasMembers known given ms) {m : String × Json} (hm : m ∈ given) : m ∈ ms := by
  obtain ⟨others, -, hperm⟩ := h
  exact hperm.mem_iff.mpr (List.mem_append_left others hm)

/-- Only unknown names may stand in an object twice. -/
theorem HasMembers.pairwise {known : List String} {given ms : List (String × Json)}
    (h : HasMembers known given ms) (hnodup : (given.map Prod.fst).Nodup) :
    ms.Pairwise fun m m' => m.1 = m'.1 → m.1 ∉ known := by
  obtain ⟨others, hothers, hperm⟩ := h
  have hsymm {m m' : String × Json} (h : m.1 = m'.1 → m.1 ∉ known) : m'.1 = m.1 → m'.1 ∉ known := by
    intro heq
    exact heq ▸ h heq.symm
  rw [hperm.pairwise_iff hsymm, List.pairwise_append]
  refine ⟨?_, ?_, ?_⟩
  · refine (List.pairwise_map.mp hnodup).imp ?_
    intro m m' hne heq
    exact absurd heq hne
  · exact List.pairwise_of_forall_mem_list fun m hm m' _ _ => hothers m hm
  · intro m _ m' hm' heq
    exact heq ▸ hothers m' hm'

/-- The reader of a member takes this one if it was not read before. The states are those that
`after` gives behind members of some names. -/
def StepsOn {σ : Type} (member : σ → String → Reads σ) (after : List String → σ)
    (m : String × Json) : Prop :=
  ∀ names, m.1 ∉ names → ∀ ts, HasTokens m.2 ts →
    TakesFrom (member (after names) m.1) (.colon :: ts) (after (m.1 :: names))

/-- The reader of a member takes those given, each of them once, and others of unknown names. -/
structure ReadsMembers {σ : Type} (member : σ → String → Reads σ) (after : List String → σ)
    (known : List String) (given : List (String × Json)) : Prop where
  mem : ∀ m ∈ given, m.1 ∈ known
  step : ∀ m ∈ given, StepsOn member after m
  other : ∀ k ∉ known, ∀ names v ts, HasTokens v ts →
    TakesFrom (member (after names) k) (.colon :: ts) (after (k :: names))

section Members

variable {σ : Type} {member : σ → String → Reads σ} {after : List String → σ}
  {known : List String} {given : List (String × Json)}

/-- Behind members of the given names, a run goes on with members that are new if they are known. -/
theorem ReadsMembers.run (h : ReadsMembers member after known given) {ms : List (String × Json)}
    {parts : List (List Token)} (hparts : List.Forall₂ MemberTokens ms parts)
    (hms : ∀ m ∈ ms, m ∈ given ∨ m.1 ∉ known)
    (honce : ms.Pairwise fun m m' => m.1 = m'.1 → m.1 ∉ known) {names : List String}
    (hnew : ∀ m ∈ ms, m.1 ∈ names → m.1 ∉ known) :
    MembersRun member (after names) parts (after ((ms.map Prod.fst).reverse ++ names)) := by
  induction hparts generalizing names with
  | nil => exact .nil _
  | @cons m part ms parts hpart _ ih =>
      obtain ⟨hgiven, hrest⟩ := List.forall_mem_cons.mp hms
      obtain ⟨hfirst, honceRest⟩ := List.pairwise_cons.mp honce
      obtain ⟨hfirstNew, hrestNew⟩ := List.forall_mem_cons.mp hnew
      rw [List.map_cons, List.reverse_cons, List.append_assoc, List.singleton_append]
      -- The first member is one of those given, or its name is unknown and its value is skipped.
      cases hpart with
      | @intro k v pieces ts hname hvalue =>
          have hstep : TakesFrom (member (after names) k) (.colon :: ts) (after (k :: names)) := by
            by_cases hk : k ∈ known
            · have hmem : (k, v) ∈ given := hgiven.resolve_right fun hnot => hnot hk
              exact h.step (k, v) hmem names (fun hread => hfirstNew hread hk) ts hvalue
            · exact h.other k hk names v ts hvalue
          refine .cons hname hstep (ih hrest honceRest ?_)
          intro m hm hmem
          rcases List.mem_cons.mp hmem with heq | hmem
          · exact heq ▸ hfirst m hm heq.symm
          · exact hrestNew m hm hmem

/-- **An object is read from its members in any order.** -/
theorem ReadsMembers.takesFrom {α : Type} {finish : σ → Except Problem α} {elements : Reads α} {x : α}
    (h : ReadsMembers member after known given) (hnodup : (given.map Prod.fst).Nodup)
    (hfinish : ∀ names, (∀ m ∈ given, m.1 ∈ names) → finish (after names) = .ok x)
    {ms : List (String × Json)} (hms : HasMembers known given ms) {ts : List Token}
    (hts : HasTokens (.object ms) ts) :
    TakesFrom (objectOrArray (after []) member finish elements) ts x := by
  obtain ⟨parts, hparts, rfl⟩ := hts.object
  have hnew : ∀ m ∈ ms, m.1 ∈ [] → m.1 ∉ known := by simp
  have hrun := h.run hparts hms.given_or_unknown (hms.pairwise hnodup) hnew
  have hall : finish (after ((ms.map Prod.fst).reverse ++ [])) = .ok x := by
    refine hfinish _ fun m hm => ?_
    rw [List.append_nil, List.mem_reverse]
    exact List.mem_map_of_mem (hms.mem_of_given hm)
  intro rest
  rw [List.cons_append, List.append_assoc]
  refine bind_eq_ok.mpr ⟨_, members_separated hrun rest, ?_⟩
  exact bind_eq_ok.mpr ⟨x, hall, rfl⟩

end Members

/-! ## What is known of a member -/

/-- What a member says, if it is among those read. -/
def readOf {α : Type} (names : List String) (name : String) (x : α) : Option α :=
  if name ∈ names then some x else none

section ReadOf

variable {α : Type} {names : List String} {name : String} {x : α}

theorem readOf_of_mem (h : name ∈ names) : readOf names name x = some x := if_pos h

theorem readOf_of_not_mem (h : name ∉ names) : readOf names name x = none := if_neg h

theorem readOf_cons_of_ne {k : String} (h : name ≠ k) :
    readOf (k :: names) name x = readOf names name x := by
  simp only [readOf, List.mem_cons, h, false_or]

/-- A member that was left out says what its absence does. -/
theorem readOf_getD_of_optional {v : Json} {absent : α} {given : List (String × Json)}
    (h : Optional name v (x = absent) given) (hread : ∀ m ∈ given, m.1 ∈ names) :
    (readOf names name x).getD absent = x := by
  cases h with
  | given =>
      rw [readOf_of_mem (hread _ List.mem_cons_self)]
      rfl
  | omitted habsent =>
      unfold readOf
      split
      · rfl
      · exact habsent.symm

end ReadOf

/-- A member that must not be given twice is read and changes the state. -/
theorem stepsOn_of_once {α σ : Type} {member : σ → String → Reads σ} {after : List String → σ}
    {read : Reads α} {name : String} {v : Json} {x : α}
    (hread : ∀ ts, HasTokens v ts → TakesFrom read ts x) (update : List String → Option α → σ)
    (hmember : ∀ names ts, member (after names) name ts = (do
      let (y, ts) ← once (readOf names name x) read ts
      return (update names y, ts)))
    (hafter : ∀ names, update names (some x) = after (name :: names)) :
    StepsOn member after (name, v) := by
  intro names hnew ts hts rest
  have honce : once (readOf names name x) read (.colon :: ts ++ rest) = .ok (some x, rest) := by
    rw [readOf_of_not_mem hnew]
    exact bind_eq_ok.mpr ⟨_, rfl, bind_eq_ok.mpr ⟨_, hread ts hts rest, rfl⟩⟩
  rw [hmember, ← hafter]
  exact bind_eq_ok.mpr ⟨_, honce, rfl⟩

theorem other_takesFrom {σ : Type} {v : Json} {ts : List Token} (h : HasTokens v ts) (s : σ) :
    TakesFrom (other s) (.colon :: ts) s :=
  fun rest => bind_eq_ok.mpr ⟨_, rfl, bind_eq_ok.mpr ⟨_, h.skip_eq rest, rfl⟩⟩

end EventLog.Schema
