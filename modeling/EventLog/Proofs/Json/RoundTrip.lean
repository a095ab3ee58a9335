import EventLog.Proofs.Json.Sequence
import EventLog.Proofs.Json.Tokens

set_option autoImplicit false

/-! # Reading printed values

Every value whose integers fit in 64 bits, and whose arrays and objects are not nested too deeply,
is read back from its text, whichever of the two forms it was printed in (`Json.parse_text`).
-/

namespace EventLog.Json

/-! ## Parts of a value -/

/-- The first token of a value closes nothing. -/
theorem opens_tokensOf (v : Json) : Opens (tokensOf v) := by
  cases v with
  | bool b => cases b <;> exact ⟨_, _, rfl, nofun⟩
  | array xs => cases xs <;> exact ⟨_, _, rfl, nofun⟩
  | object ms => cases ms <;> exact ⟨_, _, rfl, nofun⟩
  | _ => exact ⟨_, _, rfl, nofun⟩

/-- A reader reads back the values of a list, whatever tokens follow. -/
def ReadsBack (read : Reads Json) (vs : List Json) : Prop :=
  ∀ v ∈ vs, TakesFrom read (tokensOf v) v

theorem elementTokens_eq (xs : List Json) :
    elementTokens xs = (xs.map tokensOf).flatMap (.comma :: ·) := by
  induction xs with
  | nil => rfl
  | cons x xs ih => rw [elementTokens, List.map_cons, List.flatMap_cons, ih, List.cons_append]

/-- The elements of an array that is not empty are read back. -/
theorem elements_eq {read : Reads Json} {x : Json} {xs : List Json} (h : ReadsBack read (x :: xs))
    (ts : List Token) :
    elements read (tokensOf x ++ (elementTokens xs ++ Token.closing .array :: ts)) =
      .ok (x :: xs, ts) := by
  have hparts : List.Forall₂ (ElementFrom read) (x :: xs) ((x :: xs).map tokensOf) := by
    rw [List.forall₂_map_right_iff, List.forall₂_same]
    intro y hy
    exact ⟨opens_tokensOf y, h y hy⟩
  rw [elementTokens_eq, ← List.append_assoc]
  exact elements_separated hparts ts

/-- The reader of a member puts it in front of those before it. -/
def memberReader (read : Reads Json) (before : List (String × Json)) (name : String) :
    Reads (List (String × Json)) := fun ts => do
  let (v, ts) ← read (← colon ts)
  return ((name, v) :: before, ts)

theorem memberReader_eq {read : Reads Json} {v : Json} (h : TakesFrom read (tokensOf v) v)
    (before : List (String × Json)) (name : String) :
    TakesFrom (memberReader read before name) (.colon :: tokensOf v) ((name, v) :: before) :=
  fun rest => bind_eq_ok.mpr ⟨_, rfl, bind_eq_ok.mpr ⟨_, h rest, rfl⟩⟩

def tokensOfMember (m : String × Json) : List Token := stringTokenOf m.1 :: .colon :: tokensOf m.2

theorem memberTokens_eq (ms : List (String × Json)) :
    memberTokens ms = (ms.map tokensOfMember).flatMap (.comma :: ·) := by
  induction ms with
  | nil => rfl
  | cons m ms ih =>
      rw [memberTokens, List.map_cons, List.flatMap_cons, ih]
      rfl

/-- Members are gathered, the last one first. -/
theorem membersRun_memberReader {read : Reads Json} {ms : List (String × Json)}
    (h : ReadsBack read (ms.map Prod.snd)) (before : List (String × Json)) :
    MembersRun (memberReader read) before (ms.map tokensOfMember) (ms.reverse ++ before) := by
  induction ms generalizing before with
  | nil => exact .nil before
  | cons m ms ih =>
      obtain ⟨hm, hms⟩ := List.forall_mem_cons.mp h
      have hrest := ih hms ((m.1, m.2) :: before)
      rw [List.reverse_cons, List.append_assoc, List.singleton_append]
      exact .cons (stringValue_pieces m.1) (memberReader_eq hm before m.1) hrest

/-- The members of an object that is not empty are read back, the last one first. -/
theorem members_eq {read : Reads Json} {k : String} {v : Json} {ms : List (String × Json)}
    (h : ReadsBack read (v :: ms.map Prod.snd)) (ts : List Token) :
    members (memberReader read) []
        (stringTokenOf k :: .colon ::
          (tokensOf v ++ (memberTokens ms ++ Token.closing .object :: ts))) =
      .ok (((k, v) :: ms).reverse, ts) := by
  have hrun : MembersRun (memberReader read) [] (((k, v) :: ms).map tokensOfMember)
      ((k, v) :: ms).reverse := by
    have hread : ReadsBack read (((k, v) :: ms).map Prod.snd) := h
    have hrun := membersRun_memberReader hread []
    rwa [List.append_nil] at hrun
  rw [memberTokens_eq, ← List.append_assoc]
  exact members_separated hrun ts

/-! ## Values -/

/-- A value without elements and members is read back at any depth. -/
theorem readValue_of_atomic {v : Json} (h : v.Atomic) (depth : Nat) (ts : List Token) :
    readValue depth (tokensOf v ++ ts) = .ok (v, ts) := by
  cases v with
  | bool b => cases b <;> cases depth <;> rfl
  | string s =>
      show readValue depth (.string (s.toList.flatMap pieces) none :: ts) = _
      rw [readValue, stringValue_pieces]
      rfl
  | array xs => exact h.elim
  | object ms => exact h.elim
  | _ => cases depth <;> rfl

/-- The reader takes exactly the tokens of a value and gives the value. -/
theorem readValue_tokensOf {depth : Nat} {v : Json} (h : v.Fits depth) (ts : List Token) :
    readValue depth (tokensOf v ++ ts) = .ok (v, ts) := by
  -- On the depth that is left, which each bracket lowers by one.
  induction depth generalizing v ts with
  | zero =>
      cases v with
      | array xs => exact h.elim
      | object ms => exact h.elim
      | _ => exact readValue_of_atomic h 0 ts
  | succ depth ih =>
      cases v with
      | array xs =>
          have hback : ReadsBack (readValue depth) xs := fun x hx ts => ih (h x hx) ts
          cases xs with
          | nil => rfl
          | cons x xs =>
              have htokens : tokensOf (.array (x :: xs)) ++ ts = .opening .array ::
                  (tokensOf x ++ (elementTokens xs ++ Token.closing .array :: ts)) := by
                rw [tokensOf]
                simp only [List.cons_append, List.append_assoc, List.nil_append]
              rw [htokens, readValue, elements_eq hback]
              rfl
      | object ms =>
          have hback : ReadsBack (readValue depth) (ms.map Prod.snd) := by
            intro x hx ts
            obtain ⟨m, hm, rfl⟩ := List.mem_map.mp hx
            exact ih (h m hm) ts
          cases ms with
          | nil => rfl
          | cons m ms =>
              obtain ⟨k, v⟩ := m
              have htokens : tokensOf (.object ((k, v) :: ms)) ++ ts = .opening .object ::
                  stringTokenOf k :: .colon ::
                    (tokensOf v ++ (memberTokens ms ++ Token.closing .object :: ts)) := by
                rw [tokensOf]
                simp only [List.cons_append, List.append_assoc, List.nil_append]
              rw [htokens, readValue]
              refine bind_eq_ok.mpr ⟨_, members_eq hback ts, ?_⟩
              show Except.ok (Json.object ((k, v) :: ms).reverse.reverse, ts) = _
              rw [List.reverse_reverse]
      | _ => exact readValue_of_atomic h (depth + 1) ts

/-- **A printed value is read back**: all of its text is one document, and the value of this
document is the value printed. -/
theorem parse_text {v : Json} (h : v.Fits maxDepth) (indent : Bool) :
    parse (Utf8.ofString (v.text indent)) = .ok v := by
  have hread := readValue_tokensOf h []
  rw [List.append_nil] at hread
  rw [parse, readAll, tokens_text h, hread]
  rfl

end EventLog.Json
