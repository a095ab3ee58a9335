import EventLog.Proofs.Address.Grammar
import EventLog.Proofs.Wire.Address

set_option autoImplicit false

/-! # The text of an address

An IPv6 address is written in one of three forms (`Address.V6Text`): with the IPv4 address that it
maps, with its first longest run of zero groups left out, or with all its groups. In each of them
it is read as its eight groups (`Address.V6Text.read`), while no IPv4 address is read as an IPv6
address. So two addresses never have the same text (`Address.text_inj`), and the text tells the
sixteen bytes (`Address.text_ofBytes_inj`).
-/

namespace EventLog.Address

/-! ## Runs of zero groups -/

/-- The groups from position `start` on, `length` of them, are zero. -/
def ZerosAt (gs : List Nat) (start length : Nat) : Prop :=
  (gs.drop start).take length = List.replicate length 0

/-- No run of zero groups is longer, and every one as long begins there or further behind. -/
structure FirstLongestRun (gs : List Nat) (start length : Nat) : Prop where
  zeros : ZerosAt gs start length
  longest : ∀ i k, ZerosAt gs i k → k ≤ length
  first : ∀ i, ZerosAt gs i length → start ≤ i

theorem take_eq_replicate_iff {gs : List Nat} {k : Nat} :
    gs.take k = List.replicate k 0 ↔ k ≤ (gs.takeWhile (· == 0)).length := by
  -- One group at a time: a group that is not zero ends the run, and no longer prefix is zero.
  induction gs generalizing k with
  | nil =>
      cases k with
      | zero => exact iff_of_true rfl (Nat.le_refl 0)
      | succ k => exact iff_of_false nofun (by simp)
  | cons g gs ih =>
      cases k with
      | zero => exact iff_of_true rfl (Nat.zero_le _)
      | succ k =>
          rw [List.take_succ_cons, List.replicate_succ, List.cons.injEq, ih]
          by_cases hg : g = 0
          · rw [List.takeWhile_cons_of_pos (by simpa using hg), List.length_cons]
            omega
          · rw [List.takeWhile_cons_of_neg (by simpa using hg), List.length_nil]
            omega

theorem zerosAt_iff {gs : List Nat} {start length : Nat} :
    ZerosAt gs start length ↔ length ≤ zeroRun gs start := take_eq_replicate_iff

/-- What is known after the runs that begin before position `n` are compared. -/
structure LongestBefore (gs : List Nat) (n start length : Nat) : Prop where
  zeros : length ≤ zeroRun gs start
  longest : ∀ i < n, zeroRun gs i ≤ length
  first : ∀ i < start, zeroRun gs i < length

theorem LongestBefore.step {gs : List Nat} {n start length : Nat}
    (h : LongestBefore gs n start length) :
    if length < zeroRun gs n then LongestBefore gs (n + 1) n (zeroRun gs n)
    else LongestBefore gs (n + 1) start length := by
  split
  · next hlonger =>
      -- The new run is longer than all before it, so it is the first of its length.
      refine ⟨Nat.le_refl _, fun i hi => ?_, fun i hi => ?_⟩
      · rcases Nat.lt_succ_iff_lt_or_eq.mp hi with hbefore | rfl
        · exact Nat.le_trans (h.longest i hbefore) (Nat.le_of_lt hlonger)
        · exact Nat.le_refl _
      · exact Nat.lt_of_le_of_lt (h.longest i hi) hlonger
  · next hnot =>
      refine ⟨h.zeros, fun i hi => ?_, h.first⟩
      rcases Nat.lt_succ_iff_lt_or_eq.mp hi with hbefore | rfl
      · exact h.longest i hbefore
      · exact Nat.le_of_not_lt hnot

theorem longestBefore_foldl (gs : List Nat) (n : Nat) :
    let best := (List.range n).foldl
      (fun best i => if best.2 < zeroRun gs i then (i, zeroRun gs i) else best) (0, 0)
    LongestBefore gs n best.1 best.2 := by
  -- The invariant is `LongestBefore`: after `n` positions the best run is the longest that
  -- starts before `n`.
  induction n with
  | zero => exact ⟨Nat.zero_le _, nofun, nofun⟩
  | succ n ih =>
      rw [List.range_succ, List.foldl_append, List.foldl_cons, List.foldl_nil]
      have hstep := ih.step
      dsimp only
      split at hstep
      · next hlonger =>
          rw [if_pos hlonger]
          exact hstep
      · next hnot =>
          rw [if_neg hnot]
          exact hstep

/-- The run that is left out is the first longest one. -/
theorem firstLongestRun (gs : List Nat) :
    FirstLongestRun gs (longestZeroRun gs).1 (longestZeroRun gs).2 := by
  have h : LongestBefore gs gs.length (longestZeroRun gs).1 (longestZeroRun gs).2 :=
    longestBefore_foldl gs gs.length
  refine ⟨zerosAt_iff.mpr h.zeros, fun i k hzeros => ?_, fun i hzeros => ?_⟩
  · have hk := zerosAt_iff.mp hzeros
    by_cases hi : i < gs.length
    · exact Nat.le_trans hk (h.longest i hi)
    · rw [zeroRun, List.drop_of_length_le (Nat.le_of_not_lt hi)] at hk
      exact Nat.le_trans hk (Nat.zero_le _)
  · have hlength := zerosAt_iff.mp hzeros
    refine Nat.le_of_not_lt fun hbefore => ?_
    exact absurd (h.first i hbefore) (Nat.not_lt_of_le hlength)

/-! ## Groups -/

section

variable {w0 w1 w2 w3 : UInt32}

theorem length_groups : (groups w0 w1 w2 w3).length = 8 := rfl

theorem lt_of_mem_groups {g : Nat} (h : g ∈ groups w0 w1 w2 w3) : g < 65536 := by
  unfold groups at h
  obtain ⟨w, -, hg⟩ := List.mem_flatMap.mp h
  have hw := w.toNat_lt
  rw [List.mem_cons, List.mem_singleton] at hg
  omega

/-- The groups tell the words. -/
theorem groups_inj {v0 v1 v2 v3 : UInt32} (h : groups w0 w1 w2 w3 = groups v0 v1 v2 v3) :
    w0 = v0 ∧ w1 = v1 ∧ w2 = v2 ∧ w3 = v3 := by
  have hword {w v : UInt32} (hhigh : w.toNat / 65536 = v.toNat / 65536)
      (hlow : w.toNat % 65536 = v.toNat % 65536) : w = v := UInt32.toNat_inj.mp (by omega)
  simp only [groups, List.flatMap_cons, List.flatMap_nil, List.cons_append, List.nil_append,
    List.cons.injEq] at h
  obtain ⟨h0, h0', h1, h1', h2, h2', h3, h3', -⟩ := h
  exact ⟨hword h0 h0', hword h1 h1', hword h2 h2', hword h3 h3'⟩

end

/-! ## The forms of an IPv6 address -/

/-- How the IPv6 address of four words is written. -/
inductive V6Text (w0 w1 w2 w3 : UInt32) : String → Prop
  /-- The address maps an IPv4 address. -/
  | mapped (h : w0 = 0 ∧ w1 = 0 ∧ w2 = 0xFFFF) : V6Text w0 w1 w2 w3 ("::ffff:" ++ dotted w3)
  /-- Two colons stand for the first longest run of zero groups. -/
  | elided {start length : Nat} (hmapped : ¬(w0 = 0 ∧ w1 = 0 ∧ w2 = 0xFFFF))
      (hrun : FirstLongestRun (groups w0 w1 w2 w3) start length) (hlength : 2 ≤ length) :
      V6Text w0 w1 w2 w3 (joinGroups ((groups w0 w1 w2 w3).take start) ++ "::" ++
        joinGroups ((groups w0 w1 w2 w3).drop (start + length)))
  /-- No two zero groups stand side by side. -/
  | full (hmapped : ¬(w0 = 0 ∧ w1 = 0 ∧ w2 = 0xFFFF))
      (hnone : ∀ start, ¬ZerosAt (groups w0 w1 w2 w3) start 2) :
      V6Text w0 w1 w2 w3 (joinGroups (groups w0 w1 w2 w3))

theorem v6Text_text (w0 w1 w2 w3 : UInt32) : V6Text w0 w1 w2 w3 (v6 w0 w1 w2 w3).text := by
  have hrun := firstLongestRun (groups w0 w1 w2 w3)
  rw [text]
  split
  · next hmapped => exact .mapped hmapped
  · next hmapped =>
      unfold compressed
      dsimp only
      split
      · next hlength => exact .elided hmapped hrun hlength
      · next hlength =>
          refine .full hmapped fun start hzeros => ?_
          exact hlength (hrun.longest start 2 hzeros)

/-- **An IPv6 address is read as its eight groups.** -/
theorem V6Text.read {w0 w1 w2 w3 : UInt32} {text : String} (h : V6Text w0 w1 w2 w3 text) :
    readV6? text.toList = some (groups w0 w1 w2 w3) := by
  cases h with
  | mapped hmapped =>
      obtain ⟨rfl, rfl, rfl⟩ := hmapped
      exact readV6?_mapped w3
  | @elided start length hmapped hrun hlength =>
      -- The groups that are left out are as many as those missing from the text, and all zero.
      let gs := groups w0 w1 w2 w3
      have hzeros : (gs.drop start).take length = List.replicate length 0 := hrun.zeros
      have hend : start + length ≤ 8 := by
        have hcount := congrArg List.length hzeros
        rw [List.length_take, List.length_drop, List.length_replicate] at hcount
        have : gs.length = 8 := length_groups
        omega
      have hfront : (gs.take start).length = start := by
        rw [List.length_take, length_groups]
        omega
      have hback : (gs.drop (start + length)).length = 8 - (start + length) := List.length_drop
      have hmiss : 8 - start - (8 - (start + length)) = length := by omega
      rw [readV6?_elided (by rw [hfront, hback]; omega)
        (fun g hg => lt_of_mem_groups (List.mem_of_mem_take hg))
        (fun g hg => lt_of_mem_groups (List.mem_of_mem_drop hg)), hfront, hback, hmiss]
      refine congrArg some ?_
      calc gs.take start ++ List.replicate length 0 ++ gs.drop (start + length)
          = gs.take start ++ ((gs.drop start).take length ++ (gs.drop start).drop length) := by
            rw [hzeros, List.drop_drop, List.append_assoc]
        _ = gs := by rw [List.take_append_drop, List.take_append_drop]
  | full hmapped hnone => exact readV6?_joinGroups length_groups fun g hg => lt_of_mem_groups hg

/-! ## Addresses are told by their texts -/

theorem dotted_inj {word word' : UInt32} (h : dotted word = dotted word') : word = word' := by
  have hread := readDotted?_dotted word
  rw [h, readDotted?_dotted word'] at hread
  have hbytes : wordBytes word' = wordBytes word :=
    (List.map_inj_right fun _ _ => UInt8.toNat_inj.mp).mp (Option.some.inj hread)
  rw [← wordOf_wordBytes word, ← hbytes, wordOf_wordBytes]

/-- No IPv4 address is written like an IPv6 address. -/
theorem dotted_ne_text (word w0 w1 w2 w3 : UInt32) : dotted word ≠ (v6 w0 w1 w2 w3).text := by
  intro h
  have hread := (v6Text_text w0 w1 w2 w3).read
  rw [← h, readV6?_dotted] at hread
  cases hread

/-- **No two addresses have the same text.** -/
theorem text_inj {a a' : Address} (h : a.text = a'.text) : a = a' := by
  -- Texts of one kind are read back; texts of the two kinds differ in how they read.
  cases a with
  | v4 word =>
      cases a' with
      | v4 word' => rw [dotted_inj h]
      | v6 w0 w1 w2 w3 => exact absurd h (dotted_ne_text word w0 w1 w2 w3)
  | v6 w0 w1 w2 w3 =>
      cases a' with
      | v4 word => exact absurd h.symm (dotted_ne_text word w0 w1 w2 w3)
      | v6 v0 v1 v2 v3 =>
          have hread := (v6Text_text w0 w1 w2 w3).read
          rw [h, (v6Text_text v0 v1 v2 v3).read] at hread
          obtain ⟨rfl, rfl, rfl, rfl⟩ := groups_inj (Option.some.inj hread)
          rfl

/-! ## Addresses of four words and of sixteen bytes -/

/-- An address is IPv4 if all words but the first are zero. -/
theorem ofWords_eq (w0 w1 w2 w3 : UInt32) :
    ofWords w0 w1 w2 w3 =
      if w1 = 0 ∧ w2 = 0 ∧ w3 = 0 then v4 w0 else v6 w0 w1 w2 w3 := by
  simp only [ofWords, UInt32.or_eq_zero_iff, and_assoc]

theorem exists_dotted_iff {w0 w1 w2 w3 : UInt32} :
    (∃ word, (ofWords w0 w1 w2 w3).text = dotted word) ↔ w1 = 0 ∧ w2 = 0 ∧ w3 = 0 := by
  rw [ofWords_eq]
  constructor
  · rintro ⟨word, htext⟩
    split at htext
    · next hzero => exact hzero
    · next hnot => exact absurd htext.symm (dotted_ne_text word w0 w1 w2 w3)
  · intro hzero
    rw [if_pos hzero]
    exact ⟨w0, rfl⟩

theorem octets_ofBytes {bytes : List UInt8} (h : bytes.length = 16) :
    (ofBytes bytes).octets = bytes := by
  obtain ⟨w0, w1, w2, w3, rfl⟩ := exists_wordsBytes h
  rw [ofBytes_wordsBytes, octets_ofWords]

/-- The text of an address tells its bytes. -/
theorem text_ofBytes_inj {bytes bytes' : List UInt8} (h : bytes.length = 16)
    (h' : bytes'.length = 16) (htext : (ofBytes bytes).text = (ofBytes bytes').text) :
    bytes = bytes' := by
  rw [← octets_ofBytes h, text_inj htext, octets_ofBytes h']

end EventLog.Address
