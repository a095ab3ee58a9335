import EventLog.Address
import EventLog.Proofs.Text.Digits

set_option autoImplicit false

/-! # Addresses as they are commonly written

An IPv4 address is written as four octets in decimal with dots between them. An IPv6 address is
written as eight groups of one to four hexadecimal digits of either case with colons between them,
the last two of which may be an IPv4 address; once in the text, two colons may stand for one group
or more that are zero (`Address.readV6?`).

Groups that are joined by colons are read back (`Address.readPart?_joinGroups`), and so is an
IPv4 address (`Address.readDotted?_dotted`).
-/

namespace EventLog.Address

/-! ## Reading an address -/

/-- Reads an octet: its decimal digits without zeros in front. -/
def readOctet? (text : List Char) : Option Nat :=
  if text.length = 1 ∨ 1 < text.length ∧ text.head? ≠ some '0' then
    (number? 10 text).filter fun n => n < 256
  else none

def readDotted? (text : List Char) : Option (List Nat) :=
  ((text.splitOn '.').mapM readOctet?).filter fun octets => octets.length = 4

def readGroup? (text : List Char) : Option Nat :=
  if 1 ≤ text.length ∧ text.length ≤ 4 then number? 16 text else none

def pairOctets : List Nat → List Nat
  | high :: low :: octets => (256 * high + low) :: pairOctets octets
  | _ => []

/-- Reads texts as groups. The last one may be an IPv4 address, which is two groups. -/
def readGroups? : List (List Char) → Option (List Nat)
  | [] => some []
  | [text] =>
      if '.' ∈ text then (readDotted? text).map pairOctets
      else (readGroup? text).map fun g => [g]
  | text :: texts => do return (← readGroup? text) :: (← readGroups? texts)

/-- Reads the groups before or after two colons, or all of them. -/
def readPart? (text : List Char) : Option (List Nat) :=
  if text = [] then some [] else readGroups? (text.splitOn ':')

/-- What stands before and after the first two colons in a row. -/
def splitElision : List Char → Option (List Char × List Char)
  | ':' :: ':' :: back => some ([], back)
  | c :: text => (splitElision text).map fun (front, back) => (c :: front, back)
  | [] => none

def readV6? (text : List Char) : Option (List Nat) :=
  match splitElision text with
  | none => (readPart? text).filter fun gs => gs.length = 8
  | some (front, back) => do
      -- An IPv4 address may only stand at the end of the whole text.
      let front ← if '.' ∈ front then none else readPart? front
      let back ← readPart? back
      if front.length + back.length < 8 then
        return front ++ List.replicate (8 - front.length - back.length) 0 ++ back
      else none

/-! ## IPv4 addresses -/

theorem readOctet?_decimal {n : Nat} (h : n < 256) :
    readOctet? (decimal 1 n).toList = some n := by
  have hshape : ∀ n < 256, (paddedDigits 10 1 n).length = 1 ∨
      1 < (paddedDigits 10 1 n).length ∧ (paddedDigits 10 1 n).head? ≠ some '0' := by
    decide +kernel
  rw [decimal, String.toList_ofList, readOctet?, if_pos (hshape n h),
    number?_paddedDigits 1 (by decide) (by decide), Option.filter_some, decide_eq_true h]
  rfl

/-- The octets of an IPv4 address are read back from its text. -/
theorem readDotted?_dotted (word : UInt32) :
    readDotted? (dotted word).toList = some ((toBigEndian 4 word.toNat).map UInt8.toNat) := by
  have hne : toBigEndian 4 word.toNat ≠ [] := by
    rw [← List.length_pos_iff, length_toBigEndian]
    decide
  -- No octet's text holds a dot, so splitting at the dots gives back the four of them.
  have hsplit : (dotted word).toList.splitOn '.' =
      (toBigEndian 4 word.toNat).map fun b => (decimal 1 b.toNat).toList := by
    rw [dotted, String.toList_intercalate, List.map_map]
    refine List.splitOn_intercalate '.' ?_ (by simpa using hne)
    intro text htext
    obtain ⟨b, -, rfl⟩ := List.mem_map.mp htext
    exact not_mem_decimal (by decide) 1 b.toNat
  have hoctet : (readOctet? ∘ fun b : UInt8 => (decimal 1 b.toNat).toList) =
      fun b => some b.toNat := by
    funext b
    rw [Function.comp_apply, readOctet?_decimal b.toNat_lt]
  have hread (bytes : List UInt8) :
      (bytes.map fun b => (decimal 1 b.toNat).toList).mapM readOctet? =
        some (bytes.map UInt8.toNat) := by
    rw [List.mapM_map, hoctet]
    exact List.mapM_pure
  rw [readDotted?, hsplit, hread, Option.filter_some, List.length_map, length_toBigEndian]
  rfl

theorem toList_dotted (word : UInt32) : ∃ a b c d : UInt8, toBigEndian 4 word.toNat = [a, b, c, d] ∧
    (dotted word).toList = (decimal 1 a.toNat).toList ++ '.' :: ((decimal 1 b.toNat).toList ++
      '.' :: ((decimal 1 c.toNat).toList ++ '.' :: (decimal 1 d.toNat).toList)) := by
  refine ⟨_, _, _, _, rfl, ?_⟩
  rw [dotted, String.toList_intercalate]
  show ['.'].intercalate [_, _, _, _] = _
  rw [List.intercalate_cons_cons, List.intercalate_cons_cons, List.intercalate_cons_cons,
    List.intercalate_singleton]
  simp only [List.append_assoc, List.singleton_append]

theorem dot_mem_dotted (word : UInt32) : '.' ∈ (dotted word).toList := by
  obtain ⟨a, b, c, d, -, htext⟩ := toList_dotted word
  rw [htext]
  exact List.mem_append_right _ List.mem_cons_self

theorem colon_not_mem_dotted (word : UInt32) : ':' ∉ (dotted word).toList := by
  have hdecimal (n : Nat) : ':' ∉ (decimal 1 n).toList := fun hmem =>
    absurd (digit_of_mem_decimal hmem).2 (by decide)
  obtain ⟨a, b, c, d, -, htext⟩ := toList_dotted word
  simp only [htext, List.mem_append, List.mem_cons, hdecimal, false_or, or_false]
  decide

/-- The octets of an IPv4 address as two groups. -/
theorem pairOctets_toBigEndian (word : UInt32) :
    pairOctets ((toBigEndian 4 word.toNat).map UInt8.toNat) =
      [word.toNat / 65536, word.toNat % 65536] := by
  have hword := word.toNat_lt
  -- The four bytes, each a quotient of the word.
  show [256 * (word.toNat / 256 / 256 / 256 % 256) + word.toNat / 256 / 256 % 256,
    256 * (word.toNat / 256 % 256) + word.toNat % 256] = _
  simp only [List.cons.injEq, and_true]
  omega

/-! ## Groups -/

theorem digit_of_mem_hexadecimal {width n : Nat} {c : Char}
    (h : c ∈ (hexadecimal width n).toList) : ∃ d < 16, c = d.digitChar := by
  rw [hexadecimal, String.toList_ofList] at h
  exact exists_digit_of_mem_paddedDigits (by decide) h

theorem not_mem_hexadecimal {c : Char} (h : ∀ d < 16, c ≠ d.digitChar) (width n : Nat) :
    c ∉ (hexadecimal width n).toList := by
  intro hmem
  obtain ⟨d, hd, hc⟩ := digit_of_mem_hexadecimal hmem
  exact h d hd hc

theorem hexadecimal_ne_nil (n : Nat) : (hexadecimal 1 n).toList ≠ [] := by
  rw [hexadecimal, String.toList_ofList]
  exact paddedDigits_ne_nil _ _ _

theorem readGroup?_hexadecimal {g : Nat} (h : g < 65536) :
    readGroup? (hexadecimal 1 g).toList = some g := by
  have hlength : 1 ≤ (paddedDigits 16 1 g).length := le_length_paddedDigits 16 1 g
  have hlength' : (paddedDigits 16 1 g).length ≤ 4 :=
    length_paddedDigits_le (by decide) (by decide) (by decide) h
  rw [hexadecimal, String.toList_ofList, readGroup?, if_pos ⟨hlength, hlength'⟩,
    number?_paddedDigits 1 (by decide) (by decide)]

theorem readGroups?_singleton {g : Nat} (h : g < 65536) :
    readGroups? [(hexadecimal 1 g).toList] = some [g] := by
  rw [readGroups?, if_neg (not_mem_hexadecimal (by decide) 1 g), readGroup?_hexadecimal h]
  rfl

/-- A group is read before others. -/
theorem readGroups?_cons_cons {g : Nat} (h : g < 65536) (text : List Char)
    (texts : List (List Char)) :
    readGroups? ((hexadecimal 1 g).toList :: text :: texts) =
      (readGroups? (text :: texts)).map fun gs => g :: gs := by
  rw [readGroups?, readGroup?_hexadecimal h]
  · cases readGroups? (text :: texts) with
    | none => rfl
    | some gs => rfl
  · exact nofun

theorem readGroups?_map {gs : List Nat} (h : ∀ g ∈ gs, g < 65536) :
    readGroups? (gs.map fun g => (hexadecimal 1 g).toList) = some gs := by
  induction gs with
  | nil => rfl
  | cons g gs ih =>
      obtain ⟨hg, hgs⟩ := List.forall_mem_cons.mp h
      -- The last text is read in its own way, so it is told from those before it.
      cases gs with
      | nil => exact readGroups?_singleton hg
      | cons g' gs =>
          have hrest := ih hgs
          rw [List.map_cons] at hrest
          rw [List.map_cons, List.map_cons, readGroups?_cons_cons hg, hrest]
          rfl

theorem toList_joinGroups (gs : List Nat) :
    (joinGroups gs).toList = [':'].intercalate (gs.map fun g => (hexadecimal 1 g).toList) := by
  rw [joinGroups, String.toList_intercalate, List.map_map]
  rfl

theorem toList_joinGroups_cons_cons (g g' : Nat) (gs : List Nat) :
    (joinGroups (g :: g' :: gs)).toList =
      (hexadecimal 1 g).toList ++ ':' :: (joinGroups (g' :: gs)).toList := by
  rw [toList_joinGroups, toList_joinGroups, List.map_cons, List.map_cons,
    List.intercalate_cons_cons, List.append_assoc]
  rfl

/-- Texts with colons between them are read one by one. -/
theorem readPart?_intercalate {texts : List (List Char)} (hne : texts ≠ []) (hne' : texts ≠ [[]])
    (h : ∀ text ∈ texts, ':' ∉ text) :
    readPart? ([':'].intercalate texts) = readGroups? texts := by
  have hsplit := List.splitOn_intercalate ':' h hne
  have hnil : [':'].intercalate texts ≠ [] := by
    intro hnil
    rw [hnil] at hsplit
    exact hne' hsplit.symm
  rw [readPart?, if_neg hnil, hsplit]

/-- Groups that are joined by colons are read back. -/
theorem readPart?_joinGroups {gs : List Nat} (h : ∀ g ∈ gs, g < 65536) :
    readPart? (joinGroups gs).toList = some gs := by
  cases gs with
  | nil => rfl
  | cons g gs =>
      rw [toList_joinGroups, readPart?_intercalate, readGroups?_map h]
      · exact List.cons_ne_nil _ _
      · rw [List.map_cons]
        exact fun heq => hexadecimal_ne_nil g (List.cons.inj heq).1
      · intro text htext
        obtain ⟨g, -, rfl⟩ := List.mem_map.mp htext
        exact not_mem_hexadecimal (by decide) 1 g

theorem joinGroups_singleton (g : Nat) : joinGroups [g] = hexadecimal 1 g := by
  rw [joinGroups, List.map_singleton, String.intercalate_singleton]

theorem dot_not_mem_joinGroups (gs : List Nat) : '.' ∉ (joinGroups gs).toList := by
  induction gs with
  | nil => exact List.not_mem_nil
  | cons g gs ih =>
      cases gs with
      | nil =>
          rw [joinGroups_singleton]
          exact not_mem_hexadecimal (by decide) 1 g
      | cons g' gs =>
          rw [toList_joinGroups_cons_cons, List.mem_append, List.mem_cons, not_or, not_or]
          exact ⟨not_mem_hexadecimal (by decide) 1 g, by decide, ih⟩

/-! ## Two colons -/

/-- A character is passed over unless it begins two colons. -/
theorem splitElision_cons {c : Char} {text : List Char} (h : c ≠ ':' ∨ text.head? ≠ some ':') :
    splitElision (c :: text) = (splitElision text).map fun (front, back) => (c :: front, back) := by
  rw [splitElision.eq_def]
  split
  · next heq =>
      obtain ⟨rfl, rfl⟩ := List.cons.inj heq
      exact absurd h (by simp)
  · next heq =>
      obtain ⟨rfl, rfl⟩ := List.cons.inj heq
      rfl
  · next heq => cases heq

theorem splitElision_append {piece : List Char} (h : ':' ∉ piece) (text : List Char) :
    splitElision (piece ++ text) =
      (splitElision text).map fun (front, back) => (piece ++ front, back) := by
  induction piece with
  | nil => exact (congrFun Option.map_id _).symm
  | cons c piece ih =>
      obtain ⟨hc, hpiece⟩ := List.ne_and_not_mem_of_not_mem_cons h
      rw [List.cons_append, splitElision_cons (.inl (Ne.symm hc)), ih hpiece, Option.map_map]
      rfl

/-- Joined groups begin with a digit. -/
theorem head?_joinGroups_ne (g : Nat) (gs : List Nat) (text : List Char) :
    ((joinGroups (g :: gs)).toList ++ text).head? ≠ some ':' := by
  obtain ⟨c, digits, hdigits⟩ := List.exists_cons_of_ne_nil (hexadecimal_ne_nil g)
  have hc : c ∈ (hexadecimal 1 g).toList := by
    rw [hdigits]
    exact List.mem_cons_self
  have hhead : (joinGroups (g :: gs)).toList.head? = some c := by
    cases gs with
    | nil => rw [joinGroups_singleton, hdigits, List.head?_cons]
    | cons g' gs => rw [toList_joinGroups_cons_cons, hdigits, List.cons_append, List.head?_cons]
  rw [List.head?_append, hhead, Option.some_or]
  intro heq
  rw [Option.some.inj heq] at hc
  exact not_mem_hexadecimal (by decide) 1 g hc

/-- Joined groups hold no two colons in a row and end in none. -/
theorem splitElision_joinGroups (gs : List Nat) (text : List Char) :
    splitElision ((joinGroups gs).toList ++ text) =
      (splitElision text).map fun (front, back) => ((joinGroups gs).toList ++ front, back) := by
  induction gs with
  | nil => exact (congrFun Option.map_id _).symm
  | cons g gs ih =>
      have hg : ':' ∉ (hexadecimal 1 g).toList := not_mem_hexadecimal (by decide) 1 g
      cases gs with
      | nil =>
          rw [joinGroups_singleton]
          exact splitElision_append hg text
      | cons g' gs =>
          -- A digit follows the colon after the first group, so two colons do not begin there.
          have hhead := head?_joinGroups_ne g' gs text
          rw [toList_joinGroups_cons_cons, List.append_assoc, List.cons_append,
            splitElision_append hg, splitElision_cons (.inr hhead), ih, Option.map_map,
            Option.map_map]
          refine congrArg (Option.map · (splitElision text)) (funext fun (front, back) => ?_)
          show (_, back) = (_, back)
          rw [List.append_assoc, List.cons_append]

/-! ## IPv6 addresses -/

/-- An IPv4 address is two groups. -/
theorem readGroups?_dotted (word : UInt32) :
    readGroups? [(dotted word).toList] = some [word.toNat / 65536, word.toNat % 65536] := by
  rw [readGroups?, if_pos (dot_mem_dotted word), readDotted?_dotted, Option.map_some,
    pairOctets_toBigEndian]

/-- No IPv4 address is read as an IPv6 address. -/
theorem readV6?_dotted (word : UInt32) : readV6? (dotted word).toList = none := by
  -- Without a colon there is no elision and only one group, and a dotted group counts as two.
  have hcolon := colon_not_mem_dotted word
  have helision : splitElision (dotted word).toList = none := by
    rw [← List.append_nil (dotted word).toList, splitElision_append hcolon]
    rfl
  have hne : [(dotted word).toList] ≠ [[]] := fun heq =>
    List.ne_nil_of_mem (dot_mem_dotted word) (List.cons.inj heq).1
  have hpart : readPart? (dotted word).toList =
      some [word.toNat / 65536, word.toNat % 65536] := by
    calc readPart? (dotted word).toList
        = readPart? ([':'].intercalate [(dotted word).toList]) := by
          rw [List.intercalate_singleton]
      _ = readGroups? [(dotted word).toList] :=
          readPart?_intercalate (List.cons_ne_nil _ _) hne (List.forall_mem_singleton.mpr hcolon)
      _ = some [word.toNat / 65536, word.toNat % 65536] := readGroups?_dotted word
  rw [readV6?, helision, hpart]
  rfl

/-- An address that maps an IPv4 address is read as its prefix and the two groups. -/
theorem readV6?_mapped (word : UInt32) :
    readV6? ("::ffff:" ++ dotted word).toList =
      some [0, 0, 0, 0, 0, 0xFFFF, word.toNat / 65536, word.toNat % 65536] := by
  let texts := [(hexadecimal 1 0xFFFF).toList, (dotted word).toList]
  -- The elision stands in front, so all the groups that are written belong to its second part.
  have hback : readPart? ([':'].intercalate texts) =
      some [0xFFFF, word.toNat / 65536, word.toNat % 65536] := by
    rw [readPart?_intercalate, readGroups?_cons_cons (by decide), readGroups?_dotted,
      Option.map_some]
    · exact List.cons_ne_nil _ _
    · exact fun heq => List.cons_ne_nil _ _ (List.cons.inj heq).2
    · refine List.forall_mem_cons.mpr ⟨not_mem_hexadecimal (by decide) 1 0xFFFF, ?_⟩
      exact List.forall_mem_singleton.mpr (colon_not_mem_dotted word)
  have htext : ("::ffff:" ++ dotted word).toList = ':' :: ':' :: [':'].intercalate texts := by
    rw [String.toList_append, List.intercalate_cons_cons, List.intercalate_singleton,
      List.append_assoc]
    rfl
  rw [htext, readV6?, splitElision]
  simp only [hback]
  rfl

/-- Eight groups that are joined by colons are an IPv6 address. -/
theorem readV6?_joinGroups {gs : List Nat} (hlength : gs.length = 8) (h : ∀ g ∈ gs, g < 65536) :
    readV6? (joinGroups gs).toList = some gs := by
  have helision : splitElision (joinGroups gs).toList = none := by
    rw [← List.append_nil (joinGroups gs).toList, splitElision_joinGroups]
    rfl
  rw [readV6?, helision]
  simp only [readPart?_joinGroups h, Option.filter_some, hlength, decide_true, if_true]

/-- Groups before and after two colons are an IPv6 address whose other groups are zero. -/
theorem readV6?_elided {front back : List Nat} (hlength : front.length + back.length < 8)
    (hfront : ∀ g ∈ front, g < 65536) (hback : ∀ g ∈ back, g < 65536) :
    readV6? (joinGroups front ++ "::" ++ joinGroups back).toList =
      some (front ++ List.replicate (8 - front.length - back.length) 0 ++ back) := by
  have helision : splitElision (joinGroups front ++ "::" ++ joinGroups back).toList =
      some ((joinGroups front).toList, (joinGroups back).toList) := by
    rw [String.toList_append, String.toList_append, List.append_assoc, splitElision_joinGroups]
    show some (_ ++ [], _) = _
    rw [List.append_nil]
    rfl
  rw [readV6?, helision]
  simp only [if_neg (dot_not_mem_joinGroups front), readPart?_joinGroups hfront,
    readPart?_joinGroups hback, Option.bind_eq_bind, Option.bind_some, if_pos hlength]
  rfl

example : readV6? "2001:DB8:0:00::192.0.2.33".toList =
    some [0x2001, 0xDB8, 0, 0, 0, 0, 0xC000, 0x221] := by
  decide

end EventLog.Address
