import EventLog.Address

set_option autoImplicit false

/-! # Addresses on the wire

The sixteen bytes of an address are four words, each with its highest byte first
(`Address.wordBytes`). Any sixteen bytes are those of four words, and the address of the words
gives the bytes back (`Address.octets_ofWords`): which of the two forms an address takes depends on
the words alone.
-/

namespace EventLog

theorem toBigEndian_ofBigEndian {bytes : List UInt8} {width : Nat} (h : bytes.length = width) :
    toBigEndian width (ofBigEndian bytes) = bytes := by
  subst h
  have hrev := toLittleEndian_ofLittleEndian bytes.reverse
  rw [List.length_reverse] at hrev
  rw [toBigEndian, ofBigEndian, hrev, List.reverse_reverse]

theorem ofBigEndian_toBigEndian {width n : Nat} (h : n < Nat.pow 256 width) :
    ofBigEndian (toBigEndian width n) = n := by
  rw [ofBigEndian, toBigEndian, List.reverse_reverse, ofLittleEndian_toLittleEndian,
    Nat.mod_eq_of_lt h]

theorem ofBigEndian_lt (bytes : List UInt8) : ofBigEndian bytes < Nat.pow 256 bytes.length := by
  have h := ofLittleEndian_lt bytes.reverse
  rwa [List.length_reverse] at h

def wordBytes (w : UInt32) : List UInt8 := toBigEndian 4 w.toNat

@[simp]
theorem length_wordBytes (w : UInt32) : (wordBytes w).length = 4 := length_toBigEndian 4 w.toNat

def wordOf (bytes : List UInt8) : UInt32 := UInt32.ofNat (ofBigEndian bytes)

theorem wordOf_wordBytes (w : UInt32) : wordOf (wordBytes w) = w := by
  rw [wordOf, wordBytes, ofBigEndian_toBigEndian w.toNat_lt, UInt32.ofNat_toNat]

theorem wordBytes_wordOf {bytes : List UInt8} (h : bytes.length = 4) :
    wordBytes (wordOf bytes) = bytes := by
  have hlt := ofBigEndian_lt bytes
  rw [h] at hlt
  rw [wordBytes, wordOf, UInt32.toNat_ofNat_of_lt' hlt, toBigEndian_ofBigEndian h]

namespace Address

def wordsBytes (w0 w1 w2 w3 : UInt32) : List UInt8 :=
  wordBytes w0 ++ wordBytes w1 ++ wordBytes w2 ++ wordBytes w3

/-- The sixteen bytes of an address: an IPv4 address is followed by zeros. -/
def octets : Address → List UInt8
  | v4 w => wordBytes w ++ List.replicate 12 0
  | v6 w0 w1 w2 w3 => wordsBytes w0 w1 w2 w3

@[simp]
theorem length_wordsBytes (w0 w1 w2 w3 : UInt32) : (wordsBytes w0 w1 w2 w3).length = 16 := by
  simp [wordsBytes]

theorem octets_ofWords (w0 w1 w2 w3 : UInt32) :
    (ofWords w0 w1 w2 w3).octets = wordsBytes w0 w1 w2 w3 := by
  unfold ofWords
  split
  · next h =>
      rw [UInt32.or_eq_zero_iff, UInt32.or_eq_zero_iff] at h
      obtain ⟨⟨rfl, rfl⟩, rfl⟩ := h
      rw [octets, wordsBytes, List.append_assoc, List.append_assoc]
      rfl
  · rfl

theorem ofBytes_wordsBytes (w0 w1 w2 w3 : UInt32) :
    ofBytes (wordsBytes w0 w1 w2 w3) = ofWords w0 w1 w2 w3 := by
  -- Four bytes each: a word is found behind the words before it.
  have h0 : ((wordsBytes w0 w1 w2 w3).drop (4 * 0)).take 4 = wordBytes w0 := by
    rw [wordsBytes, List.append_assoc, List.append_assoc]
    exact List.take_left' (length_wordBytes w0)
  have h1 : ((wordsBytes w0 w1 w2 w3).drop (4 * 1)).take 4 = wordBytes w1 := by
    rw [wordsBytes, List.append_assoc, List.append_assoc, List.drop_left' (length_wordBytes w0)]
    exact List.take_left' (length_wordBytes w1)
  have h2 : ((wordsBytes w0 w1 w2 w3).drop (4 * 2)).take 4 = wordBytes w2 := by
    rw [wordsBytes, List.append_assoc, List.drop_left' (by simp)]
    exact List.take_left' (length_wordBytes w2)
  have h3 : ((wordsBytes w0 w1 w2 w3).drop (4 * 3)).take 4 = wordBytes w3 := by
    rw [wordsBytes, List.drop_left' (by simp)]
    exact List.take_of_length_le (by simp)
  show ofWords (wordOf _) (wordOf _) (wordOf _) (wordOf _) = _
  rw [h0, h1, h2, h3, wordOf_wordBytes, wordOf_wordBytes, wordOf_wordBytes, wordOf_wordBytes]

/-- Sixteen bytes are four words. -/
theorem exists_wordsBytes {bytes : List UInt8} (h : bytes.length = 16) :
    ∃ w0 w1 w2 w3, bytes = wordsBytes w0 w1 w2 w3 := by
  refine ⟨wordOf (bytes.take 4), wordOf ((bytes.drop 4).take 4),
    wordOf ((bytes.drop 8).take 4), wordOf (bytes.drop 12), ?_⟩
  have split4 (xs : List UInt8) : xs = xs.take 4 ++ xs.drop 4 := (List.take_append_drop 4 xs).symm
  rw [wordsBytes, wordBytes_wordOf (by simp [h]), wordBytes_wordOf (by simp [h]),
    wordBytes_wordOf (by simp [h]), wordBytes_wordOf (by simp [h]), List.append_assoc,
    List.append_assoc]
  calc bytes = bytes.take 4 ++ bytes.drop 4 := split4 bytes
    _ = bytes.take 4 ++ ((bytes.drop 4).take 4 ++ bytes.drop 8) := by
        conv => lhs; rw [split4 (bytes.drop 4), List.drop_drop]
    _ = _ := by
        conv => lhs; rw [split4 (bytes.drop 8), List.drop_drop]

end Address

end EventLog
