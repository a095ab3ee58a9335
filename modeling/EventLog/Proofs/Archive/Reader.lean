import EventLog.Archive.TarHeader
import EventLog.Proofs.Text.Digits
import EventLog.Proofs.Wire.Address
import Mathlib.Data.List.Basic

set_option autoImplicit false

/-! # Reading a tar archive

A plain reader of tar archives, which looks at the places of the fields in a header and at nothing
else: the name up to a zero byte, octal numbers, and a date that may be stored in base 256. A header
whose checksum is not the sum of its bytes is refused. What is read from a header that was written
is what the header says (`readHeader_bytes`), and an entry is read together with its contents
(`readEntry_append`).
-/

namespace EventLog.Tar

/-! ## The reader -/

def slice (bytes : List UInt8) (start width : Nat) : List UInt8 := (bytes.drop start).take width

def untilZero (bytes : List UInt8) : List UInt8 := bytes.takeWhile (· ≠ 0)

/-- The number whose octal digits stand before the first zero byte; without digits it is zero. -/
def octalValue (bytes : List UInt8) : Option Nat :=
  let digits := untilZero bytes
  if digits.all (fun b => 0x30 ≤ b && b < 0x38) then
    some (digits.foldl (fun n b => 8 * n + (b.toNat - 0x30)) 0)
  else none

/-- A number in octal digits or, after a byte `0x80`, in base 256 with the highest byte first. -/
def numberValue (bytes : List UInt8) : Option Nat :=
  if bytes.head? = some 0x80 then some (ofBigEndian bytes.tail) else octalValue bytes

def blanked (block : List UInt8) : List UInt8 :=
  block.take 148 ++ List.replicate 8 0x20 ++ block.drop 156

/-- What a header says, and the type of its entry; nothing for a header with another checksum than
its own. -/
def readHeader (block : List UInt8) : Option (Header × UInt8) := do
  let name ← (Utf8.toString? (untilZero (slice block 0 100))).toOption
  let mode ← octalValue (slice block 100 8)
  let size ← octalValue (slice block 124 12)
  let modified ← numberValue (slice block 136 12)
  let checksum ← octalValue (slice block 148 8)
  let type ← block[156]?
  if checksum = byteSum (blanked block) then some ({ name, mode, size, modified }, type) else none

/-- An entry of an archive. -/
structure Stored where
  name : String
  /-- The type of the entry; `'0'` is that of a regular file. -/
  type : UInt8
  mode : Nat
  modified : Nat
  content : List UInt8
  deriving DecidableEq, Repr

/-- The size of the whole blocks that hold contents of the given size. -/
def wholeBlocks (size : Nat) : Nat := (size + 511) / 512 * 512

/-- Reads an entry from the front of an archive: its header, and its contents in whole blocks. -/
def readEntry (bytes : List UInt8) : Option (Stored × List UInt8) := do
  let (header, type) ← readHeader (bytes.take 512)
  let behind := bytes.drop 512
  if 512 ≤ bytes.length ∧ wholeBlocks header.size ≤ behind.length then
    let stored : Stored :=
      { name := header.name
        type
        mode := header.mode
        modified := header.modified
        content := behind.take header.size }
    some (stored, behind.drop (wholeBlocks header.size))
  else none

theorem length_rest_readEntry {bytes rest : List UInt8} {stored : Stored}
    (h : readEntry bytes = some (stored, rest)) : rest.length < bytes.length := by
  rw [readEntry, Option.bind_eq_bind, Option.bind_eq_some_iff] at h
  obtain ⟨header, -, hrest⟩ := h
  simp only at hrest
  split at hrest
  · next hroom =>
      cases hrest
      rw [List.length_drop, List.length_drop]
      omega
  · cases hrest

/-- Reads entries up to two blocks of zeros; gives the entries and what follows the two blocks. -/
def readEntries (bytes : List UInt8) : Option (List Stored × List UInt8) :=
  if bytes.take 1024 = zeros 1024 then some ([], bytes.drop 1024)
  else
    match _h : readEntry bytes with
    | none => none
    | some (stored, rest) => (readEntries rest).map fun (more, after) => (stored :: more, after)
termination_by bytes.length
decreasing_by exact length_rest_readEntry _h

/-! ## Fields of a header -/

theorem slice_zero {front back : List UInt8} {width : Nat} (h : front.length = width) :
    slice (front ++ back) 0 width = front := List.take_left' h

/-- A field is found behind those before it. -/
theorem slice_behind {front back : List UInt8} {n start width : Nat} (h : front.length = n)
    (hle : n ≤ start) : slice (front ++ back) start width = slice back (start - n) width := by
  rw [slice, slice, List.drop_append, List.drop_eq_nil_of_le (by omega), List.nil_append, h]

theorem untilZero_append {text : List UInt8} (h : ∀ b ∈ text, b ≠ 0) (more : List UInt8) :
    untilZero (text ++ 0 :: more) = text := by
  rw [untilZero, List.takeWhile_append_of_pos fun b hb => by simpa using h b hb,
    List.takeWhile_cons_of_neg (by simp), List.append_nil]

def octalDigits (width n : Nat) : List UInt8 :=
  (paddedDigits 8 width n).map fun c => UInt8.ofNat c.toNat

theorem toNat_octalDigit {width n : Nat} {c : Char} (h : c ∈ paddedDigits 8 width n) :
    (UInt8.ofNat c.toNat).toNat = c.toNat ∧ 48 ≤ c.toNat ∧ c.toNat < 56 := by
  obtain ⟨d, hd, rfl⟩ := exists_digit_of_mem_paddedDigits (by decide) h
  have hdigit : d.digitChar.toNat = 48 + d := toNat_digitChar (by omega)
  rw [hdigit, UInt8.toNat_ofNat_of_lt' (by simp only [UInt8.size]; omega)]
  omega

theorem mem_octalDigits {width n : Nat} {b : UInt8} (h : b ∈ octalDigits width n) :
    48 ≤ b.toNat ∧ b.toNat < 56 := by
  obtain ⟨c, hc, rfl⟩ := List.mem_map.mp h
  rw [(toNat_octalDigit hc).1]
  exact (toNat_octalDigit hc).2

theorem foldl_octalDigits (width n : Nat) :
    (octalDigits width n).foldl (fun n b => 8 * n + (b.toNat - 0x30)) 0 = n := by
  calc (octalDigits width n).foldl (fun n b => 8 * n + (b.toNat - 0x30)) 0
      = (paddedDigits 8 width n).foldl
          (fun n c => 8 * n + ((UInt8.ofNat c.toNat).toNat - 0x30)) 0 := List.foldl_map
    _ = Nat.ofDigitChars 8 (paddedDigits 8 width n) 0 := by
        refine List.foldl_ext _ _ _ fun m c hc => ?_
        rw [(toNat_octalDigit hc).1]
        rfl
    _ = n := ofDigitChars_paddedDigits width (by decide) (by decide)

/-- Octal digits that were written are read. -/
theorem octalValue_octal (width n : Nat) : octalValue (octal width n) = some n := by
  have hdigits : untilZero (octal width n) = octalDigits width n := by
    refine untilZero_append (fun b hb hzero => ?_) []
    have := (mem_octalDigits hb).1
    rw [hzero] at this
    exact absurd this (by decide)
  have hall : (octalDigits width n).all (fun b => 0x30 ≤ b && b < 0x38) = true := by
    rw [List.all_eq_true]
    intro b hb
    rw [Bool.and_eq_true, decide_eq_true_eq, decide_eq_true_eq, UInt8.le_iff_toNat_le,
      UInt8.lt_iff_toNat_lt]
    exact mem_octalDigits hb
  simp only [octalValue, hdigits, hall, foldl_octalDigits, if_true]

/-- A number of twelve bytes that was written is read, in either form. -/
theorem numberValue_number {n : Nat} (h : n < Nat.pow 256 11) : numberValue (number n) = some n := by
  rw [number]
  split
  · have hhead : (octal 11 n).head? ≠ some 0x80 := by
      intro hmark
      rcases List.mem_append.mp (List.mem_of_mem_head? hmark) with hdigit | hend
      · exact absurd (mem_octalDigits hdigit).2 (by decide)
      · exact absurd (List.mem_singleton.mp hend) (by decide)
    rw [numberValue, if_neg hhead, octalValue_octal]
  · simp only [numberValue, List.head?_cons, List.tail_cons, if_true, ofBigEndian_toBigEndian h]

theorem length_octal {width n : Nat} (hwidth : 0 < width) (h : n < Nat.pow 8 width) :
    (octal width n).length = width + 1 := by
  rw [octal, List.length_append, List.length_map, length_paddedDigits (by decide) hwidth h,
    List.length_singleton]

theorem length_number (n : Nat) : (number n).length = 12 := by
  rw [number]
  split
  · next h => exact length_octal (by decide) h
  · rw [List.length_cons, length_toBigEndian]

theorem length_field {width : Nat} {bytes : List UInt8} (h : bytes.length ≤ width) :
    (field width bytes).length = width := by
  rw [field, zeros, List.length_append, List.length_replicate]
  omega

theorem untilZero_field {width : Nat} {bytes : List UInt8} (h : bytes.length < width)
    (hbytes : ∀ b ∈ bytes, b ≠ 0) : untilZero (field width bytes) = bytes := by
  rw [field, zeros, ← Nat.succ_pred_eq_of_pos (Nat.sub_pos_of_lt h), List.replicate_succ,
    untilZero_append hbytes]

theorem byteSum_le (bytes : List UInt8) : byteSum bytes ≤ 255 * bytes.length := by
  induction bytes with
  | nil => exact Nat.le_refl 0
  | cons b bytes ih =>
      have hb := b.toNat_lt
      rw [byteSum, List.length_cons]
      omega

/-! ## Headers -/

/-- A header whose values have room in their fields. -/
structure Header.Fits (h : Header) : Prop where
  length_name : (Utf8.ofString h.name).length < 100
  name_ne_zero : ∀ b ∈ Utf8.ofString h.name, b ≠ 0
  mode_lt : h.mode < Nat.pow 8 7
  size_lt : h.size < Nat.pow 8 11
  modified_lt : h.modified < Nat.pow 256 11

namespace Header

variable {h : Header}

theorem length_afterChecksum : afterChecksum.length = 356 := by
  simp only [afterChecksum, List.length_append, zeros, List.length_replicate]
  decide

/-! A header takes one block whenever its name and mode have room: other numbers that octal digits
cannot hold are stored in as many bytes. -/

section Length

variable (hname : (Utf8.ofString h.name).length < 100) (hmode : h.mode < Nat.pow 8 7)
include hname hmode

theorem length_beforeChecksum : h.beforeChecksum.length = 148 := by
  simp only [beforeChecksum, List.length_append, length_field (Nat.le_of_lt hname),
    length_octal (by decide) hmode, length_number, zeros, List.length_replicate]

theorem checksum_lt : h.checksum < Nat.pow 8 7 := by
  have hsum := byteSum_le (h.withChecksum (List.replicate 8 0x20))
  simp only [withChecksum, List.length_append, length_beforeChecksum hname hmode,
    length_afterChecksum, List.length_replicate] at hsum
  exact Nat.lt_of_le_of_lt hsum (by decide)

theorem length_checksum : (octal 7 h.checksum).length = 8 :=
  length_octal (by decide) (checksum_lt hname hmode)

theorem length_bytes : h.bytes.length = 512 := by
  simp only [bytes, withChecksum, List.length_append, length_beforeChecksum hname hmode,
    length_checksum hname hmode, length_afterChecksum]

end Length

/-- The checksum is that of the header with blanks in its place. -/
theorem byteSum_blanked (hfits : h.Fits) : byteSum (blanked h.bytes) = h.checksum := by
  have hbefore : h.bytes.take 148 = h.beforeChecksum := by
    rw [bytes, withChecksum, List.append_assoc]
    exact List.take_left' (length_beforeChecksum hfits.length_name hfits.mode_lt)
  have hafter : h.bytes.drop 156 = afterChecksum := by
    refine List.drop_left' ?_
    rw [List.length_append, length_beforeChecksum hfits.length_name hfits.mode_lt,
      length_checksum hfits.length_name hfits.mode_lt]
  rw [blanked, hbefore, hafter]
  rfl

/-- The type is that of a regular file. -/
theorem getElem?_type (hfits : h.Fits) : h.bytes[156]? = some 0x30 := by
  have hlength : (h.beforeChecksum ++ octal 7 h.checksum).length = 156 := by
    rw [List.length_append, length_beforeChecksum hfits.length_name hfits.mode_lt,
      length_checksum hfits.length_name hfits.mode_lt]
  rw [bytes, withChecksum, List.getElem?_append_right (Nat.le_of_eq hlength), hlength]
  rfl

end Header

/-- **What is read from a header is what it says.** -/
theorem readHeader_bytes {h : Header} (hfits : h.Fits) : readHeader h.bytes = some (h, 0x30) := by
  have hlengthName := length_field (Nat.le_of_lt hfits.length_name)
  have hlengthMode := length_octal (by decide) hfits.mode_lt
  have hparts : h.bytes = field 100 (Utf8.ofString h.name) ++ (octal 7 h.mode ++ (zeros 8 ++
      (zeros 8 ++ (number h.size ++ (number h.modified ++ (octal 7 h.checksum ++
        Header.afterChecksum)))))) := by
    simp only [Header.bytes, Header.withChecksum, Header.beforeChecksum, List.append_assoc]
  -- Each field stands behind those before it, whose lengths add up to its place.
  have hname : slice h.bytes 0 100 = field 100 (Utf8.ofString h.name) := by
    rw [hparts]
    exact slice_zero hlengthName
  have hmode : slice h.bytes 100 8 = octal 7 h.mode := by
    rw [hparts, slice_behind hlengthName (by decide)]
    exact slice_zero hlengthMode
  have hsize : slice h.bytes 124 12 = number h.size := by
    rw [hparts, slice_behind hlengthName (by decide), slice_behind hlengthMode (by decide),
      slice_behind rfl (by decide), slice_behind rfl (by decide)]
    exact slice_zero (length_number h.size)
  have hmodified : slice h.bytes 136 12 = number h.modified := by
    rw [hparts, slice_behind hlengthName (by decide), slice_behind hlengthMode (by decide),
      slice_behind rfl (by decide), slice_behind rfl (by decide),
      slice_behind (length_number h.size) (by decide)]
    exact slice_zero (length_number h.modified)
  have hchecksum : slice h.bytes 148 8 = octal 7 h.checksum := by
    rw [Header.bytes, Header.withChecksum, List.append_assoc,
      slice_behind (Header.length_beforeChecksum hfits.length_name hfits.mode_lt) (by decide)]
    exact slice_zero (Header.length_checksum hfits.length_name hfits.mode_lt)
  have hsizeValue : octalValue (number h.size) = some h.size := by
    rw [number, if_pos hfits.size_lt, octalValue_octal]
  have hnameValue : Utf8.toString? (untilZero (field 100 (Utf8.ofString h.name))) = .ok h.name := by
    rw [untilZero_field hfits.length_name hfits.name_ne_zero]
    exact Utf8.toString?_eq_ok_iff.mpr rfl
  have hmodifiedValue := numberValue_number hfits.modified_lt
  simp only [readHeader, hname, hnameValue, hmode, hsize, hsizeValue, hmodified, hmodifiedValue,
    hchecksum, octalValue_octal, Header.getElem?_type hfits, Header.byteSum_blanked hfits, if_true,
    Except.toOption, Option.bind_eq_bind, Option.bind_some]

/-! ## Entries -/

theorem wholeBlocks_eq (size : Nat) : wholeBlocks size = size + fill size := by
  simp only [wholeBlocks, fill, blockSize]
  omega

/-- **An entry is read together with its contents**, and what follows its blocks is left. -/
theorem readEntry_append {h : Header} (hfits : h.Fits) {content : List UInt8}
    (hsize : content.length = h.size) (more : List UInt8) :
    readEntry (h.bytes ++ content ++ zeros (fill content.length) ++ more) =
      some ({ name := h.name, type := 0x30, mode := h.mode, modified := h.modified, content },
        more) := by
  have hlength := Header.length_bytes hfits.length_name hfits.mode_lt
  have hbytes : h.bytes ++ content ++ zeros (fill content.length) ++ more =
      h.bytes ++ (content ++ (zeros (fill content.length) ++ more)) := by
    simp only [List.append_assoc]
  have hblocks : (content ++ zeros (fill content.length)).length = wholeBlocks h.size := by
    rw [wholeBlocks_eq, ← hsize, List.length_append, zeros, List.length_replicate]
  have hwhole : 512 ≤ (h.bytes ++ (content ++ (zeros (fill content.length) ++ more))).length := by
    rw [List.length_append, hlength]
    exact Nat.le_add_right _ _
  have hroom : wholeBlocks h.size ≤
      (content ++ (zeros (fill content.length) ++ more)).length := by
    rw [← hblocks, ← List.append_assoc]
    exact (List.prefix_append _ more).length_le
  have hrest : (content ++ (zeros (fill content.length) ++ more)).drop (wholeBlocks h.size) =
      more := by
    rw [← List.append_assoc]
    exact List.drop_left' hblocks
  rw [hbytes]
  simp only [readEntry, List.take_left' hlength, readHeader_bytes hfits, List.drop_left' hlength,
    List.take_left' hsize, hrest, Option.bind_eq_bind, Option.bind_some]
  rw [if_pos ⟨hwhole, hroom⟩]

/-- The end of an archive ends the reading. -/
theorem readEntries_trailer (more : List UInt8) :
    readEntries (trailer ++ more) = some ([], more) := by
  have hlength : trailer.length = 1024 := List.length_replicate
  have htrailer : trailer = zeros 1024 := rfl
  rw [readEntries, List.take_left' hlength, List.drop_left' hlength, if_pos htrailer]

/-- An entry comes before the entries that follow it. -/
theorem readEntries_append {h : Header} (hfits : h.Fits) {content : List UInt8}
    (hsize : content.length = h.size) (more : List UInt8) :
    readEntries (h.bytes ++ content ++ zeros (fill content.length) ++ more) =
      (readEntries more).map fun (stored, after) =>
        ({ name := h.name, type := 0x30, mode := h.mode, modified := h.modified, content } :: stored,
          after) := by
  -- Byte 156 of a header, the entry's type, is not zero: a header never reads as the end mark.
  have hnonzero : (h.bytes ++ content ++ zeros (fill content.length) ++ more).take 1024 ≠
      zeros 1024 := by
    intro hzeros
    have hlt : 156 < h.bytes.length := by
      rw [Header.length_bytes hfits.length_name hfits.mode_lt]
      decide
    have htype := congrArg (fun block => block[156]?) hzeros
    simp only [List.append_assoc] at htype
    rw [List.getElem?_take_of_lt (by decide), List.getElem?_append_left hlt,
      Header.getElem?_type hfits, zeros, List.getElem?_replicate_of_lt (by decide)] at htype
    cases htype
  rw [readEntries, if_neg hnonzero]
  split
  · next hnone =>
      rw [readEntry_append hfits hsize] at hnone
      cases hnone
  · next stored rest hsome =>
      rw [readEntry_append hfits hsize] at hsome
      cases hsome
      rfl

end EventLog.Tar
