import EventLog.Bytes.LittleEndian
import EventLog.Text.Digits
import EventLog.Text.Utf8

set_option autoImplicit false

/-! # Tar headers

A tar archive is a sequence of blocks of 512 bytes. An entry is a header block followed by the
contents, filled up with zeros to whole blocks; two blocks of zeros end the archive.

The header is that of the GNU format for a regular file: name, mode, owner and group zero, size,
date, checksum, type, and the mark `ustar`. Numbers are octal digits; a size or date that eleven
digits cannot hold is stored as bytes, highest first, after a byte `0x80`. The checksum is the sum
of all bytes of the header, where its own eight bytes count as blanks.
-/

namespace EventLog.Tar

def blockSize : Nat := 512

def zeros (n : Nat) : List UInt8 := List.replicate n 0

def field (width : Nat) (bytes : List UInt8) : List UInt8 := bytes ++ zeros (width - bytes.length)

/-- The octal digits of a number, at least `width` of them, and a zero byte. -/
def octal (width n : Nat) : List UInt8 :=
  (paddedDigits 8 width n).map (fun c => UInt8.ofNat c.toNat) ++ [0]

/-- A number in twelve bytes. -/
def number (n : Nat) : List UInt8 := if n < Nat.pow 8 11 then octal 11 n else 0x80 :: toBigEndian 11 n

def byteSum : List UInt8 → Nat
  | [] => 0
  | b :: bs => b.toNat + byteSum bs

/-- What a header says about an entry. -/
structure Header where
  name : String
  mode : Nat
  size : Nat
  modified : Nat
  deriving DecidableEq, Repr

namespace Header

def beforeChecksum (h : Header) : List UInt8 :=
  field 100 (Utf8.ofString h.name) ++ octal 7 h.mode ++ zeros 8 ++ zeros 8 ++ number h.size ++
    number h.modified

/-- The bytes after the checksum: the type of a regular file, the name of a link, the mark, and
the fields that are left empty. -/
def afterChecksum : List UInt8 :=
  Utf8.ofString "0" ++ zeros 100 ++ Utf8.ofString "ustar  " ++ zeros 248

def withChecksum (h : Header) (checksum : List UInt8) : List UInt8 :=
  h.beforeChecksum ++ checksum ++ afterChecksum

/-- The sum of the bytes of a header, whose checksum field counts as blanks. -/
def checksum (h : Header) : Nat :=
  -- The field that will hold the sum counts as eight blanks.
  byteSum (h.withChecksum (List.replicate 8 0x20))

def bytes (h : Header) : List UInt8 := h.withChecksum (octal 7 h.checksum)

end Header

/-- The number of zeros after contents of the given size. -/
def fill (size : Nat) : Nat := (blockSize - size % blockSize) % blockSize

def trailer : List UInt8 := zeros (2 * blockSize)

end EventLog.Tar
