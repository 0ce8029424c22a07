import TreeSitterTextStorage.Foundation.Ranges
import TreeSitterTextStorage.Library.Splice

/-! # Strings and their UTF-16 data

A string is the list of its UTF-16 units, which is what `NSString` indexes and what `NSRange` counts;
nothing asks that surrogates be paired. `data(using: .utf16)` writes a 2-byte byte-order mark followed
by the units in the byte order of the platform, which is little-endian where no other is named, and
`String(data:encoding:)` reads such data back. Characters are grapheme clusters: where clusters end is
a parameter, the Unicode rule of the standard library. -/

namespace TreeSitterTextStorage

open Splice

/-- A string, as the list of its UTF-16 units. -/
abbrev Text := List UInt16

/-- Foundation's `Data`: a buffer of bytes. -/
abbrev Data := List UInt8

/-! ## Encoding -/

/-- The two bytes of a UTF-16 unit, the low one first. -/
def unitBytes (unit : UInt16) : List UInt8 :=
  [UInt8.ofNat (unit.toNat % 256), UInt8.ofNat (unit.toNat / 256)]

/-- The UTF-16 unit of two bytes, the low one first. -/
def unitOfBytes (low high : UInt8) : UInt16 := UInt16.ofNat (low.toNat + 256 * high.toNat)

@[simp] theorem length_unitBytes (unit : UInt16) : (unitBytes unit).length = 2 := rfl

/-- A unit is read back from its bytes. -/
@[simp] theorem unitOfBytes_unitBytes (unit : UInt16) :
    unitOfBytes (UInt8.ofNat (unit.toNat % 256)) (UInt8.ofNat (unit.toNat / 256)) = unit := by
  have hunit : unit.toNat < 65536 := unit.toNat_lt
  have hlow : (UInt8.ofNat (unit.toNat % 256)).toNat = unit.toNat % 256 := by
    rw [UInt8.toNat_ofNat']; omega
  have hhigh : (UInt8.ofNat (unit.toNat / 256)).toNat = unit.toNat / 256 := by
    rw [UInt8.toNat_ofNat']; omega
  rw [unitOfBytes, hlow, hhigh]
  apply UInt16.toNat_inj.mp
  rw [UInt16.toNat_ofNat']
  omega

/-- The bytes of a string's units. -/
def utf16Bytes (text : Text) : List UInt8 := text.flatMap unitBytes

/-- The number of bytes of a string's units: `lengthOfBytes(using: .utf16)`. -/
@[simp] theorem length_utf16Bytes (text : Text) : (utf16Bytes text).length = 2 * text.length :=
  length_flatMap_of_width length_unitBytes text

theorem utf16Bytes_cons (unit : UInt16) (rest : Text) :
    utf16Bytes (unit :: rest) = unitBytes unit ++ utf16Bytes rest := List.flatMap_cons

/-- Dropping the bytes of whole units is dropping units. -/
theorem drop_utf16Bytes (n : ℕ) (text : Text) :
    (utf16Bytes text).drop (2 * n) = utf16Bytes (text.drop n) :=
  drop_flatMap_of_width length_unitBytes n text

/-- The little-endian byte-order mark. -/
def byteOrderMark : Data := [0xFF, 0xFE]

/-- `data(using: .utf16)`: the byte-order mark followed by the units. -/
def utf16Data (text : Text) : Data := byteOrderMark ++ utf16Bytes text

@[simp] theorem length_utf16Data (text : Text) : (utf16Data text).length = 2 * text.length + 2 := by
  rw [utf16Data, List.length_append, length_utf16Bytes, Nat.add_comm]
  rfl

theorem take_utf16Data (text : Text) : (utf16Data text).take 2 = byteOrderMark := rfl

/-- The bytes behind the byte-order mark. -/
theorem drop_utf16Data (text : Text) : (utf16Data text).drop 2 = utf16Bytes text := rfl

/-! ## Byte orders -/

/-- The byte order in which `data(using: .utf16)` writes, which is that of the platform. -/
inductive ByteOrder where
  | littleEndian
  | bigEndian
  deriving DecidableEq, Repr

namespace ByteOrder

/-- The byte-order mark. -/
def mark : ByteOrder → Data
  | littleEndian => byteOrderMark
  | bigEndian => [0xFE, 0xFF]

/-- The two bytes of a UTF-16 unit. -/
def unitBytes : ByteOrder → UInt16 → Data
  | littleEndian, unit => TreeSitterTextStorage.unitBytes unit
  | bigEndian, unit => (TreeSitterTextStorage.unitBytes unit).reverse

@[simp] theorem length_mark (order : ByteOrder) : order.mark.length = 2 := by cases order <;> rfl

@[simp] theorem length_unitBytes (order : ByteOrder) (unit : UInt16) :
    (order.unitBytes unit).length = 2 := by
  cases order <;> rfl

/-- The bytes of a string's units. -/
def bytes (order : ByteOrder) (text : Text) : Data := text.flatMap order.unitBytes

/-- `data(using: .utf16)` on a platform of the byte order. -/
def data (order : ByteOrder) (text : Text) : Data := order.mark ++ order.bytes text

@[simp] theorem length_bytes (order : ByteOrder) (text : Text) :
    (order.bytes text).length = 2 * text.length :=
  length_flatMap_of_width order.length_unitBytes text

theorem length_data (order : ByteOrder) (text : Text) :
    (order.data text).length = 2 * text.length + 2 := by
  rw [data, List.length_append, length_mark, length_bytes, Nat.add_comm]

/-- The bytes behind the byte-order mark. -/
theorem drop_data (order : ByteOrder) (text : Text) : (order.data text).drop 2 = order.bytes text :=
  List.drop_left' order.length_mark

/-- Splicing the bytes of whole units is splicing units. -/
theorem splice_bytes (order : ByteOrder) (lo hi : ℕ) (r text : Text) :
    splice (2 * lo) (2 * hi) (order.bytes r) (order.bytes text) = order.bytes (splice lo hi r text) :=
  splice_flatMap_of_width order.length_unitBytes lo hi r text

end ByteOrder

/-! ## Decoding -/

/-- Read bytes as UTF-16 units; an odd number of bytes is no text. -/
def unitsOfBytes : List UInt8 → Option Text
  | [] => some []
  | [_] => none
  | low :: high :: rest => (unitsOfBytes rest).map (unitOfBytes low high :: ·)

/-- `String(data:encoding: .utf16)` on data that starts with a byte-order mark, as every buffer of
the program does. -/
def decodeUtf16 (data : Data) : Option Text :=
  if data.take 2 = byteOrderMark then unitsOfBytes (data.drop 2) else none

/-- Units are read back from their bytes. -/
theorem unitsOfBytes_utf16Bytes (text : Text) : unitsOfBytes (utf16Bytes text) = some text := by
  induction text with
  | nil => rfl
  | cons unit rest ih =>
      rw [utf16Bytes_cons, unitBytes, List.cons_append, List.cons_append, List.nil_append,
        unitsOfBytes, ih, Option.map_some, unitOfBytes_unitBytes]

/-- **Round trip**: a string is read back from its data. -/
@[simp] theorem decodeUtf16_utf16Data (text : Text) : decodeUtf16 (utf16Data text) = some text := by
  rw [decodeUtf16, if_pos (take_utf16Data text), drop_utf16Data, unitsOfBytes_utf16Bytes]

/-! ## Characters -/

/-- The grapheme-cluster rule: whether a character ends between the units `before` and the units
`after` of a string. -/
abbrev GraphemeBreaks := Text → Text → Bool

variable (breaks : GraphemeBreaks)

/-- The number of character boundaries inside a string whose units `before` have been passed. -/
def countBreaks : Text → Text → ℕ
  | _, [] => 0
  | before, unit :: rest =>
      (if breaks before (unit :: rest) then 1 else 0) + countBreaks (before ++ [unit]) rest

/-- `characters.count`: the number of grapheme clusters of a string. -/
def characterCount : Text → ℕ
  | [] => 0
  | unit :: rest => 1 + countBreaks breaks [unit] rest

/-- There is at most one boundary in front of every unit. -/
theorem countBreaks_le_length (before text : Text) :
    countBreaks breaks before text ≤ text.length := by
  induction text generalizing before with
  | nil => exact le_rfl
  | cons unit rest ih =>
      have hrest := ih (before ++ [unit])
      rw [countBreaks, List.length_cons]
      split <;> omega

/-- A string has at most as many characters as UTF-16 units. -/
theorem characterCount_le_length (text : Text) : characterCount breaks text ≤ text.length := by
  cases text with
  | nil => exact le_rfl
  | cons unit rest =>
      have hrest := countBreaks_le_length breaks [unit] rest
      rw [characterCount, List.length_cons]
      omega

end TreeSitterTextStorage
