import TreeSitterTextStorage.Foundation.Text

/-! # Editing the text buffer

`Data.replaceCharactersInRange` of `Extensions.swift`: the in-place edit of a UTF-16 buffer that pads
the buffer when the text grows, moves the tail to its new place and then overwrites the range. Its
one specification says that the edit is a splice of bytes whenever the range lies inside the buffer,
and traps otherwise. -/

namespace TreeSitterTextStorage

open Splice

namespace Data

/-- `Data.subdata(in: lower ..< upper)`, which traps unless the range lies inside the data. -/
def subdata (data : Data) (lower upper : ℤ) : Option Data :=
  if 0 ≤ lower ∧ lower ≤ upper ∧ upper ≤ data.length then
    some ((data.take upper.toNat).drop lower.toNat)
  else none

/-- `Data.replaceSubrange(lower ..< upper, with: bytes)`, which traps unless the range lies inside the
data. -/
def replaceSubrange (data : Data) (lower upper : ℤ) (bytes : Data) : Option Data :=
  if 0 ≤ lower ∧ lower ≤ upper ∧ upper ≤ data.length then
    some (splice lower.toNat upper.toNat bytes data)
  else none

/-- `Data.replaceCharactersInRange(_:replacementText:)` on a platform of the byte order. -/
def replaceCharactersUsing (order : ByteOrder) (data : Data) (range : NSRange)
    (replacementText : Text) : Option Data := do
  let padding : ℤ := 2
  let lowerBound : ℤ := range.location * 2 + padding
  let upperBound : ℤ := lowerBound + range.length * 2
  let r := order.data replacementText
  let replacement ← subdata r padding r.length
  let delta : ℤ := replacement.length - (upperBound - lowerBound)
  let endStringStart := upperBound + delta
  let endstring ← subdata data upperBound data.length
  -- first the tail moves to its new place, then the range is overwritten
  let data := if delta > 0 then data ++ List.replicate delta.toNat 0 else data
  let data ← replaceSubrange data endStringStart data.length endstring
  replaceSubrange data lowerBound (lowerBound + replacement.length) replacement

/-- `Data.replaceCharactersInRange(_:replacementText:)`. -/
def replaceCharactersInRange (data : Data) (range : NSRange) (replacementText : Text) :
    Option Data :=
  replaceCharactersUsing .littleEndian data range replacementText

/-- The replacement loses its byte-order mark. -/
theorem subdata_data (order : ByteOrder) (text : Text) :
    subdata (order.data text) 2 (order.data text).length = some (order.bytes text) := by
  rw [subdata, if_pos (by rw [order.length_data]; omega), Int.toNat_natCast, List.take_length]
  exact congrArg some (order.drop_data text)

/-- The tail of a buffer from a position inside it. -/
theorem subdata_tail {data : Data} {lower : ℕ} (h : lower ≤ data.length) :
    subdata data lower data.length = some (data.drop lower) := by
  rw [subdata, if_pos (by omega), Int.toNat_natCast, Int.toNat_natCast, List.take_length]

/-- A tail cannot start behind the end of the buffer. -/
theorem subdata_eq_none {data : Data} {lower : ℕ} (h : data.length < lower) :
    subdata data lower data.length = none := by
  rw [subdata, if_neg (by omega)]

theorem replaceSubrange_natCast {data : Data} {lower upper : ℕ} (bytes : Data) (h : lower ≤ upper)
    (h' : upper ≤ data.length) :
    replaceSubrange data lower upper bytes = some (splice lower upper bytes data) := by
  rw [replaceSubrange, if_pos (by omega), Int.toNat_natCast, Int.toNat_natCast]

/-- The two writes of the edit: the tail goes to its new place in a buffer that agrees with the old
one below `lower`, and the replacement goes between. -/
theorem splice_tail_splice {old new tail replacement : Data} {lower : ℕ}
    (hfront : new.take lower = old.take lower)
    (hfits : lower + replacement.length ≤ new.length) :
    splice lower (lower + replacement.length) replacement
        (splice (lower + replacement.length) new.length tail new) =
      old.take lower ++ replacement ++ tail := by
  have hmoved : splice (lower + replacement.length) new.length tail new =
      new.take (lower + replacement.length) ++ tail := by
    rw [splice, List.drop_length, List.append_nil]
  have hlen : (new.take (lower + replacement.length)).length = lower + replacement.length := by
    rw [List.length_take]; omega
  rw [hmoved, splice, List.take_append_of_le_length (by omega), List.take_take,
    Nat.min_eq_left (by omega), hfront, List.drop_append_of_le_length (by omega)]
  rw [List.drop_eq_nil_of_le (by omega), List.nil_append]

/-- **The buffer edit is a splice of bytes**, for every buffer that reaches to the end of the
range; on a shorter buffer it traps. -/
theorem replaceCharactersUsing_eq (order : ByteOrder) (data : Data) (range : NSRange)
    (replacementText : Text) :
    replaceCharactersUsing order data range replacementText =
      if 2 * (range.location + range.length) + 2 ≤ data.length then
        some (splice (2 * range.location + 2) (2 * (range.location + range.length) + 2)
          (order.bytes replacementText) data)
      else none := by
  set lower : ℕ := 2 * range.location + 2 with hlower
  set upper : ℕ := 2 * (range.location + range.length) + 2 with hupper
  have hlower' : (range.location : ℤ) * 2 + 2 = (lower : ℤ) := by omega
  have hupper' : (lower : ℤ) + range.length * 2 = (upper : ℤ) := by omega
  simp only [replaceCharactersUsing, Option.bind_eq_bind, subdata_data, Option.bind_some,
    hlower', hupper']
  by_cases h : upper ≤ data.length
  · rw [if_pos h, subdata_tail h, Option.bind_some]
    set bytes := order.bytes replacementText with hbytes
    set delta : ℤ := (bytes.length : ℤ) - ((upper : ℤ) - lower) with hdelta
    -- the padded buffer agrees with the old one up to the range, and the tail fits behind it
    set padded := if delta > 0 then data ++ List.replicate delta.toNat 0 else data with hpadded
    have hfront : padded.take lower = data.take lower := by
      rw [hpadded]
      split
      · exact List.take_append_of_le_length (by omega)
      · rfl
    have hfits : lower + bytes.length ≤ padded.length := by
      rw [hpadded]
      split
      · rw [List.length_append, List.length_replicate]; omega
      · omega
    have hstart : (upper : ℤ) + delta = ((lower + bytes.length : ℕ) : ℤ) := by omega
    rw [hstart, replaceSubrange_natCast _ hfits le_rfl, Option.bind_some]
    have hend : (lower : ℤ) + bytes.length = ((lower + bytes.length : ℕ) : ℤ) := by omega
    have hfits' : lower + bytes.length ≤
        (splice (lower + bytes.length) padded.length (data.drop upper) padded).length := by
      rw [splice, List.length_append, List.length_append, List.length_take]; omega
    rw [hend, replaceSubrange_natCast _ (by omega) hfits',
      splice_tail_splice hfront hfits, splice]
  · rw [if_neg h, subdata_eq_none (by omega), Option.bind_none]

/-- **The buffer edit is a splice of units**: behind a byte-order mark of two bytes, an edit inside the
text leaves the bytes of the spliced text, and an edit that reaches beyond the text traps. -/
theorem replaceCharactersUsing_marked (order : ByteOrder) {mark : Data} (hmark : mark.length = 2)
    (text : Text) (range : NSRange) (replacementText : Text) :
    replaceCharactersUsing order (mark ++ order.bytes text) range replacementText =
      if range.location + range.length ≤ text.length then
        some (mark ++ order.bytes
          (splice range.location (range.location + range.length) replacementText text))
      else none := by
  rw [replaceCharactersUsing_eq, List.length_append, hmark, order.length_bytes]
  by_cases h : range.location + range.length ≤ text.length
  · rw [if_pos h, if_pos (by omega), Option.some.injEq, ← order.splice_bytes, ← splice_append_left,
      hmark, Nat.add_comm 2, Nat.add_comm 2]
  · rw [if_neg h, if_neg (by omega)]

/-- The buffer edit on the data of a text. -/
theorem replaceCharactersInRange_utf16Data (text : Text) (range : NSRange)
    (replacementText : Text) :
    replaceCharactersInRange (utf16Data text) range replacementText =
      if range.location + range.length ≤ text.length then
        some (utf16Data (splice range.location (range.location + range.length) replacementText text))
      else none :=
  replaceCharactersUsing_marked .littleEndian rfl text range replacementText

end Data

end TreeSitterTextStorage
