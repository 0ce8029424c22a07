import TreeSitterTextStorage.Storage.EditRuns

/-! # The description of an edit

What the `TSInputEdit` of `replaceCharacters(in:with:)` should say about the bytes that the input
serves, and what it says. It starts at the right byte; but it gives numbers of units and of characters
where the runtime expects numbers of bytes, and the positions of a node where it expects extents. -/

namespace TreeSitterTextStorage

/-! ## Extents -/

/-- The position behind a text that starts at a position: a line end starts a row, and every other
code point takes a column. The column of a surrogate pair is counted at its second half. -/
def positionBehind : TSPoint → Text → TSPoint
  | position, [] => position
  | position, unit :: rest =>
      if unit = 10 then positionBehind ⟨position.row + 1, 0⟩ rest
      else if startsWithPair (unit :: rest) then positionBehind position rest
      else positionBehind ⟨position.row, position.column + 1⟩ rest

/-- The rows and columns that a text spans. -/
def extent (text : Text) : TSPoint := positionBehind TSPoint.zero text

namespace TextStorage

/-- The units that an edit removes. -/
def Edit.removed (text : Text) (edit : Edit) : Text :=
  (text.drop edit.range.location).take edit.range.length

/-! ## Exact descriptions -/

/-- An edit description that says exactly how an edit of a text changes the bytes that are served. -/
structure Describes (served served' : List UInt8) (text : Text) (edit : Edit)
    (description : TSInputEdit) : Prop where
  /-- The removed bytes lie in the old bytes. -/
  removed_le : description.startByte + description.bytesRemoved ≤ served.length
  /-- The bytes in front of the edit stay. -/
  front_eq : served'.take description.startByte = served.take description.startByte
  /-- The bytes behind the removed ones stand behind the added ones. -/
  tail_eq : served'.drop (description.startByte + description.bytesAdded) =
    served.drop (description.startByte + description.bytesRemoved)
  /-- The number of removed bytes. -/
  bytesRemoved_eq : description.bytesRemoved = (utf16Bytes (edit.removed text)).length
  /-- The number of added bytes. -/
  bytesAdded_eq : description.bytesAdded = (utf16Bytes edit.str).length
  /-- The position of the edit's start. -/
  startPoint_eq : description.startPoint = extent (text.take edit.range.location)
  /-- The rows and columns of the removed text. -/
  extentRemoved_eq : description.extentRemoved = extent (edit.removed text)
  /-- The rows and columns of the inserted text. -/
  extentAdded_eq : description.extentAdded = extent edit.str

/-- A call of `replaceCharacters(in:with:)` completes and hands an exact description to the
runtime. -/
def EditDescribed (breaks : GraphemeBreaks) (before : TextStorage) (edit : Edit) : Prop :=
  ∃ text notice after, before.string = some text ∧
    editStep breaks before edit = some (notice, after) ∧
    Describes before.document.input.served after.document.input.served text edit notice.edit

variable {breaks : GraphemeBreaks} {before after : TextStorage} {text : Text} {edit : Edit}
  {notice : Notice}

/-- The start of the description is right: it is the byte of the edit's location, and the bytes in
front of it stay. -/
theorem description_start (hdata : before.document.input.data = utf16Data text)
    (h : editStep breaks before edit = some (notice, after)) :
    notice.edit.startByte = (utf16Bytes (text.take edit.range.location)).length ∧
      after.document.input.served.take notice.edit.startByte =
        before.document.input.served.take notice.edit.startByte := by
  obtain ⟨hwithin, hafter⟩ := data_editStep hdata h
  obtain ⟨-, -, -, -, -, -, -, -, -, -, hstart, -⟩ := replaceCharacters_eq_some h
  have hserved : before.document.input.served = utf16Bytes text := by
    rw [Input.served, hdata, drop_utf16Data]
  have hserved' : after.document.input.served = utf16Bytes (edit.apply text) := by
    rw [Input.served, hafter, drop_utf16Data]
  have htake : ∀ t : Text, (utf16Bytes t).take (2 * edit.range.location) =
      utf16Bytes (t.take edit.range.location) :=
    Splice.take_flatMap_of_width length_unitBytes edit.range.location
  constructor
  · rw [hstart, length_utf16Bytes, List.length_take, Nat.min_eq_left (by omega)]
  · rw [hserved, hserved', hstart, htake, htake, Edit.apply, Splice.take_splice _ _ (by omega)]

/-- **No edit is described.** Every call that completes has a replacement, and gives the number of its
characters where the runtime expects the number of its bytes. -/
theorem not_editDescribed (breaks : GraphemeBreaks) (before : TextStorage) (edit : Edit) :
    ¬ EditDescribed breaks before edit := by
  rintro ⟨text, notice, after, -, hstep, hdescribes⟩
  obtain ⟨-, -, hcount, -, -, -, -, -, -, -, -, -, hadded⟩ := replaceCharacters_eq_some hstep
  have hunits := characterCount_le_length breaks edit.str
  -- a call that completes has at least one character, so twice as many bytes as units are more
  have hbytes := hdescribes.bytesAdded_eq
  rw [hadded, length_utf16Bytes] at hbytes
  omega

/-- The insertion of `2` behind `1` is described as the insertion of one byte. -/
theorem not_editDescribed_insert :
    ¬ ∀ (breaks : GraphemeBreaks) (before : TextStorage) (text : Text) (edit : Edit),
      before.document.input.data = utf16Data text →
        edit.range.location + edit.range.length ≤ text.length →
          EditDescribed breaks before edit := by
  intro hall
  obtain ⟨text, notice, after, -, hstep, hdescribes⟩ := hall (fun _ _ => true) oneStorage oneText
    ⟨⟨1, 0⟩, [0x32]⟩ rfl (by decide)
  have hadded : (editStep (fun _ _ => true) oneStorage ⟨⟨1, 0⟩, [0x32]⟩).map
      (fun result => result.1.edit.bytesAdded) = some 1 := by decide +kernel
  rw [hstep, Option.map_some, Option.some.injEq] at hadded
  have hbytes := hdescribes.bytesAdded_eq
  rw [hadded] at hbytes
  exact absurd hbytes (by decide)

end TextStorage

end TreeSitterTextStorage
