import TreeSitterTextStorage.Foundation.Ranges

/-! # Points, lengths and edits of the runtime

The arithmetic of `point.h` and `length.h`, and the edit description `TSInputEdit`. Bytes, rows and
columns wrap at 32 bits because an edit description can make them underflow. Character counts are only
ever added up along a text shorter than that, so they do not. -/

namespace TreeSitterTextStorage

/-- `TSPoint`: a row and a column. -/
structure TSPoint where
  /-- The number of line ends passed. -/
  row : ℕ
  /-- The number of characters since the last line end. -/
  column : ℕ
  deriving DecidableEq, Repr

/-- `Point.zero`. -/
def TSPoint.zero : TSPoint := ⟨0, 0⟩

/-- `point_add`. -/
def pointAdd (a b : TSPoint) : TSPoint :=
  if b.row > 0 then ⟨wrapAdd a.row b.row, b.column⟩ else ⟨a.row, wrapAdd a.column b.column⟩

/-- `point_sub`. -/
def pointSub (a b : TSPoint) : TSPoint :=
  if a.row > b.row then ⟨wrapSub a.row b.row, a.column⟩ else ⟨0, wrapSub a.column b.column⟩

/-- `point_min`. -/
def pointMin (a b : TSPoint) : TSPoint :=
  if a.row < b.row ∨ (a.row = b.row ∧ a.column < b.column) then a else b

/-- `Length`: the extent of a piece of text in the runtime's three measures. -/
structure Length where
  /-- The number of bytes. -/
  bytes : ℕ
  /-- The number of characters, code points of the decoded text; `0` when they are unknown. -/
  chars : ℕ
  /-- The rows and columns. -/
  extent : TSPoint
  deriving DecidableEq, Repr

/-- `length_zero`. -/
def Length.zero : Length := ⟨0, 0, ⟨0, 0⟩⟩

/-- `length_has_unknown_chars`. -/
def Length.hasUnknownChars (self : Length) : Bool := decide (self.bytes > 0 ∧ self.chars = 0)

/-- `length_set_unknown_chars`. -/
def Length.setUnknownChars (self : Length) : Length := { self with chars := 0 }

/-- `length_add`. The characters do not wrap. -/
def lengthAdd (a b : Length) : Length where
  bytes := wrapAdd a.bytes b.bytes
  extent := pointAdd a.extent b.extent
  chars := if a.hasUnknownChars || b.hasUnknownChars then 0 else a.chars + b.chars

/-- `length_sub`. -/
def lengthSub (a b : Length) : Length where
  bytes := wrapSub a.bytes b.bytes
  extent := pointSub a.extent b.extent
  chars := if a.hasUnknownChars || b.hasUnknownChars then 0 else wrapSub a.chars b.chars

/-- `TSInputEdit`: what the runtime is told about an edit of its input. -/
structure TSInputEdit where
  /-- The byte at which the edit starts. -/
  startByte : ℕ
  /-- The number of bytes removed there. -/
  bytesRemoved : ℕ
  /-- The number of bytes inserted there. -/
  bytesAdded : ℕ
  /-- The position of the edit's start. -/
  startPoint : TSPoint
  /-- The rows and columns of the removed text. -/
  extentRemoved : TSPoint
  /-- The rows and columns of the inserted text. -/
  extentAdded : TSPoint
  deriving DecidableEq, Repr

end TreeSitterTextStorage
