import TreeSitterTextStorage.Foundation.Buffer
import TreeSitterTextStorage.Runtime.Lexer

/-! # The input callbacks

`Input.swift`: the buffer a document reads from and the callbacks that serve it to the lexer. A read
hands out everything from the current position to the end at once. -/

namespace TreeSitterTextStorage

/-- `Input`. The number of edits is not stored by the program; it dates the pointers that `read`
hands out. -/
structure Input where
  /-- The buffer: a byte-order mark and the text. -/
  data : Data
  /-- The position of the next read, in bytes behind the byte-order mark. -/
  position : ℕ
  /-- The number of edits made to the buffer. -/
  edits : ℕ := 0
  deriving DecidableEq, Repr

namespace Input

/-- `Input.init(data:)`. -/
def init (data : Data) : Input := { data := data, position := 0 }

/-- `Input.length`, which traps on a buffer without byte-order mark and on one too large. -/
def length (input : Input) : Option ℕ := toUInt32 ((input.data.length : ℤ) - 2)

/-- The bytes the lexer reads: the buffer behind its byte-order mark. -/
def served (input : Input) : List UInt8 := input.data.drop 2

/-- The edit of a document's buffer, `input.data.replaceCharactersInRange(_:replacementText:)`. -/
def replaceCharactersInRange (input : Input) (range : NSRange) (replacementText : Text) :
    Option Input := do
  let data ← input.data.replaceCharactersInRange range replacementText
  some { input with data := data, edits := input.edits + 1 }

theorem length_served (input : Input) : input.served.length = input.data.length - 2 :=
  List.length_drop

/-- The length is the number of bytes served. -/
theorem length_eq_some_iff {input : Input} {n : ℕ} :
    input.length = some n ↔ 2 ≤ input.data.length ∧ n = input.served.length ∧ n < 2 ^ 32 := by
  rw [length, toUInt32_eq_some_iff, length_served]
  omega

theorem length_eq_some {input : Input} (hmark : 2 ≤ input.data.length)
    (hbound : input.served.length < 2 ^ 32) : input.length = some input.served.length :=
  length_eq_some_iff.mpr ⟨hmark, rfl, hbound⟩

end Input

/-! ## The callbacks -/

/-- `read`. -/
def read (input : Input) : Option ((Pointer × ℕ) × Input) := do
  let length ← input.length
  if input.position ≥ length then
    -- `strdup("")`
    some ((⟨[0], 0, input.edits⟩, 0), input)
  else
    let previousPosition := input.position
    let input := { input with position := length }
    let count ← subUInt32 input.position previousPosition
    some ((⟨input.data, 2 + previousPosition, input.edits⟩, count), input)

/-- `seek`. -/
def seek (input : Input) (_character byte : ℕ) : Option (ℤ × Input) := do
  let input := { input with position := byte }
  let length ← input.length
  some (if byte < length then 1 else 0, input)

/-- `asTSInput`. -/
def asTSInput : TSInput Input where
  read := read
  seek := seek
  measureColumnsInBytes := false

section Callbacks

variable {input : Input} (hmark : 2 ≤ input.data.length) (hbound : input.served.length < 2 ^ 32)
include hmark hbound

/-- A read behind the end returns no bytes. -/
theorem read_of_le (h : input.served.length ≤ input.position) :
    read input = some ((⟨[0], 0, input.edits⟩, 0), input) := by
  rw [read, Input.length_eq_some hmark hbound]
  simp only [Option.bind_eq_bind, Option.bind_some]
  rw [if_pos h]

/-- A read inside the text returns everything up to the end. -/
theorem read_of_lt (h : input.position < input.served.length) :
    read input = some ((⟨input.data, 2 + input.position, input.edits⟩,
      input.served.length - input.position), { input with position := input.served.length }) := by
  rw [read, Input.length_eq_some hmark hbound]
  simp only [Option.bind_eq_bind, Option.bind_some]
  rw [if_neg (not_le.mpr h), subUInt32, if_pos (Nat.le_of_lt h), Option.bind_some]

/-- A seek sets the position. -/
theorem seek_eq (character byte : ℕ) :
    seek input character byte = some (if byte < input.served.length then 1 else 0,
      { input with position := byte }) := by
  have hlength : ({ input with position := byte } : Input).length = some input.served.length :=
    Input.length_eq_some hmark hbound
  rw [seek]
  simp only [Option.bind_eq_bind, hlength, Option.bind_some]

end Callbacks

/-- **A read stays inside the buffer**: the bytes it returns are bytes of the buffer, behind the
byte-order mark. -/
theorem read_within {input next : Input} {pointer : Pointer} {count : ℕ}
    (h : read input = some ((pointer, count), next)) :
    pointer.offset + count ≤ pointer.storage.length ∧
      (count ≠ 0 → pointer.storage = input.data ∧ 2 ≤ pointer.offset) := by
  obtain ⟨length, hlength, -⟩ := Option.bind_eq_some_iff.mp (by rw [← h]; rfl)
  obtain ⟨hmark, rfl, hbound⟩ := Input.length_eq_some_iff.mp hlength
  by_cases hposition : input.position < input.served.length
  · rw [read_of_lt hmark hbound hposition, Option.some.injEq, Prod.mk.injEq, Prod.mk.injEq] at h
    obtain ⟨⟨rfl, rfl⟩, -⟩ := h
    rw [Input.length_served] at hposition ⊢
    exact ⟨by simp only; omega, fun _ => ⟨rfl, by simp only; omega⟩⟩
  · rw [read_of_le hmark hbound (not_lt.mp hposition), Option.some.injEq, Prod.mk.injEq,
      Prod.mk.injEq] at h
    obtain ⟨⟨rfl, rfl⟩, -⟩ := h
    exact ⟨Nat.zero_le _, fun hzero => absurd rfl hzero⟩

end TreeSitterTextStorage
