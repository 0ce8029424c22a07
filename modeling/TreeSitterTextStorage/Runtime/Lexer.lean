import TreeSitterTextStorage.Runtime.Length
import TreeSitterTextStorage.Runtime.Utf16

/-! # The lexer's reading of its input

The part of `lexer.c` that reads text: the lexer pulls chunks of bytes through the two callbacks of
its `TSInput`, keeps a chunk for as long as its position falls inside it, and decodes one code point
ahead. What it is told by generated parsers, its log and its external tokens are left out. -/

namespace TreeSitterTextStorage

/-! ## Chunks -/

/-- A pointer as the callbacks hand it out. `edits` is no part of the program: it is the number of
edits of the payload's text at the time, so that a later proof can tell how old a chunk is. -/
structure Pointer where
  /-- The bytes of the allocation the pointer points into, as they are when it is handed out. -/
  storage : List UInt8
  /-- The position of the byte it points at. -/
  offset : ℕ
  /-- The edits made before the pointer was handed out. -/
  edits : ℕ
  deriving DecidableEq, Repr

/-- `TSInput`: the callbacks that serve the text of a payload. Every input of the program has the
encoding `TSInputEncodingUTF16`. -/
structure TSInput (π : Type) where
  /-- Hand out a pointer to the next bytes and their number. -/
  read : π → Option ((Pointer × ℕ) × π)
  /-- Move to a position, given in characters and in bytes. -/
  seek : π → ℕ → ℕ → Option (ℤ × π)
  /-- Whether columns count bytes. -/
  measureColumnsInBytes : Bool

/-- What a lexer's chunk points at when it is not `NULL`. -/
inductive Chunk where
  /-- `empty_chunk`, in place of a read that returned no bytes. -/
  | emptyChunk (edits : ℕ)
  /-- The bytes a read returned. -/
  | bytes (pointer : Pointer)
  deriving DecidableEq, Repr

namespace Chunk

/-- Whether a chunk is `empty_chunk`. -/
def isEmptyChunk : Chunk → Bool
  | emptyChunk _ => true
  | bytes _ => false

/-- The bytes from the start of a chunk on. -/
def memory : Chunk → List UInt8
  | emptyChunk _ => [0, 0]
  | bytes pointer => pointer.storage.drop pointer.offset

/-- The number of edits made before the chunk was read. -/
def edits : Chunk → ℕ
  | emptyChunk edits => edits
  | bytes pointer => pointer.edits

end Chunk

/-! ## The lexer -/

/-- `Lexer`. -/
structure Lexer where
  /-- `data.lookahead`: the code point at the current position. -/
  lookahead : ℤ
  /-- `data.result_symbol`. -/
  resultSymbol : UInt16
  /-- `current_position`. -/
  currentPosition : Length
  /-- `token_start_position`. -/
  tokenStartPosition : Length
  /-- `token_end_position`. -/
  tokenEndPosition : Length
  /-- `chunk`; `none` is `NULL`. -/
  chunk : Option Chunk
  /-- `chunk_start`: the byte the chunk starts at. -/
  chunkStart : ℕ
  /-- `chunk_size`: the number of bytes in the chunk. -/
  chunkSize : ℕ
  /-- `lookahead_size`: the size of the decoded code point, `0` when there is none. -/
  lookaheadSize : ℕ
  deriving DecidableEq, Repr

/-- `unknown_length`. -/
def unknownLength : Length := ⟨2 ^ 32 - 1, 0, ⟨0, 0⟩⟩

/-- `ts_lexer__reset`. -/
def tsLexerUnconditionalReset (self : Lexer) (position : Length) : Lexer :=
  let self := { self with
    tokenStartPosition := position
    tokenEndPosition := unknownLength
    currentPosition := position }
  -- only a chunk that does not contain the new position is dropped
  let self :=
    if self.chunk.isSome ∧ (position.bytes < self.chunkStart ∨
        position.bytes ≥ wrapAdd self.chunkStart self.chunkSize) then
      { self with chunk := none, chunkStart := 0, chunkSize := 0 }
    else self
  { self with lookaheadSize := 0, lookahead := 0 }

/-- `ts_lexer_reset`. -/
def tsLexerReset (self : Lexer) (position : Length) : Lexer :=
  if position.bytes ≠ self.currentPosition.bytes then tsLexerUnconditionalReset self position
  else self

/-- `ts_lexer_init`. -/
def tsLexerInit : Lexer :=
  tsLexerReset
    { lookahead := 0
      resultSymbol := 0
      currentPosition := Length.zero
      tokenStartPosition := Length.zero
      tokenEndPosition := Length.zero
      chunk := none
      chunkStart := 0
      chunkSize := 0
      lookaheadSize := 0 } Length.zero

/-- `ts_lexer_set_input`; the input itself is an argument of every function that uses it. -/
def tsLexerSetInput (self : Lexer) : Lexer := tsLexerUnconditionalReset self Length.zero

section Payload

variable {π : Type} (input : TSInput π)

/-- `ts_lexer__get_chunk`. -/
def tsLexerGetChunk (self : Lexer) (payload : π) : Option (Lexer × π) := do
  -- behind the last chunk the payload already stands at the position
  let payload ←
    (if self.chunk = none ∨ self.currentPosition.bytes ≠ wrapAdd self.chunkStart self.chunkSize then
      (input.seek payload self.currentPosition.chars self.currentPosition.bytes).map Prod.snd
    else some payload)
  let chunkStart := self.currentPosition.bytes
  let ((pointer, chunkSize), payload) ← input.read payload
  let chunk := if chunkSize = 0 then Chunk.emptyChunk pointer.edits else Chunk.bytes pointer
  some ({ self with chunkStart := chunkStart, chunkSize := chunkSize, chunk := some chunk }, payload)

/-- `ts_lexer__get_lookahead`. -/
def tsLexerGetLookahead (self : Lexer) : Lexer :=
  let positionInChunk := wrapSub self.currentPosition.bytes self.chunkStart
  let chunk := (self.chunk.elim [] Chunk.memory).drop positionInChunk
  let size := wrapSub self.chunkSize positionInChunk
  if size = 0 then { self with lookaheadSize := 1, lookahead := 0 }
  else
    { self with
      lookaheadSize := (utf16Iterate chunk size).2
      lookahead := (utf16Iterate chunk size).1 }

/-- The part of `ts_lexer__advance` that moves past the lookahead. The count of characters does not
wrap. -/
def passLookahead (self : Lexer) : Lexer :=
  if self.lookaheadSize ≠ 0 then
    let extent := self.currentPosition.extent
    { self with
      currentPosition :=
        { bytes := wrapAdd self.currentPosition.bytes self.lookaheadSize
          chars := self.currentPosition.chars + 1
          extent :=
            if self.lookahead = 10 then ⟨wrapAdd extent.row 1, 0⟩
            else if input.measureColumnsInBytes then
              ⟨extent.row, wrapAdd extent.column self.lookaheadSize⟩
            else ⟨extent.row, wrapAdd extent.column 1⟩ } }
  else self

/-- `ts_lexer__advance`. -/
def tsLexerAdvance (self : Lexer) (payload : π) (skip : Bool) : Option (Lexer × π) := do
  -- the end of the text has been read
  if self.chunk.any Chunk.isEmptyChunk then some (self, payload)
  else
    let self := passLookahead input self
    let self := if skip then { self with tokenStartPosition := self.currentPosition } else self
    let (self, payload) ←
      (if self.currentPosition.bytes ≥ wrapAdd self.chunkStart self.chunkSize then
        tsLexerGetChunk input self payload
      else some (self, payload))
    some (tsLexerGetLookahead self, payload)

/-- `ts_lexer_start`. -/
def tsLexerStart (self : Lexer) (payload : π) : Option (Lexer × π) := do
  let self := { self with
    tokenStartPosition := self.currentPosition
    tokenEndPosition := unknownLength
    resultSymbol := 0 }
  let (self, payload) ←
    (if self.chunk = none then tsLexerGetChunk input self payload else some (self, payload))
  some (if self.lookaheadSize = 0 then tsLexerGetLookahead self else self, payload)

/-- The operations by which a parse moves its lexer. -/
inductive LexerOp where
  /-- `ts_lexer_set_input`, with which every parse starts. -/
  | setInput
  /-- `ts_lexer_reset`. -/
  | reset (position : Length)
  /-- `ts_lexer_start`. -/
  | start
  /-- `ts_lexer__advance`. -/
  | advance (skip : Bool)
  deriving DecidableEq, Repr

/-- Whether an operation leaves a decoded lookahead behind. -/
def LexerOp.looksAhead : LexerOp → Bool
  | setInput | reset _ => false
  | start | advance _ => true

/-- One operation on a lexer that reads from a payload. -/
def lexerStep (self : Lexer) (payload : π) : LexerOp → Option (Lexer × π)
  | .setInput => some (tsLexerSetInput self, payload)
  | .reset position => some (tsLexerReset self position, payload)
  | .start => tsLexerStart input self payload
  | .advance skip => tsLexerAdvance input self payload skip

end Payload

end TreeSitterTextStorage
