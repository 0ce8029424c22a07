import TreeSitterTextStorage.Input.Reading
import TreeSitterTextStorage.Library.Run

/-! # The lexer sees exactly the text

A lexer that reads from a document's input, driven by any operations with resets to unit boundaries,
sees the text of an unchanged buffer: the code point at its position after every start and advance,
`0` at the end, and never the byte-order mark. -/

namespace TreeSitterTextStorage

/-- A lexer together with the input it reads from. -/
structure Reader where
  /-- The lexer of the document's parser. -/
  lexer : Lexer
  /-- The input of the document. -/
  input : Input
  deriving DecidableEq, Repr

namespace Reader

/-- A fresh lexer and a fresh input on a buffer. -/
def fresh (data : Data) : Reader := ⟨tsLexerInit, Input.init data⟩

/-- The byte the lexer stands at. -/
def bytes (reader : Reader) : ℕ := reader.lexer.currentPosition.bytes

/-- One operation on the lexer. -/
def step (reader : Reader) (op : LexerOp) : Option (Unit × Reader) :=
  (lexerStep asTSInput reader.lexer reader.input op).map fun next => ((), ⟨next.1, next.2⟩)

end Reader

/-- A fresh lexer is in step with a fresh input. -/
theorem inStep_fresh (data : Data) : InStep (Reader.fresh data).lexer (Reader.fresh data).input where
  chunkMatches := ⟨rfl, rfl⟩
  chunkCovers := trivial
  position_le := Nat.zero_le _
  lookahead := fun h => absurd rfl h

/-- A step of a reader whose lexer is in step with the data of a text. -/
theorem Reader.step_inStep {reader : Reader} {text : Text} (hdata : reader.input.data = utf16Data text)
    (hbound : 2 * text.length < 2 ^ 32) (h : InStep reader.lexer reader.input) {op : LexerOp}
    (hop : op.ResetsWithin (utf16Bytes text)) :
    ∃ next, reader.step op = some ((), next) ∧ next.input.data = utf16Data text ∧
      InStep next.lexer next.input ∧
      next.lexer.currentPosition = positionAfter (utf16Bytes text) reader.lexer op ∧
      (op.looksAhead = true → next.lexer.lookaheadSize ≠ 0) := by
  have hserved : reader.input.served = utf16Bytes text := by
    rw [Input.served, hdata, drop_utf16Data]
  have hmark : 2 ≤ reader.input.data.length := by rw [hdata, length_utf16Data]; omega
  have hlength : reader.input.served.length + 1 < 2 ^ 32 := by
    rw [hserved, length_utf16Bytes]; omega
  obtain ⟨lexer, position, hnext, hin, hposition, hlook⟩ :=
    lexerStep_inStep hmark hlength h (hserved ▸ hop)
  exact ⟨⟨lexer, { reader.input with position := position }⟩,
    by rw [Reader.step, hnext, Option.map_some], hdata, hin, hserved ▸ hposition, hlook⟩

/-! ## The text at a position -/

/-- What an operation leaves behind when the lexer sees exactly the text: the position it moves to,
by whole code points, and the code point there. -/
structure PresentsText (text : Text) (reader : Reader) (op : LexerOp) (_ : Unit) (next : Reader) :
    Prop where
  /-- The buffer is the data of the text. -/
  buffer : next.input.data = utf16Data text
  /-- The lexer stands at a unit boundary of the text. -/
  boundary : 2 ∣ next.bytes ∧ next.bytes ≤ 2 * text.length
  /-- The lexer moves past one code point when it advances, and nowhere at the end. -/
  moved : next.bytes = match op with
    | .setInput => 0
    | .reset position => position.bytes
    | .start => reader.bytes
    | .advance _ =>
        if reader.lexer.lookaheadSize = 0 ∨ reader.bytes = 2 * text.length then reader.bytes
        else reader.bytes + (utf16Iterate ((utf16Bytes text).drop reader.bytes)
          (2 * text.length - reader.bytes)).2
  /-- The lookahead is the code point at the position, or `0` at the end. -/
  lookahead : op.looksAhead = true → next.lexer.lookahead =
    if next.bytes = 2 * text.length then 0
    else (utf16Iterate ((utf16Bytes text).drop next.bytes) (2 * text.length - next.bytes)).1
  /-- The size of the lookahead is `1` exactly at the end. -/
  atEnd : op.looksAhead = true →
    (next.lexer.lookaheadSize = 1 ↔ next.bytes = 2 * text.length)
  /-- The chunk lies inside the buffer, behind the byte-order mark. -/
  chunk : ∀ pointer, next.lexer.chunk = some (.bytes pointer) →
    pointer.storage = next.input.data ∧ 2 ≤ pointer.offset ∧
      pointer.offset + next.lexer.chunkSize ≤ next.input.data.length

/-- Resets go to unit boundaries of the text. -/
def LexerOp.Aligned (text : Text) : LexerOp → Prop
  | .reset position => 2 ∣ position.bytes ∧ position.bytes ≤ 2 * text.length
  | .setInput | .start | .advance _ => True

instance (text : Text) : (op : LexerOp) → Decidable (op.Aligned text)
  | .reset position =>
      inferInstanceAs (Decidable (2 ∣ position.bytes ∧ position.bytes ≤ 2 * text.length))
  | .setInput | .start | .advance _ => inferInstanceAs (Decidable True)

/-- An aligned reset goes to a position of the text. -/
theorem LexerOp.Aligned.resetsWithin {text : Text} {op : LexerOp} (h : op.Aligned text) :
    op.ResetsWithin (utf16Bytes text) := by
  cases op with
  | reset position =>
      rw [ResetsWithin, length_utf16Bytes]
      exact h.2
  | setInput => trivial
  | start => trivial
  | advance skip => trivial

/-- A lexer in step with the data of a text, at a unit boundary. -/
structure Reader.AtBoundary (text : Text) (reader : Reader) : Prop where
  /-- The buffer is the data of the text. -/
  buffer : reader.input.data = utf16Data text
  /-- The lexer has read nothing but that buffer. -/
  inStep : InStep reader.lexer reader.input
  /-- The position is a unit boundary. -/
  even : 2 ∣ reader.bytes
  /-- The position lies in the text or at its end. -/
  bytes_le : reader.bytes ≤ 2 * text.length

/-- The lookahead of a lexer in step, when it has one. -/
theorem Reader.AtBoundary.lookahead_eq {text : Text} {reader : Reader} (h : reader.AtBoundary text)
    (hlook : reader.lexer.lookaheadSize ≠ 0) :
    (reader.lexer.lookahead, reader.lexer.lookaheadSize) =
      if reader.bytes = 2 * text.length then (0, 1)
      else utf16Iterate ((utf16Bytes text).drop reader.bytes)
        (2 * text.length - reader.bytes) := by
  have hserved : reader.input.served = utf16Bytes text := by
    rw [Input.served, h.buffer, drop_utf16Data]
  have hle := h.bytes_le
  rw [(h.inStep.lookahead hlook).2, hserved]
  change lookaheadAt (utf16Bytes text) reader.bytes = _
  split
  · next heq => exact lookaheadAt_of_le (by rw [length_utf16Bytes]; omega)
  · next hne => rw [lookaheadAt_of_lt (by rw [length_utf16Bytes]; omega), length_utf16Bytes]

/-- Where a lexer at a unit boundary moves to. -/
theorem bytes_positionAfter {text : Text} {reader : Reader} (h : reader.AtBoundary text)
    (hbound : 2 * text.length < 2 ^ 32) (op : LexerOp) :
    (positionAfter (utf16Bytes text) reader.lexer op).bytes = match op with
      | .setInput => 0
      | .reset position => position.bytes
      | .start => reader.bytes
      | .advance _ =>
          if reader.lexer.lookaheadSize = 0 ∨ reader.bytes = 2 * text.length then reader.bytes
          else reader.bytes + (utf16Iterate ((utf16Bytes text).drop reader.bytes)
            (2 * text.length - reader.bytes)).2 := by
  cases op with
  | setInput => rfl
  | reset position =>
      simp only [positionAfter]
      split
      · rfl
      · next heq => exact (not_not.mp heq).symm
  | start => rfl
  | advance skip =>
      simp only [positionAfter, length_utf16Bytes]
      by_cases hend : reader.bytes = 2 * text.length
      · have hnot : ¬ reader.lexer.currentPosition.bytes < 2 * text.length := Nat.not_lt.mpr hend.ge
        rw [if_neg hnot, if_pos (Or.inr hend)]
        rfl
      · have hlt : reader.bytes < 2 * text.length := Nat.lt_of_le_of_ne h.bytes_le hend
        rw [if_pos (show reader.lexer.currentPosition.bytes < 2 * text.length from hlt)]
        by_cases hzero : reader.lexer.lookaheadSize = 0
        · rw [if_pos (Or.inl hzero), passLookahead, if_neg (not_not_intro hzero)]
          rfl
        · have hlook := h.lookahead_eq hzero
          rw [if_neg hend] at hlook
          have hsize := congrArg Prod.snd hlook
          simp only at hsize
          have := utf16Iterate_size ((utf16Bytes text).drop reader.bytes)
            (2 * text.length - reader.bytes)
          rw [if_neg (not_or.mpr ⟨hzero, hend⟩), passLookahead_bytes asTSInput, hsize]
          · rfl
          · rw [hsize]
            change reader.bytes + _ < 2 ^ 32
            omega

/-- An aligned operation on a lexer at a unit boundary leaves it at one. -/
theorem Reader.step_atBoundary {text : Text} (hbound : 2 * text.length < 2 ^ 32)
    {reader : Reader} {op : LexerOp} (h : reader.AtBoundary text) (hop : op.Aligned text) :
    ∃ next, reader.step op = some ((), next) ∧ next.AtBoundary text ∧
      next.lexer.currentPosition = positionAfter (utf16Bytes text) reader.lexer op ∧
      (op.looksAhead = true → next.lexer.lookaheadSize ≠ 0) := by
  obtain ⟨next, hnext, hdata, hin, hposition, hlook⟩ :=
    Reader.step_inStep h.buffer hbound h.inStep hop.resetsWithin
  have hboundary : 2 ∣ next.bytes ∧ next.bytes ≤ 2 * text.length := by
    have heven := h.even
    have hle := h.bytes_le
    rw [Reader.bytes, hposition, bytes_positionAfter h hbound op]
    cases op with
    | setInput => exact ⟨Nat.dvd_zero 2, Nat.zero_le _⟩
    | reset position => exact hop
    | start => exact ⟨heven, hle⟩
    | advance skip =>
        -- a code point takes two or four bytes, and the end lies at an even distance
        have := utf16Iterate_size ((utf16Bytes text).drop reader.bytes)
          (2 * text.length - reader.bytes)
        simp only
        split
        · exact ⟨heven, hle⟩
        · omega
  exact ⟨next, hnext, ⟨hdata, hin, hboundary.1, hboundary.2⟩, hposition, hlook⟩

/-- Every aligned operation presents the text. -/
theorem Reader.step_presentsText {text : Text} (hbound : 2 * text.length < 2 ^ 32)
    {reader : Reader} {op : LexerOp} (h : reader.AtBoundary text) (hop : op.Aligned text) :
    ∃ o next, reader.step op = some (o, next) ∧ PresentsText text reader op o next ∧
      next.AtBoundary text := by
  obtain ⟨next, hnext, hnextAt, hposition, hlook⟩ := Reader.step_atBoundary hbound h hop
  have hmoved := (congrArg Length.bytes hposition).trans (bytes_positionAfter h hbound op)
  refine ⟨(), next, hnext, ⟨hnextAt.buffer, ⟨hnextAt.even, hnextAt.bytes_le⟩, hmoved, ?_, ?_, ?_⟩,
    hnextAt⟩
  · intro hlooks
    have hfst := congrArg Prod.fst (hnextAt.lookahead_eq (hlook hlooks))
    rwa [apply_ite Prod.fst] at hfst
  · -- only the end has the size `1`: a code point takes two or four bytes
    intro hlooks
    have hsnd := congrArg Prod.snd (hnextAt.lookahead_eq (hlook hlooks))
    rw [apply_ite Prod.snd] at hsnd
    simp only at hsnd
    rw [hsnd]
    split
    · next heq => exact iff_of_true rfl heq
    · next hne =>
        have := utf16Iterate_size ((utf16Bytes text).drop next.bytes)
          (2 * text.length - next.bytes)
        refine iff_of_false ?_ hne
        omega
  · intro pointer hchunk
    have hmatches := hnextAt.inStep.chunkMatches
    rw [ChunkMatches, hchunk] at hmatches
    obtain ⟨rfl, hsize, hstart, -⟩ := hmatches
    rw [Input.length_served] at hsize hstart
    exact ⟨rfl, Nat.le_add_right 2 _, by simp only; omega⟩

/-- A fresh lexer stands at the start of the text. -/
theorem Reader.atBoundary_fresh (text : Text) : (Reader.fresh (utf16Data text)).AtBoundary text where
  buffer := rfl
  inStep := inStep_fresh _
  even := Nat.dvd_zero 2
  bytes_le := Nat.zero_le _

/-- **The callbacks present exactly the text.** From a fresh lexer on the data of a text, every
sequence of operations with resets to unit boundaries completes and presents the text after every
operation; and every read from that buffer returns bytes of it behind the byte-order mark. -/
theorem callbacks_presentText {text : Text} (hbound : 2 * text.length + 2 < 2 ^ 32)
    {ops : List LexerOp} (hops : ∀ op ∈ ops, op.Aligned text) :
    Machine.Always Reader.step (PresentsText text) (Reader.fresh (utf16Data text)) ops ∧
      ∀ input pointer count next, input.data = utf16Data text →
        read input = some ((pointer, count), next) →
        pointer.offset + count ≤ pointer.storage.length ∧
          (count ≠ 0 → pointer.storage = utf16Data text ∧ 2 ≤ pointer.offset) := by
  constructor
  · apply Machine.always_of_progress (Reader.AtBoundary text) (LexerOp.Aligned text) ?_
      (Reader.atBoundary_fresh text) hops
    intro reader op h hop
    exact Reader.step_presentsText (by omega) h hop
  · intro input pointer count next hdata hread
    exact hdata ▸ read_within hread

/-- The theorem on a text with a surrogate pair: a start, an advance over the pair, a reset behind a
unit and an advance to the end. -/
theorem callbacks_presentText_pair :
    Machine.Always Reader.step (PresentsText [0x61, 0xd83d, 0xde00])
        (Reader.fresh (utf16Data [0x61, 0xd83d, 0xde00]))
        [.setInput, .start, .advance false, .advance true, .reset ⟨2, 1, ⟨0, 1⟩⟩, .start,
          .advance false] ∧
      ∀ input pointer count next, input.data = utf16Data [0x61, 0xd83d, 0xde00] →
        read input = some ((pointer, count), next) →
        pointer.offset + count ≤ pointer.storage.length ∧
          (count ≠ 0 → pointer.storage = utf16Data [0x61, 0xd83d, 0xde00] ∧ 2 ≤ pointer.offset) :=
  callbacks_presentText (by decide) (by decide)

end TreeSitterTextStorage
