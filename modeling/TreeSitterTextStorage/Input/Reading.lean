import TreeSitterTextStorage.Input.Input

/-! # A lexer that reads from an input

What holds between a lexer and the input it reads from while the buffer does not change. `InStep` is
the invariant: the chunk is the rest of the buffer from where it was read, the position lies inside
it, and the lookahead is decoded from the buffer at the position. `lexerStep_inStep` says that every
operation completes, keeps the invariant and moves to `positionAfter`. -/

namespace TreeSitterTextStorage

/-- The code point of the text at a byte position and its size; `0` and the size `1` at the end. -/
def lookaheadAt (served : List UInt8) (position : ℕ) : ℤ × ℕ :=
  if served.length ≤ position then (0, 1)
  else utf16Iterate (served.drop position) (served.length - position)

theorem lookaheadAt_of_le {served : List UInt8} {position : ℕ} (h : served.length ≤ position) :
    lookaheadAt served position = (0, 1) := if_pos h

theorem lookaheadAt_of_lt {served : List UInt8} {position : ℕ} (h : position < served.length) :
    lookaheadAt served position =
      utf16Iterate (served.drop position) (served.length - position) := if_neg (not_le.mpr h)

/-- The chunk is the part of the buffer from `chunkStart` to the end, read by the last call of
`read`. -/
def ChunkMatches (self : Lexer) (input : Input) : Prop :=
  match self.chunk with
  | none => self.chunkStart = 0 ∧ self.chunkSize = 0
  | some (.emptyChunk _) => self.chunkSize = 0
  | some (.bytes pointer) =>
      pointer = ⟨input.data, 2 + self.chunkStart, input.edits⟩ ∧
        self.chunkSize = input.served.length - self.chunkStart ∧
        self.chunkStart < input.served.length ∧ input.position = input.served.length

/-- The current position lies inside the chunk, and the empty chunk stands only for the end of the
current text. -/
def ChunkCovers (self : Lexer) (input : Input) : Prop :=
  match self.chunk with
  | none => True
  | some (.emptyChunk edits) =>
      edits = input.edits ∧ input.served.length ≤ self.currentPosition.bytes ∧
        self.lookaheadSize ≠ 0
  | some (.bytes _) =>
      self.chunkStart ≤ self.currentPosition.bytes ∧
        self.currentPosition.bytes < input.served.length

/-- The lexer has read nothing but the current buffer. -/
structure InStep (lexer : Lexer) (input : Input) : Prop where
  /-- The chunk is what the buffer holds. -/
  chunkMatches : ChunkMatches lexer input
  /-- The position lies inside the chunk. -/
  chunkCovers : ChunkCovers lexer input
  /-- The position is at most one byte behind the end; that byte is the missing half of a unit. -/
  position_le : lexer.currentPosition.bytes ≤ input.served.length + 1
  /-- The lookahead is decoded from the buffer at the position. -/
  lookahead : lexer.lookaheadSize ≠ 0 →
    lexer.chunk ≠ none ∧
      (lexer.lookahead, lexer.lookaheadSize) = lookaheadAt input.served lexer.currentPosition.bytes

/-- The chunk of a lexer in step was read after the last edit. -/
theorem InStep.edits_chunk {lexer : Lexer} {input : Input} (h : InStep lexer input) {chunk : Chunk}
    (hchunk : lexer.chunk = some chunk) : chunk.edits = input.edits := by
  have hmatches := h.chunkMatches
  have hcovers := h.chunkCovers
  rw [ChunkMatches, hchunk] at hmatches
  rw [ChunkCovers, hchunk] at hcovers
  cases chunk with
  | emptyChunk edits => exact hcovers.1
  | bytes pointer => rw [hmatches.1, Chunk.edits]

/-- The lookahead in front of the end ends at most one byte behind the buffer, where the second byte of
a unit is missing. -/
theorem InStep.lookahead_end {lexer : Lexer} {input : Input} (h : InStep lexer input)
    (hlt : lexer.currentPosition.bytes < input.served.length) :
    lexer.currentPosition.bytes + lexer.lookaheadSize ≤ input.served.length + 1 := by
  by_cases hzero : lexer.lookaheadSize = 0
  · omega
  · have hdecoded := (h.lookahead hzero).2
    rw [lookaheadAt_of_lt hlt] at hdecoded
    have hsize := congrArg Prod.snd hdecoded
    simp only at hsize
    have := utf16Iterate_size (input.served.drop lexer.currentPosition.bytes)
      (input.served.length - lexer.currentPosition.bytes)
    omega

/-- The position an operation moves to. -/
def positionAfter (served : List UInt8) (self : Lexer) : LexerOp → Length
  | .setInput => Length.zero
  | .reset position =>
      if position.bytes ≠ self.currentPosition.bytes then position else self.currentPosition
  | .start => self.currentPosition
  | .advance _ =>
      if self.currentPosition.bytes < served.length then
        (passLookahead asTSInput self).currentPosition
      else self.currentPosition

/-! ## Passing the lookahead -/

@[simp] theorem passLookahead_chunk {π : Type} (input : TSInput π) (self : Lexer) :
    (passLookahead input self).chunk = self.chunk := by
  rw [passLookahead]; split <;> rfl

@[simp] theorem passLookahead_chunkStart {π : Type} (input : TSInput π) (self : Lexer) :
    (passLookahead input self).chunkStart = self.chunkStart := by
  rw [passLookahead]; split <;> rfl

@[simp] theorem passLookahead_chunkSize {π : Type} (input : TSInput π) (self : Lexer) :
    (passLookahead input self).chunkSize = self.chunkSize := by
  rw [passLookahead]; split <;> rfl

/-- The lexer moves by the size of its lookahead. -/
theorem passLookahead_bytes {π : Type} (input : TSInput π) {self : Lexer}
    (h : self.currentPosition.bytes + self.lookaheadSize < 2 ^ 32) :
    (passLookahead input self).currentPosition.bytes =
      self.currentPosition.bytes + self.lookaheadSize := by
  rw [passLookahead]
  split
  · exact Nat.mod_eq_of_lt h
  · next hzero => rw [not_not.mp hzero, Nat.add_zero]

/-! ## Reading and decoding -/

/-- A lexer that has just read the rest of the buffer from its position on. -/
def fetched (self : Lexer) (input : Input) : Lexer :=
  { self with
    chunkStart := self.currentPosition.bytes
    chunkSize := input.served.length - self.currentPosition.bytes
    chunk := some (if self.currentPosition.bytes < input.served.length then
      .bytes ⟨input.data, 2 + self.currentPosition.bytes, input.edits⟩ else .emptyChunk input.edits) }

/-- The input after a read from a position. -/
def afterRead (input : Input) (position : ℕ) : Input :=
  { input with position := max position input.served.length }

@[simp] theorem data_afterRead (input : Input) (position : ℕ) :
    (afterRead input position).data = input.data := rfl

section Reading

variable {self : Lexer} {input : Input} (hmark : 2 ≤ input.data.length)
  (hbound : input.served.length + 1 < 2 ^ 32)
include hmark hbound

/-- A read from a position returns the rest of the buffer. -/
theorem read_at (position : ℕ) :
    ∃ pointer, read { input with position := position } =
        some ((pointer, input.served.length - position), afterRead input position) ∧
      pointer.edits = input.edits ∧
      (position < input.served.length → pointer = ⟨input.data, 2 + position, input.edits⟩) := by
  have hbound' : ({ input with position := position } : Input).served.length < 2 ^ 32 :=
    Nat.lt_of_succ_lt hbound
  by_cases h : position < input.served.length
  · refine ⟨⟨input.data, 2 + position, input.edits⟩, ?_, rfl, fun _ => rfl⟩
    rw [afterRead, max_eq_right (Nat.le_of_lt h)]
    exact @read_of_lt { input with position := position } hmark hbound' h
  · rw [not_lt] at h
    refine ⟨⟨[0], 0, input.edits⟩, ?_, rfl, fun hlt => absurd hlt (not_lt.mpr h)⟩
    rw [afterRead, max_eq_left h, Nat.sub_eq_zero_of_le h]
    exact @read_of_le { input with position := position } hmark hbound' h

/-- **The lexer gets the rest of the buffer**, whether it has to seek or the input already stands at
the lexer's position. -/
theorem tsLexerGetChunk_eq
    (h : self.chunk ≠ none →
      self.currentPosition.bytes = wrapAdd self.chunkStart self.chunkSize →
      input.position = self.currentPosition.bytes) :
    tsLexerGetChunk asTSInput self input =
      some (fetched self input, afterRead input self.currentPosition.bytes) := by
  obtain ⟨pointer, hread, hedits, hpointer⟩ := read_at hmark hbound self.currentPosition.bytes
  have hchunk : (if input.served.length - self.currentPosition.bytes = 0 then
      Chunk.emptyChunk pointer.edits else Chunk.bytes pointer) =
      if self.currentPosition.bytes < input.served.length then
        .bytes ⟨input.data, 2 + self.currentPosition.bytes, input.edits⟩
      else .emptyChunk input.edits := by
    by_cases hlt : self.currentPosition.bytes < input.served.length
    · rw [if_neg (by omega), if_pos hlt, hpointer hlt]
    · rw [if_pos (by omega), if_neg hlt, hedits]
  have hseek : (if self.chunk = none ∨
        self.currentPosition.bytes ≠ wrapAdd self.chunkStart self.chunkSize then
      (asTSInput.seek input self.currentPosition.chars self.currentPosition.bytes).map Prod.snd
      else some input) = some { input with position := self.currentPosition.bytes } := by
    split
    · change (seek input self.currentPosition.chars _).map Prod.snd = _
      rw [seek_eq hmark (Nat.lt_of_succ_lt hbound), Option.map_some]
    · next hno =>
        rw [not_or, not_not] at hno
        rw [← h hno.1 hno.2]
  rw [tsLexerGetChunk, hseek]
  simp only [Option.bind_eq_bind, Option.bind_some]
  rw [show asTSInput.read = read from rfl, hread, Option.bind_some, hchunk, fetched]

omit hmark in
/-- A chunk that holds the rest of the buffer from `chunkStart` on gives the lookahead of the
text. -/
theorem tsLexerGetLookahead_of_bytes {edits : ℕ}
    (hchunk : self.chunk = some (.bytes ⟨input.data, 2 + self.chunkStart, edits⟩))
    (hsize : self.chunkSize = input.served.length - self.chunkStart)
    (hstart : self.chunkStart ≤ self.currentPosition.bytes)
    (hlt : self.currentPosition.bytes < input.served.length) :
    tsLexerGetLookahead self =
      { self with
        lookaheadSize := (lookaheadAt input.served self.currentPosition.bytes).2
        lookahead := (lookaheadAt input.served self.currentPosition.bytes).1 } := by
  have hposition : wrapSub self.currentPosition.bytes self.chunkStart =
      self.currentPosition.bytes - self.chunkStart := wrapSub_of_le hstart (by omega)
  have hrest : wrapSub self.chunkSize (self.currentPosition.bytes - self.chunkStart) =
      input.served.length - self.currentPosition.bytes := by
    rw [wrapSub_of_le (by omega) (by omega)]; omega
  have hmemory : (self.chunk.elim [] Chunk.memory).drop
      (self.currentPosition.bytes - self.chunkStart) =
      input.served.drop self.currentPosition.bytes := by
    have hoffset : 2 + self.chunkStart + (self.currentPosition.bytes - self.chunkStart) =
        2 + self.currentPosition.bytes := by omega
    rw [hchunk, Option.elim_some, Chunk.memory, List.drop_drop, Input.served, List.drop_drop,
      hoffset]
  rw [tsLexerGetLookahead, hposition, hrest, hmemory, if_neg (by omega), lookaheadAt_of_lt hlt]

omit hmark in
/-- A lexer inside a chunk that is the rest of the buffer decodes a lookahead and is in step. -/
theorem inStep_of_bytes
    (hchunk : self.chunk = some (.bytes ⟨input.data, 2 + self.chunkStart, input.edits⟩))
    (hsize : self.chunkSize = input.served.length - self.chunkStart)
    (hinput : input.position = input.served.length)
    (hstart : self.chunkStart ≤ self.currentPosition.bytes)
    (hlt : self.currentPosition.bytes < input.served.length) :
    InStep (tsLexerGetLookahead self) input ∧ (tsLexerGetLookahead self).lookaheadSize ≠ 0 ∧
      (tsLexerGetLookahead self).currentPosition = self.currentPosition := by
  have hlook := tsLexerGetLookahead_of_bytes hbound hchunk hsize hstart hlt
  have hnonzero : (lookaheadAt input.served self.currentPosition.bytes).2 ≠ 0 := by
    have := utf16Iterate_size (input.served.drop self.currentPosition.bytes)
      (input.served.length - self.currentPosition.bytes)
    rw [lookaheadAt_of_lt hlt]
    omega
  rw [hlook]
  refine ⟨⟨?_, ?_, Nat.le_succ_of_le hlt.le, fun _ => ⟨?_, rfl⟩⟩, hnonzero, rfl⟩
  · rw [ChunkMatches]
    simp only [hchunk]
    exact ⟨trivial, hsize, lt_of_le_of_lt hstart hlt, hinput⟩
  · rw [ChunkCovers]
    simp only [hchunk]
    exact ⟨hstart, hlt⟩
  · simp only [hchunk]
    exact Option.some_ne_none _

omit hmark in
/-- A lexer that has read the rest of the buffer decodes the lookahead of the text and is in step. -/
theorem inStep_fetched (h : self.currentPosition.bytes ≤ input.served.length + 1) :
    InStep (tsLexerGetLookahead (fetched self input))
        (afterRead input self.currentPosition.bytes) ∧
      (tsLexerGetLookahead (fetched self input)).lookaheadSize ≠ 0 ∧
      (tsLexerGetLookahead (fetched self input)).currentPosition = self.currentPosition := by
  by_cases hlt : self.currentPosition.bytes < input.served.length
  · have hchunk : (fetched self input).chunk = some (.bytes
        ⟨(afterRead input self.currentPosition.bytes).data,
          2 + (fetched self input).chunkStart, input.edits⟩) := by
      rw [fetched, if_pos hlt, data_afterRead]
    exact @inStep_of_bytes (fetched self input) (afterRead input self.currentPosition.bytes) hbound
      hchunk rfl (max_eq_right hlt.le) le_rfl hlt
  · have hle : input.served.length ≤ self.currentPosition.bytes := not_lt.mp hlt
    have hchunk : (fetched self input).chunk = some (.emptyChunk input.edits) := by
      rw [fetched, if_neg hlt]
    have hlook : tsLexerGetLookahead (fetched self input) =
        { fetched self input with lookaheadSize := 1, lookahead := 0 } := by
      rw [tsLexerGetLookahead, if_pos]
      simp only [fetched]
      rw [wrapSub_of_le le_rfl (by omega), wrapSub_of_le (by omega) (by omega)]
      omega
    rw [hlook]
    refine ⟨⟨?_, ?_, h, fun _ => ⟨?_, (lookaheadAt_of_le hle).symm⟩⟩, Nat.one_ne_zero, rfl⟩
    · rw [ChunkMatches]
      simp only [hchunk]
      exact Nat.sub_eq_zero_of_le hle
    · rw [ChunkCovers]
      simp only [hchunk]
      exact ⟨rfl, hle, Nat.one_ne_zero⟩
    · simp only [hchunk]
      exact Option.some_ne_none _

end Reading

/-! ## Steps -/

section Steps

variable {self : Lexer} {input : Input}

/-- A reset keeps a chunk that contains the new position. If a kept chunk is in order, the reset
leaves the lexer in step. -/
theorem inStep_reset {position : Length}
    (h : (self.chunk.isSome = true → self.chunkStart ≤ position.bytes ∧
      position.bytes < wrapAdd self.chunkStart self.chunkSize) → ChunkMatches self input)
    (hbound : input.served.length + 1 < 2 ^ 32) (hposition : position.bytes ≤ input.served.length) :
    InStep (tsLexerUnconditionalReset self position) input ∧
      (tsLexerUnconditionalReset self position).currentPosition = position := by
  rw [tsLexerUnconditionalReset]
  by_cases hdrop : self.chunk.isSome ∧ (position.bytes < self.chunkStart ∨
      position.bytes ≥ wrapAdd self.chunkStart self.chunkSize)
  · simp only [if_pos hdrop]
    exact ⟨⟨⟨rfl, rfl⟩, trivial, Nat.le_succ_of_le hposition, fun hzero => absurd rfl hzero⟩, trivial⟩
  · have hkept : self.chunk.isSome = true → self.chunkStart ≤ position.bytes ∧
        position.bytes < wrapAdd self.chunkStart self.chunkSize := by
      intro hsome
      rw [not_and, not_or, not_lt, not_le] at hdrop
      exact hdrop hsome
    have hmatches := h hkept
    simp only [if_neg hdrop]
    refine ⟨⟨hmatches, ?_, Nat.le_succ_of_le hposition, fun hzero => absurd rfl hzero⟩, trivial⟩
    rw [ChunkCovers]
    rw [ChunkMatches] at hmatches
    cases hchunk : self.chunk with
    | none => trivial
    | some chunk =>
        obtain ⟨hstart, hlt⟩ := hkept (by rw [hchunk, Option.isSome_some])
        rw [hchunk] at hmatches
        cases chunk with
        | emptyChunk edits =>
            -- the empty chunk contains no position
            simp only at hmatches
            rw [hmatches, wrapAdd] at hlt
            omega
        | bytes pointer =>
            simp only at hmatches ⊢
            obtain ⟨-, hsize, hstartLt, -⟩ := hmatches
            rw [wrapAdd, hsize] at hlt
            omega

/-- **Starting** completes at the same position with a lookahead. -/
theorem tsLexerStart_inStep (hmark : 2 ≤ input.data.length)
    (hbound : input.served.length + 1 < 2 ^ 32) (h : InStep self input) :
    ∃ next position, tsLexerStart asTSInput self input =
        some (next, { input with position := position }) ∧
      InStep next { input with position := position } ∧
      next.currentPosition = self.currentPosition ∧ next.lookaheadSize ≠ 0 := by
  set started : Lexer := { self with
    tokenStartPosition := self.currentPosition
    tokenEndPosition := unknownLength
    resultSymbol := 0 } with hstarted
  have hin : InStep started input := ⟨h.chunkMatches, h.chunkCovers, h.position_le, h.lookahead⟩
  rw [tsLexerStart]
  simp only [← hstarted]
  cases hchunk : started.chunk with
  | none =>
      have hzero : started.lookaheadSize = 0 := by
        by_contra hne
        exact (hin.lookahead hne).1 hchunk
      have hzero' : (fetched started input).lookaheadSize = 0 := hzero
      obtain ⟨hfetched, hsize, hposition⟩ := inStep_fetched hbound hin.position_le
      rw [if_pos rfl, tsLexerGetChunk_eq hmark hbound fun hne => absurd hchunk hne]
      simp only [Option.bind_eq_bind, Option.bind_some, if_pos hzero']
      exact ⟨_, _, rfl, hfetched, hposition, hsize⟩
  | some chunk =>
      rw [if_neg (Option.some_ne_none chunk)]
      simp only [Option.bind_eq_bind, Option.bind_some]
      refine ⟨_, input.position, rfl, ?_⟩
      split
      · next hzero =>
          -- a chunk is kept without a lookahead only by a reset, which keeps no empty chunk
          have hmatches := hin.chunkMatches
          have hcovers := hin.chunkCovers
          rw [ChunkMatches] at hmatches
          rw [ChunkCovers] at hcovers
          rw [hchunk] at hmatches hcovers
          cases chunk with
          | emptyChunk edits => exact absurd hzero hcovers.2.2
          | bytes pointer =>
              obtain ⟨rfl, hsize, -, hinput⟩ := hmatches
              obtain ⟨hlook, hnonzero, hposition⟩ :=
                inStep_of_bytes hbound hchunk hsize hinput hcovers.1 hcovers.2
              exact ⟨hlook, hposition, hnonzero⟩
      · next hne => exact ⟨hin, rfl, hne⟩

/-- Passing the lookahead and marking the start of a token keep the chunk. -/
theorem passed_eq (self : Lexer) (skip : Bool) {passed : Lexer}
    (h : passed = if skip then
        { passLookahead asTSInput self with
          tokenStartPosition := (passLookahead asTSInput self).currentPosition }
      else passLookahead asTSInput self) :
    passed.chunk = self.chunk ∧ passed.chunkStart = self.chunkStart ∧
      passed.chunkSize = self.chunkSize ∧
      passed.currentPosition = (passLookahead asTSInput self).currentPosition := by
  subst h
  cases skip with
  | false => simp
  | true => simp

/-- The second half of an advance: a lexer that has passed its lookahead reads on when it has come to
the end of its chunk, and decodes what stands there. -/
theorem readOn_inStep (hmark : 2 ≤ input.data.length) (hbound : input.served.length + 1 < 2 ^ 32)
    (hmatches : ChunkMatches self input) (hnonempty : self.chunk.any Chunk.isEmptyChunk = false)
    (hstart : self.chunkStart ≤ self.currentPosition.bytes)
    (hle : self.currentPosition.bytes ≤ input.served.length + 1) :
    ∃ next position, (if self.currentPosition.bytes ≥ wrapAdd self.chunkStart self.chunkSize then
        tsLexerGetChunk asTSInput self input else some (self, input)) =
        some (next, { input with position := position }) ∧
      InStep (tsLexerGetLookahead next) { input with position := position } ∧
      (tsLexerGetLookahead next).currentPosition = self.currentPosition ∧
      (tsLexerGetLookahead next).lookaheadSize ≠ 0 := by
  obtain ⟨hfetched, hnonzero, hposition⟩ := inStep_fetched hbound hle
  rw [ChunkMatches] at hmatches
  cases hchunk : self.chunk with
  | none =>
      -- nothing has been read yet
      rw [hchunk] at hmatches
      have hfrom : self.currentPosition.bytes ≥ wrapAdd 0 0 := Nat.zero_le _
      rw [hmatches.1, hmatches.2, if_pos hfrom,
        tsLexerGetChunk_eq hmark hbound fun hne => absurd hchunk hne]
      exact ⟨_, _, rfl, hfetched, hposition, hnonzero⟩
  | some chunk =>
      rw [hchunk] at hmatches hnonempty
      cases chunk with
      | emptyChunk edits => exact absurd hnonempty (by simp [Chunk.isEmptyChunk])
      | bytes pointer =>
          obtain ⟨rfl, hsize, hstartLt, hinput⟩ := hmatches
          have hend : wrapAdd self.chunkStart self.chunkSize = input.served.length := by
            rw [hsize, wrapAdd]
            omega
          rw [hend]
          by_cases hpast : self.currentPosition.bytes ≥ input.served.length
          · -- the input stands at the end, which is where the lexer reads on
            rw [if_pos hpast, tsLexerGetChunk_eq hmark hbound fun _ heq => by
              rw [hinput, heq, hend]]
            exact ⟨_, _, rfl, hfetched, hposition, hnonzero⟩
          · rw [if_neg hpast]
            obtain ⟨hlook, hnonzero', hsame⟩ :=
              inStep_of_bytes hbound hchunk hsize hinput hstart (not_le.mp hpast)
            exact ⟨_, input.position, rfl, hlook, hsame, hnonzero'⟩

/-- Where the lexer stands when it has passed its lookahead: behind one code point of the text, or where
it was when a reset has left no lookahead. -/
theorem passLookahead_position (hbound : input.served.length + 1 < 2 ^ 32) (h : InStep self input)
    (hnonempty : self.chunk.any Chunk.isEmptyChunk = false) (skip : Bool) :
    (passLookahead asTSInput self).currentPosition =
        positionAfter input.served self (.advance skip) ∧
      self.chunkStart ≤ (passLookahead asTSInput self).currentPosition.bytes ∧
      (passLookahead asTSInput self).currentPosition.bytes ≤ input.served.length + 1 := by
  have hmatches := h.chunkMatches
  have hcovers := h.chunkCovers
  rw [ChunkMatches] at hmatches
  rw [ChunkCovers] at hcovers
  rw [positionAfter]
  cases hself : self.chunk with
  | none =>
      have hzero : self.lookaheadSize = 0 := by
        by_contra hne
        exact (h.lookahead hne).1 hself
      have hstay : (passLookahead asTSInput self).currentPosition = self.currentPosition := by
        rw [passLookahead, if_neg (not_not_intro hzero)]
      rw [hself] at hmatches
      rw [hstay, ite_self, hmatches.1]
      exact ⟨rfl, Nat.zero_le _, h.position_le⟩
  | some chunk =>
      rw [hself] at hcovers hnonempty
      cases chunk with
      | emptyChunk edits => exact absurd hnonempty (by simp [Chunk.isEmptyChunk])
      | bytes pointer =>
          have hlook := h.lookahead_end hcovers.2
          rw [if_pos hcovers.2, passLookahead_bytes asTSInput (by omega)]
          exact ⟨rfl, Nat.le_add_right_of_le hcovers.1, hlook⟩

/-- **Advancing** completes past the lookahead, or stays at the end, with a new lookahead. -/
theorem tsLexerAdvance_inStep (hmark : 2 ≤ input.data.length)
    (hbound : input.served.length + 1 < 2 ^ 32) (h : InStep self input) (skip : Bool) :
    ∃ next position, tsLexerAdvance asTSInput self input skip =
        some (next, { input with position := position }) ∧
      InStep next { input with position := position } ∧
      next.currentPosition = positionAfter input.served self (.advance skip) ∧
      next.lookaheadSize ≠ 0 := by
  by_cases hempty : self.chunk.any Chunk.isEmptyChunk = true
  · -- the empty chunk stands for the end, where the lexer stays
    obtain ⟨chunk, hchunk, hchunkEmpty⟩ := (Option.any_eq_true _ _).mp hempty
    have hcovers := h.chunkCovers
    rw [ChunkCovers, hchunk] at hcovers
    cases chunk with
    | emptyChunk edits =>
        rw [tsLexerAdvance, if_pos hempty, positionAfter, if_neg (not_lt.mpr hcovers.2.1)]
        exact ⟨self, input.position, rfl, h, rfl, hcovers.2.2⟩
    | bytes pointer => exact Bool.noConfusion hchunkEmpty
  · rw [Bool.not_eq_true] at hempty
    obtain ⟨passed, hpassed⟩ : ∃ passed, passed = if skip then
        { passLookahead asTSInput self with
          tokenStartPosition := (passLookahead asTSInput self).currentPosition }
      else passLookahead asTSInput self := ⟨_, rfl⟩
    obtain ⟨hchunk, hstart, hsize, hposition⟩ := passed_eq self skip hpassed
    obtain ⟨hmoved, hle, hend⟩ := passLookahead_position hbound h hempty skip
    have hmatches : ChunkMatches passed input := by
      have hself := h.chunkMatches
      rw [ChunkMatches] at hself ⊢
      rwa [hchunk, hstart, hsize]
    rw [← hposition] at hmoved hle hend
    obtain ⟨next, position, hread, hin, hsame, hnonzero⟩ := readOn_inStep hmark hbound hmatches
      (hchunk ▸ hempty) (hstart ▸ hle) hend
    refine ⟨tsLexerGetLookahead next, position, ?_, hin, hsame.trans hmoved, hnonzero⟩
    rw [tsLexerAdvance, if_neg (by rw [hempty]; exact Bool.false_ne_true)]
    simp only [← hpassed, Option.bind_eq_bind, hread, Option.bind_some]

/-- The resets an operation may ask for. -/
def LexerOp.ResetsWithin (served : List UInt8) : LexerOp → Prop
  | .reset position => position.bytes ≤ served.length
  | .setInput | .start | .advance _ => True

/-- **Every operation keeps the lexer in step** with an unchanged buffer: it completes, moves to
`positionAfter`, and leaves a lookahead when it starts or advances. -/
theorem lexerStep_inStep (hmark : 2 ≤ input.data.length)
    (hbound : input.served.length + 1 < 2 ^ 32) (h : InStep self input) {op : LexerOp}
    (hop : op.ResetsWithin input.served) :
    ∃ next position, lexerStep asTSInput self input op =
        some (next, { input with position := position }) ∧
      InStep next { input with position := position } ∧
      next.currentPosition = positionAfter input.served self op ∧
      (op.looksAhead = true → next.lookaheadSize ≠ 0) := by
  cases op with
  | setInput =>
      have hzero : Length.zero.bytes ≤ input.served.length := Nat.zero_le _
      obtain ⟨hreset, hposition⟩ := inStep_reset (fun _ => h.chunkMatches) hbound hzero
      exact ⟨_, input.position, rfl, hreset, hposition, fun hlook => Bool.noConfusion hlook⟩
  | reset position =>
      rw [positionAfter, lexerStep, tsLexerReset]
      by_cases hmoved : position.bytes ≠ self.currentPosition.bytes
      · obtain ⟨hreset, hposition⟩ := inStep_reset (fun _ => h.chunkMatches) hbound hop
        rw [if_pos hmoved, if_pos hmoved]
        exact ⟨_, input.position, rfl, hreset, hposition, fun hlook => Bool.noConfusion hlook⟩
      · rw [if_neg hmoved, if_neg hmoved]
        exact ⟨self, input.position, rfl, h, rfl, fun hlook => Bool.noConfusion hlook⟩
  | start =>
      obtain ⟨next, position, hnext, hin, hposition, hsize⟩ := tsLexerStart_inStep hmark hbound h
      exact ⟨next, position, hnext, hin, hposition, fun _ => hsize⟩
  | advance skip =>
      obtain ⟨next, position, hnext, hin, hposition, hsize⟩ :=
        tsLexerAdvance_inStep hmark hbound h skip
      exact ⟨next, position, hnext, hin, hposition, fun _ => hsize⟩

end Steps

/-! ## Buffers that are too large -/

/-- A buffer too large for the lexer has no length. -/
theorem Input.length_eq_none {input : Input} {text : Text} (hdata : input.data = utf16Data text)
    (hbound : ¬ input.served.length + 1 < 2 ^ 32) : input.length = none := by
  rw [Option.eq_none_iff_forall_ne_some]
  rintro n hn
  obtain ⟨-, rfl, hlt⟩ := Input.length_eq_some_iff.mp hn
  rw [Input.served, hdata, drop_utf16Data, length_utf16Bytes] at hbound hlt
  omega

/-- The lexer cannot read a buffer that is too large. -/
theorem tsLexerGetChunk_eq_none {lexer : Lexer} {input : Input} {text : Text}
    (hdata : input.data = utf16Data text) (hbound : ¬ input.served.length + 1 < 2 ^ 32)
    (hchunk : lexer.chunk = none) : tsLexerGetChunk asTSInput lexer input = none := by
  have hseek : seek input lexer.currentPosition.chars lexer.currentPosition.bytes = none := by
    have hlength : ({ input with position := lexer.currentPosition.bytes } : Input).length = none :=
      Input.length_eq_none hdata hbound
    rw [seek]
    simp only [Option.bind_eq_bind, hlength, Option.bind_none]
  rw [tsLexerGetChunk, if_pos (Or.inl hchunk)]
  simp only [asTSInput, hseek, Option.map_none, Option.bind_eq_bind, Option.bind_none]

/-- An operation on a lexer that has read nothing of a buffer that is too large reads nothing. -/
theorem lexerStep_unread {lexer : Lexer} {input : Input} {text : Text}
    (hdata : input.data = utf16Data text) (hbound : ¬ input.served.length + 1 < 2 ^ 32)
    (hchunk : lexer.chunk = none) (hzero : lexer.chunkStart = 0 ∧ lexer.chunkSize = 0)
    {op : LexerOp} {next : Lexer × Input} (h : lexerStep asTSInput lexer input op = some next) :
    next.2 = input ∧ next.1.chunk = none ∧ next.1.chunkStart = 0 ∧ next.1.chunkSize = 0 ∧
      op.looksAhead = false := by
  have hreset : ∀ position, (tsLexerUnconditionalReset lexer position).chunk = none ∧
      (tsLexerUnconditionalReset lexer position).chunkStart = 0 ∧
      (tsLexerUnconditionalReset lexer position).chunkSize = 0 := by
    intro position
    rw [tsLexerUnconditionalReset]
    simpa [hchunk] using hzero
  cases op with
  | setInput =>
      rw [lexerStep, Option.some.injEq] at h
      subst h
      exact ⟨rfl, (hreset _).1, (hreset _).2.1, (hreset _).2.2, rfl⟩
  | reset position =>
      rw [lexerStep, Option.some.injEq, tsLexerReset] at h
      subst h
      simp only
      split
      · exact ⟨trivial, (hreset _).1, (hreset _).2.1, (hreset _).2.2, rfl⟩
      · exact ⟨trivial, hchunk, hzero.1, hzero.2, rfl⟩
  | start =>
      rw [lexerStep, tsLexerStart] at h
      simp only [hchunk, if_true] at h
      rw [tsLexerGetChunk_eq_none hdata hbound rfl] at h
      exact absurd h (by simp)
  | advance skip =>
      obtain ⟨passed, hpassed⟩ : ∃ passed, passed = if skip then
          { passLookahead asTSInput lexer with
            tokenStartPosition := (passLookahead asTSInput lexer).currentPosition }
        else passLookahead asTSInput lexer := ⟨_, rfl⟩
      obtain ⟨hchunk', hstart, hsize, -⟩ := passed_eq lexer skip hpassed
      rw [lexerStep, tsLexerAdvance] at h
      simp only [← hpassed] at h
      have hfrom : passed.currentPosition.bytes ≥ wrapAdd passed.chunkStart passed.chunkSize := by
        rw [hstart, hsize, hzero.1, hzero.2]
        exact Nat.zero_le _
      rw [hchunk, Option.any_none, if_neg Bool.false_ne_true, if_pos hfrom,
        tsLexerGetChunk_eq_none hdata hbound (hchunk'.trans hchunk)] at h
      exact absurd h (by simp)

end TreeSitterTextStorage
