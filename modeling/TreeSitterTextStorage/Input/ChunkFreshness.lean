import TreeSitterTextStorage.Input.InputText

/-! # Chunks from before an edit

Nothing tells the lexer that the buffer has changed. A parse starts with a reset to the start of the
text, which keeps a chunk that covers the start, however old. A parse that starts without such a
chunk reads nothing from before an edit; one that starts with an old one decodes its first lookahead
from it. -/

namespace TreeSitterTextStorage

/-- What happens to a document's buffer and lexer. -/
inductive DocumentEvent where
  /-- An edit of the buffer, `document.input.data.replaceCharactersInRange`. -/
  | edit (range : NSRange) (replacementText : Text)
  /-- An operation of a parse on the lexer. -/
  | lexer (op : LexerOp)
  deriving DecidableEq, Repr

/-- A document's buffer and lexer, and whether a parse is going on. -/
structure Session where
  /-- The lexer and the input. -/
  reader : Reader
  /-- Whether a parse has started since the last edit. -/
  parsing : Bool
  deriving DecidableEq, Repr

namespace Session

/-- A fresh document on a text. -/
def fresh (text : Text) : Session := ⟨Reader.fresh (utf16Data text), false⟩

/-- One event. An edit ends the parse before it, and the lexer moves only within a parse, which
starts by installing the input. -/
def step (session : Session) : DocumentEvent → Option (Unit × Session)
  | .edit range replacementText =>
      (session.reader.input.replaceCharactersInRange range replacementText).map fun input =>
        ((), ⟨{ session.reader with input := input }, false⟩)
  | .lexer op =>
      if op = .setInput ∨ session.parsing then
        (session.reader.step op).map fun next => ((), ⟨next.2, true⟩)
      else none

end Session

/-- Resets go to positions of the current buffer. -/
def ResetsInside (session : Session) : DocumentEvent → Prop
  | .lexer op => op.ResetsWithin session.reader.input.served
  | .edit _ _ => True

/-- No chunk from before an edit starts at the start of the text. -/
def NoOldChunkAtStart (reader : Reader) : Prop :=
  ∀ chunk ∈ reader.lexer.chunk, reader.lexer.chunkStart = 0 → 0 < reader.lexer.chunkSize →
    chunk.edits = reader.input.edits

/-- A parse starts without a chunk from before an edit at the start of the text. -/
def StartsFresh (session : Session) : DocumentEvent → Prop
  | .lexer .setInput => NoOldChunkAtStart session.reader
  | .lexer (.reset _) | .lexer .start | .lexer (.advance _) | .edit _ _ => True

/-- The lookahead was decoded from a chunk read after the last edit, and is the code point at the
current position of the current buffer. -/
def FreshLookahead (reader : Reader) : Prop :=
  reader.lexer.chunk.map Chunk.edits = some reader.input.edits ∧
    reader.lexer.lookahead = (lookaheadAt reader.input.served reader.bytes).1

/-- An event that decodes a lookahead decodes a fresh one. -/
def DecodesFresh (session : Session) : DocumentEvent → Prop
  | .edit _ _ => True
  | .lexer op =>
      match session.step (.lexer op) with
      | none => True
      | some (_, next) => op.looksAhead = true → FreshLookahead next.reader

instance (served : List UInt8) : (op : LexerOp) → Decidable (op.ResetsWithin served)
  | .reset position => inferInstanceAs (Decidable (position.bytes ≤ served.length))
  | .setInput | .start | .advance _ => inferInstanceAs (Decidable True)

instance (session : Session) : (event : DocumentEvent) → Decidable (ResetsInside session event)
  | .lexer op => inferInstanceAs (Decidable (op.ResetsWithin session.reader.input.served))
  | .edit _ _ => inferInstanceAs (Decidable True)

instance (reader : Reader) : Decidable (NoOldChunkAtStart reader) :=
  match h : reader.lexer.chunk with
  | none => isTrue fun chunk hchunk => by simp [h] at hchunk
  | some chunk =>
      decidable_of_iff (reader.lexer.chunkStart = 0 → 0 < reader.lexer.chunkSize →
        chunk.edits = reader.input.edits) (by simp [NoOldChunkAtStart, h])

instance (session : Session) : (event : DocumentEvent) → Decidable (StartsFresh session event)
  | .lexer .setInput => inferInstanceAs (Decidable (NoOldChunkAtStart session.reader))
  | .lexer (.reset _) | .lexer .start | .lexer (.advance _) | .edit _ _ =>
      inferInstanceAs (Decidable True)

instance (reader : Reader) : Decidable (FreshLookahead reader) :=
  inferInstanceAs (Decidable (_ ∧ _))

instance (session : Session) : (event : DocumentEvent) → Decidable (DecodesFresh session event)
  | .edit _ _ => inferInstanceAs (Decidable True)
  | .lexer op =>
      match h : session.step (.lexer op) with
      | none => isTrue (by simp [DecodesFresh, h])
      | some result =>
          decidable_of_iff (op.looksAhead = true → FreshLookahead result.2.reader)
            (by simp [DecodesFresh, h])

/-! ## Chunks over a run -/

/-- What holds of the chunk at all times: it is in order unless it was read before an edit. -/
def ChunkDated (lexer : Lexer) (input : Input) : Prop :=
  match lexer.chunk with
  | none => lexer.chunkStart = 0 ∧ lexer.chunkSize = 0
  | some (.emptyChunk _) => lexer.chunkSize = 0
  | some (.bytes pointer) =>
      pointer.edits ≤ input.edits ∧ lexer.chunkSize < 2 ^ 32 ∧
        (pointer.edits = input.edits →
          input.served.length + 1 < 2 ^ 32 ∧ ChunkMatches lexer input)

/-- What holds in every state of a run whose parses start fresh. A buffer too large for the lexer's
positions stops the parse at its first read. -/
structure Session.Sound (session : Session) : Prop where
  /-- The buffer is the data of a text. -/
  text : ∃ text, session.reader.input.data = utf16Data text
  /-- The chunk is in order unless it was read before an edit. -/
  dated : ChunkDated session.reader.lexer session.reader.input
  /-- Within a parse the lexer has read nothing but the current buffer. -/
  inStep : session.parsing = true → session.reader.input.served.length + 1 < 2 ^ 32 →
    InStep session.reader.lexer session.reader.input
  /-- Within a parse of a buffer that is too large nothing has been read. -/
  unread : session.parsing = true → ¬ session.reader.input.served.length + 1 < 2 ^ 32 →
    session.reader.lexer.chunk = none

/-- The chunk of a lexer in step is in order. -/
theorem InStep.chunkDated {lexer : Lexer} {input : Input} (h : InStep lexer input)
    (hbound : input.served.length + 1 < 2 ^ 32) : ChunkDated lexer input := by
  have hmatches := h.chunkMatches
  rw [ChunkDated]
  cases hchunk : lexer.chunk with
  | none =>
      rw [ChunkMatches, hchunk] at hmatches
      exact hmatches
  | some chunk =>
      have hedits := h.edits_chunk hchunk
      have hmatches' := hmatches
      rw [ChunkMatches, hchunk] at hmatches'
      cases chunk with
      | emptyChunk edits => exact hmatches'
      | bytes pointer =>
          obtain ⟨-, hsize, -, -⟩ := hmatches'
          exact ⟨hedits.le, by omega, fun _ => ⟨hbound, hmatches⟩⟩

/-- A chunk that does not contain the start of the text is dropped when a parse starts. -/
theorem tsLexerSetInput_chunk {lexer : Lexer} {input : Input} (hdated : ChunkDated lexer input)
    (hkept : ¬ (lexer.chunk.isSome = true ∧ lexer.chunkStart ≤ 0 ∧
      0 < wrapAdd lexer.chunkStart lexer.chunkSize)) :
    (tsLexerSetInput lexer).chunk = none ∧ (tsLexerSetInput lexer).chunkStart = 0 ∧
      (tsLexerSetInput lexer).chunkSize = 0 := by
  unfold tsLexerSetInput tsLexerUnconditionalReset
  cases hchunk : lexer.chunk with
  | none =>
      rw [ChunkDated, hchunk] at hdated
      simpa [hchunk] using hdated
  | some chunk =>
      rw [hchunk, Option.isSome_some, not_and, not_and, Nat.not_lt] at hkept
      have hdrop : Length.zero.bytes < lexer.chunkStart ∨
          Length.zero.bytes ≥ wrapAdd lexer.chunkStart lexer.chunkSize := by
        rcases Nat.eq_zero_or_pos lexer.chunkStart with hstart | hstart
        · exact Or.inr (hkept rfl hstart.le)
        · exact Or.inl hstart
      simp [hdrop]

/-- **The start of a parse.** Unless a chunk from before an edit starts at the start of the text,
the reset with which a parse starts leaves the lexer in step with the current buffer. -/
theorem setInput_sound {lexer : Lexer} {input : Input} (hdated : ChunkDated lexer input)
    (hfresh : NoOldChunkAtStart ⟨lexer, input⟩) :
    (input.served.length + 1 < 2 ^ 32 → InStep (tsLexerSetInput lexer) input) ∧
      ChunkDated (tsLexerSetInput lexer) input ∧
      (¬ input.served.length + 1 < 2 ^ 32 → (tsLexerSetInput lexer).chunk = none) := by
  have hzero : Length.zero.bytes ≤ input.served.length := Nat.zero_le _
  by_cases hkept : lexer.chunk.isSome = true ∧ lexer.chunkStart ≤ 0 ∧
      0 < wrapAdd lexer.chunkStart lexer.chunkSize
  · -- the chunk is kept, so it starts at the start and was read after the last edit
    obtain ⟨hsome, hstart, hend⟩ := hkept
    obtain ⟨chunk, hchunk⟩ := Option.isSome_iff_exists.mp hsome
    have hstart' : lexer.chunkStart = 0 := Nat.le_zero.mp hstart
    have hsize : 0 < lexer.chunkSize := by
      rw [hstart', wrapAdd] at hend
      omega
    have hedits : chunk.edits = input.edits := hfresh chunk hchunk hstart' hsize
    rw [ChunkDated, hchunk] at hdated
    cases chunk with
    | emptyChunk edits => exact absurd hsize (by rw [hdated]; exact Nat.lt_irrefl 0)
    | bytes pointer =>
        obtain ⟨hbound, hmatches⟩ := hdated.2.2 hedits
        have hin := (inStep_reset (fun _ => hmatches) hbound hzero).1
        exact ⟨fun _ => hin, hin.chunkDated hbound, fun hnot => absurd hbound hnot⟩
  · -- nothing is kept
    have hnone := tsLexerSetInput_chunk hdated hkept
    refine ⟨?_, ?_, fun _ => hnone.1⟩
    · intro hbound
      refine (inStep_reset ?_ hbound hzero).1
      intro hcontains
      cases hchunk : lexer.chunk with
      | none =>
          rw [ChunkDated, hchunk] at hdated
          rw [ChunkMatches, hchunk]
          exact hdated
      | some chunk =>
          have hsome : lexer.chunk.isSome = true := by rw [hchunk, Option.isSome_some]
          exact absurd ⟨hsome, hcontains hsome⟩ hkept
    · rw [ChunkDated, hnone.1]
      exact hnone.2

/-! ## Events -/

/-- An edit leaves every chunk behind. -/
theorem ChunkDated.edited {lexer : Lexer} {input : Input} {data : Data}
    (h : ChunkDated lexer input) :
    ChunkDated lexer { input with data := data, edits := input.edits + 1 } := by
  rw [ChunkDated] at h ⊢
  cases hchunk : lexer.chunk with
  | none =>
      rw [hchunk] at h
      exact h
  | some chunk =>
      rw [hchunk] at h
      cases chunk with
      | emptyChunk edits => exact h
      | bytes pointer =>
          simp only at h ⊢
          exact ⟨Nat.le_succ_of_le h.1, h.2.1, fun heq => absurd heq (by omega)⟩

/-- An edit ends the parse before it. -/
theorem Session.Sound.edit {session next : Session} {range : NSRange} {replacementText : Text}
    (h : session.Sound) (hnext : session.step (.edit range replacementText) = some ((), next)) :
    next.Sound := by
  obtain ⟨text, hdata⟩ := h.text
  obtain ⟨input, hinput, heq⟩ := Option.map_eq_some_iff.mp hnext
  obtain ⟨-, rfl⟩ := Prod.mk.injEq .. ▸ heq
  rw [Input.replaceCharactersInRange, hdata, Data.replaceCharactersInRange_utf16Data] at hinput
  split at hinput
  · simp only [Option.bind_eq_bind, Option.bind_some, Option.some.injEq] at hinput
    subst hinput
    exact ⟨⟨_, rfl⟩, h.dated.edited, fun hparsing => Bool.noConfusion hparsing,
      fun hparsing => Bool.noConfusion hparsing⟩
  · exact absurd hinput (by simp)

/-- An operation within a parse keeps the lexer in step with the buffer, and what it decodes is
fresh. -/
theorem Session.Sound.move {session : Session} {op : LexerOp} {reader : Reader} (h : session.Sound)
    (hparsing : session.parsing = true) (hop : op.ResetsWithin session.reader.input.served)
    (hreader : session.reader.step op = some ((), reader)) :
    Session.Sound ⟨reader, true⟩ ∧ (op.looksAhead = true → FreshLookahead reader) := by
  obtain ⟨text, hdata⟩ := h.text
  by_cases hbound : session.reader.input.served.length + 1 < 2 ^ 32
  · have hmark : 2 ≤ session.reader.input.data.length := by
      rw [hdata, length_utf16Data]; omega
    obtain ⟨lexer, position, hstep, hin, -, hlook⟩ :=
      lexerStep_inStep hmark hbound (h.inStep hparsing hbound) hop
    rw [Reader.step, hstep, Option.map_some, Option.some.injEq, Prod.mk.injEq] at hreader
    obtain ⟨-, rfl⟩ := hreader
    refine ⟨⟨⟨text, hdata⟩, hin.chunkDated hbound, fun _ _ => hin, fun _ hnot =>
      absurd hbound hnot⟩, ?_⟩
    intro hlooks
    obtain ⟨hsome, hdecoded⟩ := hin.lookahead (hlook hlooks)
    obtain ⟨chunk, hchunk⟩ := Option.ne_none_iff_exists'.mp hsome
    refine ⟨?_, congrArg Prod.fst hdecoded⟩
    simp only [hchunk, Option.map_some, hin.edits_chunk hchunk]
  · -- nothing of a buffer that is too large has been read, and nothing is now
    have hchunk := h.unread hparsing hbound
    have hdated := h.dated
    rw [ChunkDated, hchunk] at hdated
    obtain ⟨⟨lexer, input⟩, hstep, heq⟩ := Option.map_eq_some_iff.mp hreader
    obtain ⟨-, rfl⟩ := Prod.mk.injEq .. ▸ heq
    obtain ⟨rfl, hnone, hstart, hsize, hblind⟩ :=
      lexerStep_unread hdata hbound hchunk hdated hstep
    refine ⟨⟨⟨text, hdata⟩, ?_, fun _ hb => absurd hb hbound, fun _ _ => hnone⟩,
      fun hlook => absurd hlook (by rw [hblind]; exact Bool.false_ne_true)⟩
    simp only at hnone
    rw [ChunkDated, hnone]
    exact ⟨hstart, hsize⟩

/-- **One lexer operation** of a parse that started fresh: the lexer stays in step with the buffer,
and what it decodes is fresh. -/
theorem Session.Sound.lexer {session next : Session} {op : LexerOp} (h : session.Sound)
    (hop : op.ResetsWithin session.reader.input.served)
    (hfresh : op = .setInput → NoOldChunkAtStart session.reader)
    (hnext : session.step (.lexer op) = some ((), next)) :
    next.Sound ∧ (op.looksAhead = true → FreshLookahead next.reader) := by
  rw [Session.step] at hnext
  split at hnext
  case isFalse => exact absurd hnext (by simp)
  next hallowed =>
    obtain ⟨⟨⟨⟩, reader⟩, hreader, heq⟩ := Option.map_eq_some_iff.mp hnext
    obtain ⟨-, rfl⟩ := Prod.mk.injEq .. ▸ heq
    by_cases hset : op = .setInput
    · -- the parse starts: what is left of the chunk is in order
      subst hset
      rw [Reader.step, lexerStep, Option.map_some, Option.some.injEq, Prod.mk.injEq] at hreader
      obtain ⟨-, rfl⟩ := hreader
      obtain ⟨hin, hdated, hunread⟩ := setInput_sound h.dated (hfresh rfl)
      exact ⟨⟨h.text, hdated, fun _ => hin, fun _ => hunread⟩, fun hlook =>
        Bool.noConfusion hlook⟩
    · exact h.move (hallowed.resolve_left hset) hop hreader

/-- A fresh document is sound. -/
theorem Session.sound_fresh (text : Text) : (Session.fresh text).Sound where
  text := ⟨text, rfl⟩
  dated := ⟨rfl, rfl⟩
  inStep := fun h => Bool.noConfusion h
  unread := fun h => Bool.noConfusion h

/-- Every event of a run whose parses start fresh keeps the session sound. -/
theorem Session.Sound.step {session next : Session} {event : DocumentEvent} {o : Unit}
    (h : session.Sound) (hgood : ResetsInside session event ∧ StartsFresh session event)
    (hnext : session.step event = some (o, next)) : next.Sound := by
  cases event with
  | edit range replacementText => exact h.edit hnext
  | lexer op => exact (h.lexer hgood.1 (fun heq => by subst heq; exact hgood.2) hnext).1

/-- Every event of a run whose parses start fresh decodes fresh. -/
theorem Session.Sound.decodesFresh {session : Session} {event : DocumentEvent} (h : session.Sound)
    (hgood : ResetsInside session event ∧ StartsFresh session event) :
    DecodesFresh session event := by
  cases event with
  | edit range replacementText => trivial
  | lexer op =>
      rw [DecodesFresh]
      cases hnext : session.step (.lexer op) with
      | none => trivial
      | some result =>
          exact (h.lexer hgood.1 (fun heq => by subst heq; exact hgood.2) hnext).2

/-- A lexer that has a chunk starts without reading. -/
theorem tsLexerStart_of_chunk {π : Type} (input : TSInput π) (payload : π) {self : Lexer}
    {chunk : Chunk} (h : self.chunk = some chunk) :
    ∃ next, tsLexerStart input self payload = some (next, payload) ∧ next.chunk = some chunk := by
  rw [tsLexerStart]
  simp only [h, reduceCtorEq, if_false, Option.bind_eq_bind, Option.bind_some, Option.some.injEq,
    Prod.mk.injEq, and_true, exists_eq_left']
  split
  · rw [tsLexerGetLookahead]
    split <;> rfl
  · rfl

/-- A parse that starts with a chunk from before an edit at the start of the text keeps it, and
decodes its first lookahead from it. -/
theorem Session.Sound.decodes_old_chunk {session : Session} (h : session.Sound)
    (hold : ¬ NoOldChunkAtStart session.reader) :
    ∃ started looked, session.step (.lexer .setInput) = some ((), started) ∧
      started.step (.lexer .start) = some ((), looked) ∧
      ∃ chunk, looked.reader.lexer.chunk = some chunk ∧
        chunk.edits < looked.reader.input.edits := by
  rw [NoOldChunkAtStart] at hold
  push Not at hold
  obtain ⟨chunk, hchunk, hstart, hsize, hedits⟩ := hold
  have hchunk' : session.reader.lexer.chunk = some chunk := hchunk
  have hdated := h.dated
  rw [ChunkDated, hchunk'] at hdated
  cases chunk with
  | emptyChunk edits => exact absurd hsize (by rw [hdated]; exact Nat.lt_irrefl 0)
  | bytes pointer =>
      obtain ⟨hle, hlt, -⟩ := hdated
      have hkept : (tsLexerSetInput session.reader.lexer).chunk = some (.bytes pointer) := by
        have hend : ¬ wrapAdd 0 session.reader.lexer.chunkSize ≤ 0 := by
          rw [wrapAdd]; omega
        simp [tsLexerSetInput, tsLexerUnconditionalReset, hchunk', hstart, Length.zero, hend]
      refine ⟨⟨⟨tsLexerSetInput session.reader.lexer, session.reader.input⟩, true⟩, ?_⟩
      obtain ⟨lexer, hstep, hlexer⟩ := tsLexerStart_of_chunk asTSInput session.reader.input hkept
      refine ⟨⟨⟨lexer, session.reader.input⟩, true⟩, ?_, ?_, .bytes pointer, hlexer,
        Nat.lt_of_le_of_ne hle hedits⟩
      · simp [Session.step, Reader.step, lexerStep]
      · simp [Session.step, Reader.step, lexerStep, hstep]

/-- **Runs without old chunks.** A run whose parses all start without a chunk from before an edit at
the start of the text decodes every lookahead from a chunk read after the last edit. Where such a
run comes to a state with an old chunk there, the next parse decodes its first lookahead from it. -/
theorem decodesFresh_of_startsFresh {text : Text} {events : List DocumentEvent}
    (h : Machine.Throughout Session.step
      (fun session event => ResetsInside session event ∧ StartsFresh session event)
      (Session.fresh text) events) :
    Machine.Throughout Session.step DecodesFresh (Session.fresh text) events ∧
      ∀ session, Machine.run Session.step (Session.fresh text) events = some session →
        ¬ NoOldChunkAtStart session.reader →
        ∃ started looked, session.step (.lexer .setInput) = some ((), started) ∧
          started.step (.lexer .start) = some ((), looked) ∧
          ∃ chunk, looked.reader.lexer.chunk = some chunk ∧
            chunk.edits < looked.reader.input.edits := by
  have hsound := Session.sound_fresh text
  have hstep : ∀ s i o s', s.Sound → (ResetsInside s i ∧ StartsFresh s i) →
      s.step i = some (o, s') → s'.Sound := fun s i o s' hs hgood hnext => hs.step hgood hnext
  constructor
  · apply Machine.throughout_of_invariant Session.Sound hstep ?_ hsound h
    intro session event hs hgood
    exact hs.decodesFresh hgood
  · intro session hrun hold
    exact (Machine.run_invariant_of_throughout Session.Sound hstep hsound h hrun).decodes_old_chunk
      hold

/-- The theorem on two runs: in the first one the second parse finds no old chunk, because the first
parse has read up to the end; the second one comes to a state with an old chunk. -/
theorem decodesFresh_of_startsFresh_read_to_end :
    Machine.Throughout Session.step DecodesFresh (Session.fresh [0x31])
        [.lexer .setInput, .lexer .start, .lexer (.advance false), .edit ⟨0, 1⟩ [0x37],
          .lexer .setInput, .lexer .start] ∧
      ∃ session, Machine.run Session.step (Session.fresh [0x31, 0x20, 0x32])
          [.lexer .setInput, .lexer .start, .lexer (.advance false), .edit ⟨0, 1⟩ [0x37]] =
          some session ∧
        ¬ NoOldChunkAtStart session.reader ∧
        ∃ started looked, session.step (.lexer .setInput) = some ((), started) ∧
          started.step (.lexer .start) = some ((), looked) ∧
          ∃ chunk, looked.reader.lexer.chunk = some chunk ∧
            chunk.edits < looked.reader.input.edits := by
  constructor
  · exact (decodesFresh_of_startsFresh (by decide +kernel)).1
  · have hold : (Machine.run Session.step (Session.fresh [0x31, 0x20, 0x32])
        [.lexer .setInput, .lexer .start, .lexer (.advance false), .edit ⟨0, 1⟩ [0x37]]).map
          (fun session => decide (NoOldChunkAtStart session.reader)) = some false := by
          decide +kernel
    obtain ⟨session, hrun, hchunk⟩ := Option.map_eq_some_iff.mp hold
    rw [decide_eq_false_iff_not] at hchunk
    exact ⟨session, hrun, hchunk,
      (decodesFresh_of_startsFresh (by decide +kernel)).2 session hrun hchunk⟩

/-- A parse that stops before the end leaves its chunk behind, and the parse after an edit decodes
its first lookahead from it. -/
theorem decodes_old_chunk_after_edit :
    ¬ ∀ (text : Text) (events : List DocumentEvent),
      Machine.Throughout Session.step ResetsInside (Session.fresh text) events →
        Machine.Throughout Session.step DecodesFresh (Session.fresh text) events := by
  intro hall
  have hrun := hall [0x31, 0x20, 0x32]
    [.lexer .setInput, .lexer .start, .lexer (.advance false), .edit ⟨0, 1⟩ [0x37],
      .lexer .setInput, .lexer .start] (by decide +kernel)
  revert hrun
  decide +kernel

end TreeSitterTextStorage
