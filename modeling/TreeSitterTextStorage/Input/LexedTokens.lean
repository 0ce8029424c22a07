import TreeSitterTextStorage.Input.InputText
import TreeSitterTextStorage.Runtime.CodePoints
import TreeSitterTextStorage.Runtime.EditedNodes
import TreeSitterTextStorage.Runtime.ParserRuns

/-! # Tokens lead through the text

What `parser__lex` returns when its lexer reads from a document's input: a leaf whose padding and
size are the lengths of the next two pieces of the text, whether it is a token or characters that
were skipped. The generated lexing function is any that skips only in front of its tokens. -/

namespace TreeSitterTextStorage

open Program

/-! ## Positions of the text -/

/-- A stretch of the text leads from one position to another. -/
def Ahead (text : Text) (p q : Length) : Prop :=
  ∃ own, Stretch codePointMetric (codePoints text) p q own

/-- A lexer at a position of the text that its input serves. -/
structure InText (text : Text) (state : Lexer × Input) : Prop where
  /-- The lexer is in step with the data of the text. -/
  atBoundary : Reader.AtBoundary text ⟨state.1, state.2⟩
  /-- The lexer stands between two code points. -/
  position : Stretch codePointMetric (codePoints text) state.1.currentPosition
    state.1.currentPosition []

/-- A lexer with a token under way that started behind a position. -/
structure InToken (text : Text) (p : Length) (state : Lexer × Input) : Prop extends InText
    text state where
  /-- The lexer has a lookahead. -/
  lookahead : state.1.lookaheadSize ≠ 0
  /-- The padding of the token. -/
  front : Ahead text p state.1.tokenStartPosition
  /-- What has been read of the token. -/
  back : Ahead text state.1.tokenStartPosition state.1.currentPosition

section Positions

variable {text : Text} {p q r : Length} {state : Lexer × Input}

theorem Ahead.refl {own : List CodePoint} (h : Stretch codePointMetric (codePoints text) p q own) :
    Ahead text p p := ⟨[], h.start⟩

theorem Ahead.trans (h : Ahead text p q) (h' : Ahead text q r) : Ahead text p r := by
  obtain ⟨own, hown⟩ := h
  obtain ⟨own', hown'⟩ := h'
  exact ⟨own ++ own', hown.trans hown'⟩

/-- A position is a unit boundary of the text. -/
theorem Ahead.aligned (h : Ahead text p q) : (LexerOp.reset p).Aligned text := by
  obtain ⟨own, front, back, htext, rfl, -⟩ := h
  have hlength := congrArg codePointMetric.bytesOf htext
  rw [bytesOf_codePoints, Metric.bytesOf_append, bytesOf_codePointMetric] at hlength
  constructor
  · show 2 ∣ codePointMetric.bytesOf front
    rw [bytesOf_codePointMetric]
    exact Nat.dvd_mul_right 2 _
  · show codePointMetric.bytesOf front ≤ _
    rw [bytesOf_codePointMetric]
    omega

/-- The lexer stands at the position of a reader that an operation leaves. -/
theorem InText.of_step {op : LexerOp} {next : Lexer × Input} (hbound : 2 * text.length < 2 ^ 32)
    (h : InText text state) (hop : op.Aligned text)
    (hnext : lexerStep asTSInput state.1 state.2 op = some next) :
    Reader.AtBoundary text ⟨next.1, next.2⟩ ∧
      next.1.currentPosition = positionAfter (utf16Bytes text) state.1 op ∧
      (op.looksAhead = true → next.1.lookaheadSize ≠ 0) := by
  obtain ⟨reader, hstep, hreader, hposition, hlook⟩ :=
    Reader.step_atBoundary hbound h.atBoundary hop
  rw [Reader.step, hnext, Option.map_some, Option.some.injEq, Prod.mk.injEq] at hstep
  obtain ⟨-, rfl⟩ := hstep
  exact ⟨hreader, hposition, hlook⟩

/-- `ts_lexer_reset` moves the lexer to a position. -/
theorem InText.reset (hbound : 2 * text.length < 2 ^ 32) (h : InText text state)
    (hp : Stretch codePointMetric (codePoints text) p p []) :
    InText text (tsLexerReset state.1 p, state.2) ∧
      (tsLexerReset state.1 p).currentPosition = p := by
  obtain ⟨hreader, hposition, -⟩ := h.of_step hbound (Ahead.refl hp).aligned
    (show lexerStep asTSInput state.1 state.2 (.reset p) =
      some (tsLexerReset state.1 p, state.2) from rfl)
  have hthere : (tsLexerReset state.1 p).currentPosition = p := by
    refine hposition.trans ?_
    rw [positionAfter]
    split
    · rfl
    · next hsame => exact h.position.eq_of_bytes hp (not_not.mp hsame).symm
  exact ⟨⟨hreader, by rw [hthere]; exact hp⟩, hthere⟩

end Positions

/-! ## Starting and advancing -/

section Lexer

variable {π : Type} {input : TSInput π} {self next : Lexer} {payload payload' : π}

@[simp] theorem tokenStartPosition_tsLexerGetLookahead (self : Lexer) :
    (tsLexerGetLookahead self).tokenStartPosition = self.tokenStartPosition := by
  rw [tsLexerGetLookahead]
  split <;> rfl

@[simp] theorem tokenEndPosition_tsLexerGetLookahead (self : Lexer) :
    (tsLexerGetLookahead self).tokenEndPosition = self.tokenEndPosition := by
  rw [tsLexerGetLookahead]
  split <;> rfl

/-- `ts_lexer__get_chunk` leaves the token alone. -/
theorem token_tsLexerGetChunk (h : tsLexerGetChunk input self payload = some (next, payload')) :
    next.tokenStartPosition = self.tokenStartPosition ∧
      next.tokenEndPosition = self.tokenEndPosition := by
  obtain ⟨middle, -, hread⟩ := Option.bind_eq_some_iff.mp h
  obtain ⟨⟨⟨pointer, size⟩, last⟩, -, hnext⟩ := Option.bind_eq_some_iff.mp hread
  obtain ⟨rfl, -⟩ := Prod.mk.inj (Option.some.inj hnext)
  exact ⟨rfl, rfl⟩

/-- `ts_lexer_start` starts a token at the lexer's position. -/
theorem token_tsLexerStart (h : tsLexerStart input self payload = some (next, payload')) :
    next.tokenStartPosition = self.currentPosition := by
  obtain ⟨⟨middle, last⟩, hread, hnext⟩ := Option.bind_eq_some_iff.mp h
  obtain ⟨rfl, -⟩ := Prod.mk.inj (Option.some.inj hnext)
  have hmiddle : middle.tokenStartPosition = self.currentPosition := by
    split at hread
    · exact (token_tsLexerGetChunk hread).1
    · obtain ⟨rfl, -⟩ := Prod.mk.inj (Option.some.inj hread)
      rfl
  split
  · rw [tokenStartPosition_tsLexerGetLookahead, hmiddle]
  · exact hmiddle

/-- `ts_lexer__advance` leaves the end of the token, and moves its start only when it skips. -/
theorem token_tsLexerAdvance {skip : Bool}
    (h : tsLexerAdvance input self payload skip = some (next, payload')) :
    next.tokenEndPosition = self.tokenEndPosition ∧
      (next.tokenStartPosition = self.tokenStartPosition ∨
        skip = true ∧ next.tokenStartPosition = (passLookahead input self).currentPosition ∧
          self.chunk.any Chunk.isEmptyChunk = false) := by
  rw [tsLexerAdvance] at h
  split at h
  · obtain ⟨rfl, -⟩ := Prod.mk.inj (Option.some.inj h)
    exact ⟨rfl, Or.inl rfl⟩
  · next hnonempty =>
      obtain ⟨⟨middle, last⟩, hread, hnext⟩ := Option.bind_eq_some_iff.mp h
      obtain ⟨rfl, -⟩ := Prod.mk.inj (Option.some.inj hnext)
      rw [tokenEndPosition_tsLexerGetLookahead, tokenStartPosition_tsLexerGetLookahead]
      have hpass : (passLookahead input self).tokenStartPosition = self.tokenStartPosition ∧
          (passLookahead input self).tokenEndPosition = self.tokenEndPosition := by
        rw [passLookahead]
        split <;> exact ⟨rfl, rfl⟩
      -- reading on leaves the token as the lexer has passed its lookahead
      have hmiddle : ∀ passed : Lexer, (if passed.currentPosition.bytes ≥
            wrapAdd passed.chunkStart passed.chunkSize then tsLexerGetChunk input passed payload
          else some (passed, payload)) = some (middle, last) →
          middle.tokenStartPosition = passed.tokenStartPosition ∧
            middle.tokenEndPosition = passed.tokenEndPosition := by
        intro passed hread
        split at hread
        · exact token_tsLexerGetChunk hread
        · obtain ⟨rfl, -⟩ := Prod.mk.inj (Option.some.inj hread)
          exact ⟨rfl, rfl⟩
      obtain ⟨hstart, hend⟩ := hmiddle _ hread
      cases skip with
      | false => exact ⟨hend.trans hpass.2, Or.inl (hstart.trans hpass.1)⟩
      | true => exact ⟨hend.trans hpass.2, Or.inr ⟨rfl, hstart, Bool.eq_false_iff.mpr hnonempty⟩⟩

end Lexer

section Moves

variable {text : Text} {p : Length} {state next : Lexer × Input} (hbound : 2 * text.length < 2 ^ 32)
include hbound

/-- **A lookahead is a code point**: the lexer passes the first one behind its position. -/
theorem InText.passLookahead_eq {front back : List CodePoint} {point : CodePoint}
    (h : InText text state) (hlook : state.1.lookaheadSize ≠ 0)
    (htext : codePoints text = front ++ point :: back)
    (hp : state.1.currentPosition = codePointMetric.lengthOf front) :
    (passLookahead asTSInput state.1).currentPosition =
    codePointMetric.lengthOf (front ++ [point]) := by
  have hlength := congrArg codePointMetric.bytesOf htext
  rw [bytesOf_codePoints, ← List.singleton_append, ← List.append_assoc,
    Metric.bytesOf_append] at hlength
  rw [← codePointMetric.lengthAdd_lengthOf (by omega)]
  -- the units behind the position start with those of the code point
  obtain ⟨rest, hrest, hcodes⟩ := codePoints_eq_append htext
  obtain ⟨hsize, hline⟩ := utf16Iterate_codePoints hcodes
  have hbytes : state.1.currentPosition.bytes = 2 * (unitsOf front).length := by
    rw [hp]
    exact bytesOf_codePointMetric front
  have hlookahead := h.atBoundary.lookahead_eq hlook
  have hlt : 0 < rest.length := by
    cases rest with
    | nil => exact absurd hcodes (List.cons_ne_nil point back).symm
    | cons unit rest => exact Nat.succ_pos _
  have hend : ¬ state.1.currentPosition.bytes = 2 * text.length := by
    rw [hbytes, hrest, List.length_append]
    omega
  have hbehind : 2 * text.length - state.1.currentPosition.bytes = 2 * rest.length := by
    rw [hbytes, hrest, List.length_append]
    omega
  have hdrop : (utf16Bytes text).drop state.1.currentPosition.bytes = utf16Bytes rest := by
    rw [hbytes, drop_utf16Bytes, hrest, List.drop_left]
  simp only [Reader.bytes, if_neg hend, hbehind, hdrop] at hlookahead
  have hpoint : state.1.lookahead = 10 ↔ point = .lone 10 := by
    rw [← hline]
    exact Eq.congr_left (congrArg Prod.fst hlookahead)
  have hpointSize : state.1.lookaheadSize = codePointMetric.size point :=
    (congrArg Prod.snd hlookahead).trans hsize
  rw [passLookahead, if_pos hlook, hpointSize, hp]
  rw [lengthAdd, Metric.hasUnknownChars_lengthOf, Metric.hasUnknownChars_lengthOf,
    lengthOf_codePoint]
  simp only [Metric.lengthOf, hpoint, pointAdd, Bool.or_self, Bool.false_eq_true, if_false,
    Length.mk.injEq, true_and]
  by_cases hten : point = .lone 10
  · rw [if_pos hten, if_pos hten, if_pos Nat.one_pos]
  · rw [if_neg hten, if_neg hten, if_neg (Nat.lt_irrefl 0)]
    rfl

/-- An advance goes ahead in the text, or stays at its end. -/
theorem InText.advance {skip : Bool} (h : InText text state) (hlook : state.1.lookaheadSize ≠ 0)
    (hnext : tsLexerAdvance asTSInput state.1 state.2 skip = some next) :
    InText text next ∧ next.1.lookaheadSize ≠ 0 ∧
      Ahead text state.1.currentPosition next.1.currentPosition ∧
      (state.1.chunk.any Chunk.isEmptyChunk = false →
        (passLookahead asTSInput state.1).currentPosition = next.1.currentPosition) := by
  obtain ⟨hreader, hposition, hlook'⟩ := h.of_step hbound
    (show (LexerOp.advance skip).Aligned text from trivial) hnext
  have hserved : state.2.served = utf16Bytes text := by
    rw [Input.served, h.atBoundary.buffer, drop_utf16Data]
  have hpassed : state.1.chunk.any Chunk.isEmptyChunk = false →
      (passLookahead asTSInput state.1).currentPosition = next.1.currentPosition := by
    intro hnonempty
    rw [hposition, ← hserved]
    refine (passLookahead_position ?_ h.atBoundary.inStep hnonempty skip).1
    rw [hserved, length_utf16Bytes]
    omega
  obtain ⟨front, back, htext, hp, -⟩ := h.position
  cases back with
  | nil =>
      -- the end of the text
      have hend : state.1.currentPosition.bytes = (utf16Bytes text).length := by
        rw [length_utf16Bytes, ← bytesOf_codePoints, htext, hp]
        simp [Metric.lengthOf]
      have hstay : next.1.currentPosition = state.1.currentPosition := by
        rw [hposition, positionAfter, if_neg (Nat.not_lt.mpr hend.ge)]
      exact ⟨⟨hreader, by rw [hstay]; exact h.position⟩, hlook' rfl,
        ⟨[], by rw [hstay]; exact h.position⟩, hpassed⟩
  | cons point back =>
      have hmoved := h.passLookahead_eq hbound hlook htext hp
      have hlt : state.1.currentPosition.bytes < (utf16Bytes text).length := by
        have hpos := codePointMetric.size_pos point
        have hlength : 2 * text.length = state.1.currentPosition.bytes +
            codePointMetric.bytesOf (point :: back) := by
          rw [← bytesOf_codePoints, htext, hp]
          exact Metric.bytesOf_append _ _ _
        rw [Metric.bytesOf, List.map_cons, List.sum_cons] at hlength
        rw [length_utf16Bytes]
        omega
      have hthere : next.1.currentPosition = codePointMetric.lengthOf (front ++ [point]) := by
        rw [hposition, positionAfter, if_pos hlt, hmoved]
      have hstretch : Stretch codePointMetric (codePoints text) state.1.currentPosition
          next.1.currentPosition [point] := ⟨front, back, htext, hp, hthere⟩
      exact ⟨⟨hreader, hstretch.stop⟩, hlook' rfl, ⟨_, hstretch⟩, hpassed⟩

/-- A token starts at the lexer's position. -/
theorem InText.start (h : InText text state)
    (hnext : tsLexerStart asTSInput state.1 state.2 = some next) :
    InToken text state.1.currentPosition next := by
  obtain ⟨hreader, hposition, hlook⟩ := h.of_step hbound
    (show LexerOp.start.Aligned text from trivial) hnext
  have hstart := token_tsLexerStart hnext
  have hsame : next.1.currentPosition = state.1.currentPosition := hposition
  have hhere := Ahead.refl h.position
  refine ⟨⟨hreader, by rw [hsame]; exact h.position⟩, hlook rfl, ?_, ?_⟩
  · rw [hstart]
    exact hhere
  · rw [hstart, hsame]
    exact hhere

/-- An advance goes on with the token, whose start it moves only when it skips. -/
theorem InToken.advance {skip : Bool} (h : InToken text p state)
    (hnext : tsLexerAdvance asTSInput state.1 state.2 skip = some next) :
    InToken text p next ∧ Ahead text state.1.currentPosition next.1.currentPosition ∧
      next.1.tokenEndPosition = state.1.tokenEndPosition ∧
      (skip = false → next.1.tokenStartPosition = state.1.tokenStartPosition) := by
  obtain ⟨hin, hlook, hahead, hpassed⟩ := h.toInText.advance hbound h.lookahead hnext
  obtain ⟨hend, hstart | ⟨hskip, hstart, hnonempty⟩⟩ := token_tsLexerAdvance hnext
  · refine ⟨⟨hin, hlook, ?_, ?_⟩, hahead, hend, fun _ => hstart⟩
    · rw [hstart]
      exact h.front
    · rw [hstart]
      exact h.back.trans hahead
  · rw [hpassed hnonempty] at hstart
    refine ⟨⟨hin, hlook, ?_, ?_⟩, hahead, hend, fun hno =>
      absurd (hno.symm.trans hskip) Bool.false_ne_true⟩
    · rw [hstart]
      exact (h.front.trans h.back).trans hahead
    · rw [hstart]
      exact Ahead.refl hin.position

end Moves

/-! ## Lexing functions -/

section Lexing

variable {text : Text} {language : TSLanguage} {p : Length} {state next : Lexer × Input}

theorem onLexer_eq_some_iff {π : Type} {f : Lexer → π → Option (Lexer × π)} {result : Unit}
    {state next : Lexer × π} :
    onLexer f state = some (result, next) ↔ f state.1 state.2 = some next := by
  rw [onLexer, Option.map_eq_some_iff]
  constructor
  · rintro ⟨next', hnext, heq⟩
    obtain ⟨-, rfl⟩ := Prod.mk.inj heq
    exact hnext
  · exact fun hnext => ⟨next, hnext, rfl⟩

/-- Where the lexer stands does not depend on the token. -/
theorem InText.setToken (h : InText text state) (symbol : UInt16) (stop : Length) :
    InText text ({ state.1 with resultSymbol := symbol, tokenEndPosition := stop }, state.2) where
  atBoundary :=
    { buffer := h.atBoundary.buffer
      inStep := ⟨h.atBoundary.inStep.chunkMatches, h.atBoundary.inStep.chunkCovers,
        h.atBoundary.inStep.position_le, h.atBoundary.inStep.lookahead⟩
      even := h.atBoundary.even
      bytes_le := h.atBoundary.bytes_le }
  position := h.position

/-- A lexer has marked the end of its token, which lies behind the token's start and no further than
where the lexer stands. -/
def MarksToken (text : Text) (lexer : Lexer) : Prop :=
  Ahead text lexer.tokenStartPosition lexer.tokenEndPosition ∧
    Ahead text lexer.tokenEndPosition lexer.currentPosition

/-- Accepting marks the end of the token. -/
theorem InToken.accept (h : InToken text p state) (symbol : UInt16) :
    InToken text p (acceptToken (some symbol) state.1, state.2) ∧
      MarksToken text (acceptToken (some symbol) state.1) :=
  ⟨⟨h.toInText.setToken symbol state.1.currentPosition, h.lookahead, h.front, h.back⟩, h.back,
    Ahead.refl h.position⟩

/-- **A call of the lexing function** reads on behind the start of the token, and a token that it
accepts ends behind its start. -/
theorem InToken.lexFnCall {fuel : ℕ} {lexState : UInt16} {accepted : Bool}
    (hbound : 2 * text.length < 2 ^ 32) (hskips : language.SkipsInFront) (h : InToken text p state)
    (hrun : lexFnCall language asTSInput fuel lexState state = some (accepted, next)) :
    InToken text p next ∧ (accepted = true → MarksToken text next.1) := by
  refine @Triple.loop _ _ _ (fun accepted next => InToken text p next ∧
      (accepted = true → MarksToken text next.1)) _
    (fun (vars : UInt16 × Bool) state => InToken text p state ∧
      (vars.2 = true → MarksToken text state.1 ∧ ¬ language.MaySkip vars.1)) ?_ fuel
    (lexState, false) state accepted next ⟨h, fun hno => absurd hno Bool.false_ne_true⟩ hrun
  rintro ⟨lexState, accepted⟩ state turn next ⟨hin, hdone⟩ hturn
  simp only at hturn hdone
  rw [get_bind, modify_bind] at hturn
  obtain ⟨lexer, input⟩ := state
  simp only at hturn
  set lexTurn := language.lexFn lexState lexer.lookahead with hlexTurn
  -- with the end of the token marked if the state accepts
  have haccept : InToken text p (acceptToken lexTurn.accept lexer, input) ∧
      ((accepted || lexTurn.accept.isSome) = true →
        MarksToken text (acceptToken lexTurn.accept lexer) ∧ ¬ language.MaySkip lexState) := by
    cases hsymbol : lexTurn.accept with
    | none =>
        rw [Option.isSome_none, Bool.or_false]
        exact ⟨hin, hdone⟩
    | some symbol =>
        obtain ⟨hmarked, hahead⟩ := hin.accept symbol
        refine ⟨hmarked, fun _ => ⟨hahead, fun hmay => ?_⟩⟩
        exact absurd (hsymbol.symm.trans (hskips lexState lexer.lookahead hmay))
          (Option.some_ne_none symbol)
  obtain ⟨hmarked, hended⟩ := haccept
  cases hnext : lexTurn.next with
  | none =>
      rw [hnext, pure_eq_some_iff] at hturn
      obtain ⟨rfl, rfl⟩ := hturn
      exact ⟨hmarked, fun hyes => (hended hyes).1⟩
  | some move =>
      obtain ⟨skip, nextState⟩ := move
      rw [hnext, bind_eq_some_iff] at hturn
      obtain ⟨_, advanced, hadvance, hturn⟩ := hturn
      obtain ⟨rfl, rfl⟩ := pure_eq_some_iff.mp hturn
      obtain ⟨hadvanced, hpast, hend, hstart⟩ :=
        hmarked.advance hbound (onLexer_eq_some_iff.mp hadvance)
      refine ⟨hadvanced, fun hyes => ?_⟩
      obtain ⟨⟨hahead, hscanned⟩, hno⟩ := hended hyes
      -- behind a state that accepts, the start of the token stays
      have hskip : skip = false := by
        cases skip with
        | false => rfl
        | true => exact absurd (.skips hnext) hno
      refine ⟨?_, fun hmay => hno (.leads hnext hmay)⟩
      rw [MarksToken, hend, hstart hskip]
      exact ⟨hahead, hscanned.trans hpast⟩

/-! ## Attempts -/

/-- The characters that have been skipped. -/
structure LexAttempt.Skipped (text : Text) (p : Length) (attempt : LexAttempt) : Prop where
  /-- Errors are looked for only in the mode of the error state. -/
  found : attempt.foundError = true
  /-- What lies in front of them. -/
  front : Ahead text p attempt.errorStartPosition
  /-- The characters. -/
  back : Ahead text attempt.errorStartPosition attempt.errorEndPosition

/-- Between two attempts the lexer stands where the token should start, or behind the characters
that have been skipped. -/
structure LexAttempt.Resumes (text : Text) (p : Length) (attempt : LexAttempt)
    (state : Lexer × Input) : Prop extends InText text state where
  /-- Before anything is skipped. -/
  fresh : attempt.skippedError = false → state.1.currentPosition = p
  /-- When something has been skipped. -/
  skipped : attempt.skippedError = true →
    attempt.Skipped text p ∧ state.1.currentPosition = attempt.errorEndPosition

/-- Behind the attempts there is a token, or characters that have been skipped. -/
structure LexAttempt.Ends (text : Text) (p : Length) (attempt : LexAttempt)
    (state : Lexer × Input) : Prop extends InText text state where
  /-- The token. -/
  token : attempt.skippedError = false →
    Ahead text p state.1.tokenStartPosition ∧ MarksToken text state.1
  /-- The characters. -/
  skipped : attempt.skippedError = true →
    attempt.Skipped text p ∧ Ahead text attempt.errorEndPosition state.1.currentPosition

/-- A position has known characters. -/
theorem Ahead.hasUnknownChars {q : Length} (h : Ahead text p q) : q.hasUnknownChars = false := by
  obtain ⟨own, front, back, -, -, rfl⟩ := h
  exact Metric.hasUnknownChars_lengthOf _ _

/-- Starting to skip, at the start of a token that is not accepted. -/
theorem LexAttempt.Resumes.skip {attempt : LexAttempt} {started : Lexer × Input}
    (h : attempt.Resumes text p state) (hfound : attempt.foundError = true)
    (hstarted : InToken text state.1.currentPosition started) :
    (attempt.skip started.1).skippedError = true ∧ (attempt.skip started.1).Skipped text p ∧
      Ahead text (attempt.skip started.1).errorEndPosition started.1.currentPosition := by
  rw [LexAttempt.skip]
  cases hskipped : attempt.skippedError with
  | true =>
      obtain ⟨hown, hposition⟩ := h.skipped hskipped
      rw [if_pos rfl]
      refine ⟨hskipped, hown, ?_⟩
      rw [← hposition]
      exact hstarted.front.trans hstarted.back
  | false =>
      have hfront := hstarted.front
      rw [h.fresh hskipped] at hfront
      rw [if_neg Bool.false_ne_true]
      exact ⟨rfl, ⟨hfound, hfront, Ahead.refl hstarted.back.choose_spec⟩, hstarted.back⟩

/-- **The attempts of `parser__lex`** find a token behind the position, or skip characters there. -/
theorem ends_lexAttempts {fuel : ℕ} {lexMode : TSLexMode} {attempt : LexAttempt}
    (hbound : 2 * text.length < 2 ^ 32) (hskips : language.SkipsInFront) (h : InText text state)
    (hp : Stretch codePointMetric (codePoints text) p p [])
    (hrun : lexAttempts language asTSInput fuel p lexMode state = some (attempt, next)) :
    attempt.Ends text p next := by
  rw [lexAttempts, modify_bind] at hrun
  obtain ⟨hreset, hthere⟩ := h.reset hbound hp
  refine @Triple.loop _ _ _ (fun (attempt : LexAttempt) next => attempt.Ends text p next) _
    (fun (attempt : LexAttempt) state => attempt.Resumes text p state) ?_ fuel _ _ attempt next
    ⟨hreset, fun _ => hthere, fun hno => absurd hno Bool.false_ne_true⟩ hrun
  intro attempt state turn next hresumes hturn
  rw [bind_eq_some_iff] at hturn
  obtain ⟨_, started, hstart, hturn⟩ := hturn
  have hstarted := hresumes.toInText.start hbound (onLexer_eq_some_iff.mp hstart)
  rw [bind_eq_some_iff] at hturn
  obtain ⟨accepted, lexed, hcall, hturn⟩ := hturn
  obtain ⟨hlexed, htoken⟩ := hstarted.lexFnCall hbound hskips hcall
  cases accepted with
  | true =>
      -- a token
      have hahead := htoken rfl
      rw [if_pos rfl, modify_bind, hahead.1.hasUnknownChars] at hturn
      obtain ⟨rfl, rfl⟩ := pure_eq_some_iff.mp hturn
      refine ⟨hlexed.toInText, fun hfresh => ⟨?_, hahead⟩, fun hskipped => ?_⟩
      · rw [← hresumes.fresh hfresh]
        exact hlexed.front
      · obtain ⟨hown, hposition⟩ := hresumes.skipped hskipped
        rw [← hposition]
        exact ⟨hown, hlexed.front.trans hlexed.back⟩
  | false =>
      rw [if_neg Bool.false_ne_true] at hturn
      by_cases hfound : attempt.foundError = false
      · -- the mode of the error state is tried from the start
        rw [if_pos hfound, modify_bind] at hturn
        obtain ⟨rfl, rfl⟩ := pure_eq_some_iff.mp hturn
        obtain ⟨hreset, hthere⟩ := hlexed.toInText.reset hbound hp
        refine ⟨hreset, fun _ => hthere, fun hskipped => ?_⟩
        exact absurd (hfound.symm.trans (hresumes.skipped hskipped).1.found) Bool.false_ne_true
      · rw [if_neg hfound, get_bind] at hturn
        obtain ⟨hyes, hskipped, hahead⟩ := hresumes.skip (Bool.not_eq_false _ ▸ hfound) hlexed
        obtain ⟨lexer, input⟩ := lexed
        simp only at hturn hahead hyes hskipped
        generalize attempt.skip lexer = skipping at hturn hahead hyes hskipped
        -- whether a character is passed or not, what has been skipped reaches up to the position
        have hgo : ∀ {q : Length} {state : Lexer × Input}, InText text state →
            state.1.currentPosition = q → Ahead text skipping.errorEndPosition q →
            LexAttempt.Resumes text p { skipping with errorEndPosition := q } state :=
              fun hin hq hpast =>
          ⟨hin, fun hno => absurd (hno.symm.trans hyes) Bool.false_ne_true,
            fun _ => ⟨⟨hskipped.found, hskipped.front, hskipped.back.trans hpast⟩, hq⟩⟩
        split at hturn
        · split at hturn
          · -- the end of the text
            rw [modify_bind, pure_eq_some_iff] at hturn
            obtain ⟨rfl, rfl⟩ := hturn
            exact ⟨hlexed.toInText.setToken tsBuiltinSymError lexer.tokenEndPosition,
              fun hno => absurd (hno.symm.trans hyes) Bool.false_ne_true, fun _ =>
                ⟨hskipped, hahead⟩⟩
          · -- nothing has been read since the last attempt, so one character is passed
            rw [bind_eq_some_iff] at hturn
            obtain ⟨_, advanced, hadvance, hturn⟩ := hturn
            rw [get_bind] at hturn
            obtain ⟨rfl, rfl⟩ := pure_eq_some_iff.mp hturn
            obtain ⟨hin, -, hpast, -⟩ := hlexed.toInText.advance hbound hlexed.lookahead
              (onLexer_eq_some_iff.mp hadvance)
            exact hgo hin rfl (hahead.trans hpast)
        · obtain ⟨rfl, rfl⟩ := pure_eq_some_iff.mp hturn
          exact hgo hlexed.toInText rfl hahead

/-- The leaf of finished attempts spans what lies between its position and a later one, up to which
the lexer has come at least. -/
theorem LexAttempt.Ends.lexedLeaf {attempt : LexAttempt} {address : ℕ} {parseState : UInt16}
    (hbound : 2 * text.length < 2 ^ 32) (h : attempt.Ends text p state) :
    ∃ q own, Stretch codePointMetric (codePoints text) p q own ∧
      Ahead text q state.1.currentPosition ∧
      Built codePointMetric (address + 1) (lexedLeaf language address parseState p attempt
      state.1) own := by
  have hlt : codePointMetric.bytesOf (codePoints text) < 2 ^ 32 := by rwa [bytesOf_codePoints]
  rw [TreeSitterTextStorage.lexedLeaf]
  cases hskipped : attempt.skippedError with
  | true =>
      obtain ⟨⟨-, ⟨front, hfront⟩, ⟨back, hback⟩⟩, hscanned⟩ := h.skipped hskipped
      refine ⟨attempt.errorEndPosition, front ++ back, hfront.trans hback, hscanned, ?_⟩
      rw [if_pos rfl, hfront.lengthSub_eq hlt, hback.lengthSub_eq hlt]
      have hbuilt : Built codePointMetric (address + 1)
          (tsTreeMakeError address (codePointMetric.lengthOf back) (codePointMetric.lengthOf front)
            attempt.firstErrorCharacter) (front ++ back) := built_makeError
      exact hbuilt.congr rfl rfl rfl rfl rfl rfl rfl
  | false =>
      obtain ⟨⟨front, hfront⟩, ⟨back, hback⟩, hscanned⟩ := h.token hskipped
      refine ⟨state.1.tokenEndPosition, front ++ back, hfront.trans hback, hscanned, ?_⟩
      rw [if_neg Bool.false_ne_true, hfront.lengthSub_eq hlt, hback.lengthSub_eq hlt]
      have hbuilt : Built codePointMetric (address + 1)
          (tsTreeMakeLeaf address state.1.resultSymbol (codePointMetric.lengthOf front)
            (codePointMetric.lengthOf back) (language.metadata state.1.resultSymbol))
            (front ++ back) :=
        built_makeLeaf
      exact hbuilt.congr rfl rfl rfl rfl rfl rfl rfl

/-- `parser__lex` returns the leaf of finished attempts. -/
theorem lexLeaf_eq_some {fuel address : ℕ} {parseState : UInt16} {leaf : SyntaxTree}
    (hbound : 2 * text.length < 2 ^ 32) (hskips : language.SkipsInFront) (h : InText text state)
    (hp : Stretch codePointMetric (codePoints text) p p [])
    (hrun : lexLeaf language asTSInput fuel address parseState p state = some (leaf, next)) :
    ∃ attempt : LexAttempt, attempt.Ends text p next ∧
      leaf = lexedLeaf language address parseState p attempt next.1 := by
  rw [lexLeaf, bind_eq_some_iff] at hrun
  obtain ⟨attempt, lexed, hattempt, hrun⟩ := hrun
  rw [get_bind] at hrun
  obtain ⟨rfl, rfl⟩ := pure_eq_some_iff.mp hrun
  exact ⟨attempt, ends_lexAttempts hbound hskips h hp hattempt, rfl⟩

/-- **`parser__lex` leads through the text**: from a position of the text it returns a leaf that
spans what lies between that position and a later one. -/
theorem leads_lexLeaf {fuel address : ℕ} {parseState : UInt16} {leaf : SyntaxTree}
    (hbound : 2 * text.length < 2 ^ 32) (hskips : language.SkipsInFront) (h : InText text state)
    (hp : Stretch codePointMetric (codePoints text) p p [])
    (hrun : lexLeaf language asTSInput fuel address parseState p state = some (leaf, next)) :
    InText text next ∧ leaf.children = [] ∧
      ∃ q, Leads codePointMetric (codePoints text) (address + 1) p q leaf := by
  obtain ⟨attempt, hends, rfl⟩ := lexLeaf_eq_some hbound hskips h hp hrun
  obtain ⟨q, own, hown, -, hbuilt⟩ := hends.lexedLeaf hbound
  exact ⟨hends.toInText, rfl, q, own, hown, hbuilt⟩

/-- **`parser__lex` looks ahead**: `bytes_scanned` of the leaf that it returns covers the leaf. -/
theorem scanned_lexLeaf {fuel address : ℕ} {parseState : UInt16} {leaf : SyntaxTree}
    (hbound : 2 * text.length < 2 ^ 32) (hskips : language.SkipsInFront) (h : InText text state)
    (hp : Stretch codePointMetric (codePoints text) p p [])
    (hrun : lexLeaf language asTSInput fuel address parseState p state = some (leaf, next)) :
    Scanned leaf := by
  obtain ⟨attempt, hends, rfl⟩ := lexLeaf_eq_some (by omega) hskips h hp hrun
  obtain ⟨q, own, hown, ⟨rest, hrest⟩, hbuilt⟩ :=
    @LexAttempt.Ends.lexedLeaf text language p next attempt address parseState (by omega) hends
  refine ⟨?_, trivial⟩
  obtain ⟨front, back, htext, hstart, hstop⟩ := hown.trans hrest
  have hlength := congrArg codePointMetric.bytesOf htext
  rw [bytesOf_codePoints] at hlength
  simp only [Metric.bytesOf_append] at hlength
  have htotal : tsTreeTotalBytes (lexedLeaf language address parseState p attempt
      next.1).label.toTreeData = codePointMetric.bytesOf own :=
      congrArg Length.bytes (hbuilt.spans.totalSize_eq (by omega))
  have hstartBytes : p.bytes = codePointMetric.bytesOf front := congrArg Length.bytes hstart
  have hstopBytes : next.1.currentPosition.bytes =
      codePointMetric.bytesOf front + (codePointMetric.bytesOf own +
        codePointMetric.bytesOf rest) := by
    rw [hstop, Metric.lengthOf]
    simp only [Metric.bytesOf_append]
  rw [htotal]
  show codePointMetric.bytesOf own ≤ wrapAdd (wrapSub next.1.currentPosition.bytes p.bytes) 1
  rw [hstopBytes, hstartBytes, wrapSub_of_le (by omega) (by omega), wrapAdd_of_lt (by omega)]
  omega

end Lexing

end TreeSitterTextStorage
