import TreeSitterTextStorage.Runtime.Lexer
import TreeSitterTextStorage.Runtime.ParseTable

/-! # Lexing a token

`parser__lex`, which drives a generated lexing function over the text: when the function finds no
token in the lexical mode of the parse state, the mode of the error state is tried, and then
characters are skipped until it finds one. -/

namespace TreeSitterTextStorage

open Program

variable {π : Type}

/-- A function of a lexer and of the payload that it reads from. -/
def onLexer (f : Lexer → π → Option (Lexer × π)) : Program (Lexer × π) Unit := fun state =>
  (f state.1 state.2).map fun next => ((), next)

/-- `ts_lexer__mark_end`. -/
def tsLexerMarkEnd (self : Lexer) : Lexer := { self with tokenEndPosition := self.currentPosition }

/-- `ACCEPT_TOKEN`. -/
def acceptToken (accept : Option UInt16) (self : Lexer) : Lexer :=
  match accept with
  | none => self
  | some symbol => tsLexerMarkEnd { self with resultSymbol := symbol }

/-- What `parser__lex` carries from one attempt to the next. -/
structure LexAttempt where
  /-- `lex_mode`. -/
  lexMode : TSLexMode
  /-- `found_error`. -/
  foundError : Bool := false
  /-- `skipped_error`. -/
  skippedError : Bool := false
  /-- `first_error_character`. -/
  firstErrorCharacter : ℤ := 0
  /-- `error_start_position`. -/
  errorStartPosition : Length := Length.zero
  /-- `error_end_position`. -/
  errorEndPosition : Length := Length.zero

/-- The part of `parser__lex` that starts to skip characters. -/
def LexAttempt.skip (lexer : Lexer) (self : LexAttempt) : LexAttempt :=
  if self.skippedError then self
  else
    { self with
      skippedError := true
      errorStartPosition := lexer.tokenStartPosition
      errorEndPosition := lexer.tokenStartPosition
      firstErrorCharacter := lexer.lookahead }

section Language

variable (language : TSLanguage) (input : TSInput π)

/-- A call of `lex_fn`: whether it has accepted a token. The number of its states is
bounded by `fuel`. -/
def lexFnCall (fuel : ℕ) (state : UInt16) : Program (Lexer × π) Bool :=
  loop (fun (vars : UInt16 × Bool) => do
    let (lexer, _) ← get
    let turn := language.lexFn vars.1 lexer.lookahead
    modify fun state => (acceptToken turn.accept state.1, state.2)
    let result := vars.2 || turn.accept.isSome
    match turn.next with
    | none => pure (.inr result)
    | some (skip, next) => do
        onLexer fun lexer payload => tsLexerAdvance input lexer payload skip
        pure (.inl (next, result))) fuel (state, false)

/-- The loop of `parser__lex` from a position on. The number of attempts is bounded by `fuel`. -/
def lexAttempts (fuel : ℕ) (start : Length) (lexMode : TSLexMode) :
    Program (Lexer × π) LexAttempt := do
  modify fun state => (tsLexerReset state.1 start, state.2)
  loop (fun (attempt : LexAttempt) => do
    onLexer (tsLexerStart input)
    let accepted ← lexFnCall language input fuel attempt.lexMode.lexState
    if accepted then do
      modify fun state =>
        (if state.1.tokenEndPosition.hasUnknownChars then tsLexerMarkEnd state.1
          else state.1, state.2)
      pure (.inr attempt)
    else if attempt.foundError = false then do
      modify fun state => (tsLexerReset state.1 start, state.2)
      pure (.inl { attempt with foundError := true, lexMode := language.lexModes errorState })
    else do
      let (lexer, _) ← get
      let attempt := attempt.skip lexer
      if lexer.currentPosition.bytes = attempt.errorEndPosition.bytes then
        if lexer.lookahead = 0 then do
          modify fun state => ({ state.1 with resultSymbol := tsBuiltinSymError }, state.2)
          pure (.inr attempt)
        else do
          onLexer fun lexer payload => tsLexerAdvance input lexer payload false
          let (lexer, _) ← get
          pure (.inl { attempt with errorEndPosition := lexer.currentPosition })
      else pure (.inl { attempt with errorEndPosition := lexer.currentPosition })) fuel
        { lexMode := lexMode }

/-- The end of `parser__lex`: the leaf of a token, or of the characters that were skipped. -/
def lexedLeaf (address : ℕ) (parseState : UInt16) (start : Length) (attempt : LexAttempt)
    (lexer : Lexer) : SyntaxTree :=
  let result :=
    if attempt.skippedError then
      tsTreeMakeError address (lengthSub attempt.errorEndPosition attempt.errorStartPosition)
        (lengthSub attempt.errorStartPosition start) attempt.firstErrorCharacter
    else
      tsTreeMakeLeaf address lexer.resultSymbol (lengthSub lexer.tokenStartPosition start)
        (lengthSub lexer.tokenEndPosition lexer.tokenStartPosition)
        (language.metadata lexer.resultSymbol)
  .node
    { result.label with
      bytesScanned := wrapAdd (wrapSub lexer.currentPosition.bytes start.bytes) 1
      parseState := parseState
      firstLeafLexMode := attempt.lexMode } []

/-- `parser__lex` at a position, in a parse state. -/
def lexLeaf (fuel address : ℕ) (parseState : UInt16) (start : Length) :
    Program (Lexer × π) SyntaxTree := do
  let attempt ← lexAttempts language input fuel start (language.lexModes parseState)
  let (lexer, _) ← get
  pure (lexedLeaf language address parseState start attempt lexer)

/-- `ts_lexer_advance_to_end`. -/
def tsLexerAdvanceToEnd (fuel : ℕ) : Program (Lexer × π) Unit :=
  loop (fun (_ : Unit) => do
    let (lexer, _) ← get
    if lexer.lookahead ≠ 0 then do
      onLexer fun lexer payload => tsLexerAdvance input lexer payload false
      pure (.inl ())
    else pure (.inr ())) fuel ()

end Language

/-! ## Skipping -/

/-- A skip can be reached from a state of the lexing function. -/
inductive TSLanguage.MaySkip (language : TSLanguage) : UInt16 → Prop
  /-- The state skips. -/
  | skips {state next : UInt16} {lookahead : ℤ}
      (h : (language.lexFn state lookahead).next = some (true, next)) : MaySkip language state
  /-- The state leads to one that may skip. -/
  | leads {state next : UInt16} {lookahead : ℤ} {skip : Bool}
      (h : (language.lexFn state lookahead).next = some (skip, next))
      (hnext : MaySkip language next) :
      MaySkip language state

/-- The lexing function skips only in front of its tokens: behind a state that accepts
nothing is skipped. -/
def TSLanguage.SkipsInFront (language : TSLanguage) : Prop :=
  ∀ state lookahead, language.MaySkip state → (language.lexFn state lookahead).accept = none

end TreeSitterTextStorage
