import TreeSitterTextStorage.Highlighting.Language
import TreeSitterTextStorage.Runtime.Lexing

/-! # The parser of JSON

The generated `parser.c` of `tree-sitter-json`: its lexing function and its tables. Entries that the
initializers leave out are `0`. The names of the symbols are left out, since no function of a parse
reads them. -/

namespace TreeSitterTextStorage.Json

/-! ## The lexing function -/

/-- `ADVANCE`. -/
def advance (state : UInt16) : LexTurn := { next := some (false, state) }

/-- `SKIP`. -/
def skip (state : UInt16) : LexTurn := { next := some (true, state) }

/-- `END_STATE`. -/
def endState : LexTurn := {}

/-- `ACCEPT_TOKEN`, in front of the rest of a state. -/
def accepting (symbol : Json) (turn : LexTurn) : LexTurn :=
  { turn with accept := some symbol.rawValue }

/-- Whether a lookahead is a character. -/
abbrev Is (c : Char) (lookahead : ℤ) : Prop := lookahead = c.toNat

/-- Whether a lookahead is a character of a range. -/
abbrev Within (first last : Char) (lookahead : ℤ) : Prop :=
  first.toNat ≤ lookahead ∧ lookahead ≤ last.toNat

/-- The white space that is skipped. -/
abbrev IsSpace (lookahead : ℤ) : Prop :=
  Is '\t' lookahead ∨ Is '\n' lookahead ∨ Is '\r' lookahead ∨ Is ' ' lookahead

/-- A hexadecimal digit. -/
abbrev IsHexDigit (lookahead : ℤ) : Prop :=
  Within '0' '9' lookahead ∨ Within 'A' 'F' lookahead ∨ Within 'a' 'f' lookahead

/-- `ts_lex`. -/
def tsLex (state : UInt16) (lookahead : ℤ) : LexTurn :=
  match state.toNat with
  | 0 =>
      if lookahead = 0 then advance 1
      else if IsSpace lookahead then skip 0
      else if Is '\x22' lookahead then advance 2
      else if Is ',' lookahead then advance 5
      else if Is '0' lookahead then advance 6
      else if Within '1' '9' lookahead then advance 8
      else if Is ':' lookahead then advance 11
      else if Is '[' lookahead then advance 12
      else if Is ']' lookahead then advance 13
      else if Is 'f' lookahead then advance 14
      else if Is 'n' lookahead then advance 19
      else if Is 't' lookahead then advance 23
      else if Is '{' lookahead then advance 27
      else if Is '}' lookahead then advance 28
      else endState
  | 1 => { accept := some tsBuiltinSymEnd }
  | 2 =>
      if Is '\x22' lookahead then advance 3
      else if Is '\\' lookahead then advance 4
      else if ¬ (lookahead = 0 ∨ Is '\n' lookahead ∨ Is '\x22' lookahead ∨ Is '\\' lookahead) then
        advance 2
      else endState
  | 3 => accepting symString endState
  | 4 =>
      if ¬ (lookahead = 0 ∨ Is '\n' lookahead) then advance 2
      else endState
  | 5 => accepting anonSymCOMMA endState
  | 6 => accepting symNumber <|
      if Is '.' lookahead then advance 7
      else if Within '0' '9' lookahead then advance 8
      else if Is 'x' lookahead then advance 9
      else endState
  | 7 => accepting symNumber <|
      if Within '0' '9' lookahead then advance 7
      else endState
  | 8 => accepting symNumber <|
      if Is '.' lookahead then advance 7
      else if Within '0' '9' lookahead then advance 8
      else endState
  | 9 =>
      if IsHexDigit lookahead then advance 10
      else endState
  | 10 => accepting symNumber <|
      if IsHexDigit lookahead then advance 10
      else endState
  | 11 => accepting anonSymCOLON endState
  | 12 => accepting anonSymLBRACK endState
  | 13 => accepting anonSymRBRACK endState
  | 14 =>
      if Is 'a' lookahead then advance 15
      else endState
  | 15 =>
      if Is 'l' lookahead then advance 16
      else endState
  | 16 =>
      if Is 's' lookahead then advance 17
      else endState
  | 17 =>
      if Is 'e' lookahead then advance 18
      else endState
  | 18 => accepting symFalse endState
  | 19 =>
      if Is 'u' lookahead then advance 20
      else endState
  | 20 =>
      if Is 'l' lookahead then advance 21
      else endState
  | 21 =>
      if Is 'l' lookahead then advance 22
      else endState
  | 22 => accepting symNull endState
  | 23 =>
      if Is 'r' lookahead then advance 24
      else endState
  | 24 =>
      if Is 'u' lookahead then advance 25
      else endState
  | 25 =>
      if Is 'e' lookahead then advance 26
      else endState
  | 26 => accepting symTrue endState
  | 27 => accepting anonSymLBRACE endState
  | 28 => accepting anonSymRBRACE endState
  | 29 =>
      if IsSpace lookahead then skip 29
      else if Is '\x22' lookahead then advance 2
      else if Is '0' lookahead then advance 6
      else if Within '1' '9' lookahead then advance 8
      else if Is '[' lookahead then advance 12
      else if Is 'f' lookahead then advance 14
      else if Is 'n' lookahead then advance 19
      else if Is 't' lookahead then advance 23
      else if Is '{' lookahead then advance 27
      else endState
  | 30 =>
      if IsSpace lookahead then skip 30
      else if Is '\x22' lookahead then advance 2
      else if Is '0' lookahead then advance 6
      else if Within '1' '9' lookahead then advance 8
      else if Is '}' lookahead then advance 28
      else endState
  | 31 =>
      if IsSpace lookahead then skip 31
      else if Is '\x22' lookahead then advance 2
      else if Is '0' lookahead then advance 6
      else if Within '1' '9' lookahead then advance 8
      else if Is '[' lookahead then advance 12
      else if Is ']' lookahead then advance 13
      else if Is 'f' lookahead then advance 14
      else if Is 'n' lookahead then advance 19
      else if Is 't' lookahead then advance 23
      else if Is '{' lookahead then advance 27
      else endState
  | 32 =>
      if lookahead = 0 then advance 1
      else if IsSpace lookahead then skip 32
      else if Is ',' lookahead then advance 5
      else if Is ']' lookahead then advance 13
      else if Is '}' lookahead then advance 28
      else endState
  | 33 =>
      if lookahead = 0 then advance 1
      else if IsSpace lookahead then skip 33
      else endState
  | 34 =>
      if IsSpace lookahead then skip 34
      else if Is ',' lookahead then advance 5
      else if Is ']' lookahead then advance 13
      else endState
  | 35 =>
      if IsSpace lookahead then skip 35
      else if Is ':' lookahead then advance 11
      else endState
  | 36 =>
      if IsSpace lookahead then skip 36
      else if Is ',' lookahead then advance 5
      else if Is '}' lookahead then advance 28
      else endState
  | 37 =>
      if IsSpace lookahead then skip 37
      else if Is '\x22' lookahead then advance 2
      else if Is '0' lookahead then advance 6
      else if Within '1' '9' lookahead then advance 8
      else endState
  | 38 =>
      if lookahead = 0 then advance 1
      else if IsSpace lookahead then skip 38
      else if Is ',' lookahead then advance 5
      else if Is ':' lookahead then advance 11
      else if Is ']' lookahead then advance 13
      else if Is '}' lookahead then advance 28
      else endState
  | _ => endState

/-! ## Tables -/

/-- `ts_lex_modes`: the lex state of each state. -/
def tsLexModes : List UInt16 :=
  [0, 29, 30, 31, 32, 33, 32, 34, 29, 32, 34, 29, 32, 34, 34, 32, 35, 36, 37, 32, 36, 37, 32, 36,
    36, 29, 36, 29, 32, 32, 38, 32, 36, 34, 36]

/-- A row of `ts_parse_table`: the entry for the end of the text, and those for other symbols. -/
def row (atEnd : UInt16) (entries : List (Json × UInt16)) : List (UInt16 × UInt16) :=
  (tsBuiltinSymEnd, atEnd) :: entries.map fun entry => (entry.1.rawValue, entry.2)

/-- `ts_parse_table`. -/
def tsParseTable : List (List (UInt16 × UInt16)) := [
  row 1 [(symValue, 31), (symObject, 4), (symPair, 32), (symArray, 4), (auxSymObjectRepeat1, 20),
    (auxSymArrayRepeat1, 10), (anonSymLBRACE, 3), (anonSymCOMMA, 5), (anonSymRBRACE, 7),
    (anonSymCOLON, 9), (anonSymLBRACK, 11), (anonSymRBRACK, 13), (symString, 15), (symNumber, 17),
    (symTrue, 19), (symFalse, 19), (symNull, 19)],
  row 0 [(symValue, 5), (symObject, 4), (symArray, 4), (anonSymLBRACE, 21), (anonSymLBRACK, 23),
    (symString, 25), (symNumber, 27), (symTrue, 25), (symFalse, 25), (symNull, 25)],
  row 0 [(symPair, 17), (anonSymRBRACE, 29), (symString, 31), (symNumber, 33)],
  row 0 [(symValue, 7), (symObject, 4), (symArray, 4), (anonSymLBRACE, 21), (anonSymLBRACK, 23),
    (anonSymRBRACK, 35), (symString, 25), (symNumber, 27), (symTrue, 25), (symFalse, 25),
    (symNull, 25)],
  row 37 [(anonSymCOMMA, 37), (anonSymRBRACE, 37), (anonSymRBRACK, 37)],
  row 39 [],
  row 41 [(anonSymCOMMA, 41), (anonSymRBRACE, 41), (anonSymRBRACK, 41)],
  row 0 [(auxSymArrayRepeat1, 10), (anonSymCOMMA, 43), (anonSymRBRACK, 45)],
  row 0 [(symValue, 14), (symObject, 4), (symArray, 4), (anonSymLBRACE, 21), (anonSymLBRACK, 23),
    (symString, 25), (symNumber, 27), (symTrue, 25), (symFalse, 25), (symNull, 25)],
  row 47 [(anonSymCOMMA, 47), (anonSymRBRACE, 47), (anonSymRBRACK, 47)],
  row 0 [(anonSymCOMMA, 49), (anonSymRBRACK, 51)],
  row 0 [(symValue, 13), (symObject, 4), (symArray, 4), (anonSymLBRACE, 21), (anonSymLBRACK, 23),
    (symString, 25), (symNumber, 27), (symTrue, 25), (symFalse, 25), (symNull, 25)],
  row 53 [(anonSymCOMMA, 53), (anonSymRBRACE, 53), (anonSymRBRACK, 53)],
  row 0 [(anonSymCOMMA, 55), (anonSymRBRACK, 55)],
  row 0 [(anonSymCOMMA, 57), (anonSymRBRACK, 57)],
  row 59 [(anonSymCOMMA, 59), (anonSymRBRACE, 59), (anonSymRBRACK, 59)],
  row 0 [(anonSymCOLON, 61)],
  row 0 [(auxSymObjectRepeat1, 20), (anonSymCOMMA, 63), (anonSymRBRACE, 65)],
  row 0 [(symPair, 24), (symString, 31), (symNumber, 33)],
  row 67 [(anonSymCOMMA, 67), (anonSymRBRACE, 67), (anonSymRBRACK, 67)],
  row 0 [(anonSymCOMMA, 69), (anonSymRBRACE, 71)],
  row 0 [(symPair, 23), (symString, 31), (symNumber, 33)],
  row 73 [(anonSymCOMMA, 73), (anonSymRBRACE, 73), (anonSymRBRACK, 73)],
  row 0 [(anonSymCOMMA, 75), (anonSymRBRACE, 75)],
  row 0 [(anonSymCOMMA, 77), (anonSymRBRACE, 77)],
  row 0 [(symValue, 26), (symObject, 4), (symArray, 4), (anonSymLBRACE, 21), (anonSymLBRACK, 23),
    (symString, 25), (symNumber, 27), (symTrue, 25), (symFalse, 25), (symNull, 25)],
  row 0 [(anonSymCOMMA, 79), (anonSymRBRACE, 79)],
  row 0 [(symValue, 33), (symObject, 4), (symPair, 34), (symArray, 4), (anonSymLBRACE, 21),
    (anonSymLBRACK, 23), (symString, 81), (symNumber, 83), (symTrue, 25), (symFalse, 25),
    (symNull, 25)],
  row 85 [(anonSymCOMMA, 85), (anonSymRBRACE, 85), (anonSymRBRACK, 85)],
  row 89 [(anonSymCOMMA, 89), (anonSymRBRACE, 89), (anonSymRBRACK, 89)],
  row 37 [(anonSymCOMMA, 37), (anonSymRBRACE, 37), (anonSymCOLON, 61), (anonSymRBRACK, 37)],
  row 39 [(auxSymArrayRepeat1, 10), (anonSymCOMMA, 93), (anonSymRBRACE, 79), (anonSymRBRACK, 98)],
  row 0 [(auxSymObjectRepeat1, 20), (anonSymCOMMA, 102), (anonSymRBRACE, 106)],
  row 0 [(anonSymCOMMA, 110), (anonSymRBRACK, 110)],
  row 0 [(anonSymCOMMA, 113), (anonSymRBRACE, 113)]]

/-- `SHIFT`. -/
def shift (toState : UInt16) : TSParseAction := { type := .shift, toState := toState }

/-- `REDUCE`. -/
def reduce (symbol : Json) (childCount : ℕ) : TSParseAction :=
  { type := .reduce, symbol := symbol.rawValue, childCount := childCount }

/-- `RECOVER`. -/
def recover (toState : UInt16) : TSParseAction := { type := .recover, toState := toState }

/-- `ACCEPT_INPUT`. -/
def acceptInput : TSParseAction := { type := .accept }

/-- `ts_parse_actions`: the entries by their indices, each with the actions behind it. -/
def tsParseActions : List (ℕ × TableEntry) := [
  (0, ⟨[], false, false⟩),
  (1, ⟨[recover 0], true, false⟩),
  (3, ⟨[recover 2], true, false⟩),
  (5, ⟨[recover 27], true, false⟩),
  (7, ⟨[recover 28], true, false⟩),
  (9, ⟨[recover 25], true, false⟩),
  (11, ⟨[recover 3], true, false⟩),
  (13, ⟨[recover 29], true, false⟩),
  (15, ⟨[recover 30], true, false⟩),
  (17, ⟨[recover 30], true, true⟩),
  (19, ⟨[recover 4], true, false⟩),
  (21, ⟨[shift 2], true, false⟩),
  (23, ⟨[shift 3], true, false⟩),
  (25, ⟨[shift 4], true, false⟩),
  (27, ⟨[shift 4], true, true⟩),
  (29, ⟨[shift 15], true, false⟩),
  (31, ⟨[shift 16], true, false⟩),
  (33, ⟨[shift 16], true, true⟩),
  (35, ⟨[shift 6], true, false⟩),
  (37, ⟨[reduce symValue 1], true, false⟩),
  (39, ⟨[acceptInput], true, false⟩),
  (41, ⟨[reduce symArray 2], true, false⟩),
  (43, ⟨[shift 8], true, false⟩),
  (45, ⟨[shift 9], true, false⟩),
  (47, ⟨[reduce symArray 3], true, false⟩),
  (49, ⟨[shift 11], true, false⟩),
  (51, ⟨[shift 12], true, false⟩),
  (53, ⟨[reduce symArray 4], true, false⟩),
  (55, ⟨[reduce auxSymArrayRepeat1 3], true, false⟩),
  (57, ⟨[reduce auxSymArrayRepeat1 2], true, false⟩),
  (59, ⟨[reduce symObject 2], true, false⟩),
  (61, ⟨[shift 25], true, false⟩),
  (63, ⟨[shift 18], true, false⟩),
  (65, ⟨[shift 19], true, false⟩),
  (67, ⟨[reduce symObject 3], true, false⟩),
  (69, ⟨[shift 21], true, false⟩),
  (71, ⟨[shift 22], true, false⟩),
  (73, ⟨[reduce symObject 4], true, false⟩),
  (75, ⟨[reduce auxSymObjectRepeat1 3], true, false⟩),
  (77, ⟨[reduce auxSymObjectRepeat1 2], true, false⟩),
  (79, ⟨[reduce symPair 3], true, false⟩),
  (81, ⟨[shift 30], true, false⟩),
  (83, ⟨[shift 30], true, true⟩),
  (85, ⟨[reduce symObject 2, reduce symObject 3, reduce symObject 4], true, false⟩),
  (89, ⟨[reduce symArray 2, reduce symArray 3, reduce symArray 4], true, false⟩),
  (93, ⟨[reduce auxSymArrayRepeat1 2, reduce symPair 3, reduce auxSymArrayRepeat1 3,
    shift 8], true, false⟩),
  (98, ⟨[reduce auxSymArrayRepeat1 2, reduce auxSymArrayRepeat1 3, shift 9], true, false⟩),
  (102, ⟨[reduce auxSymObjectRepeat1 2, reduce auxSymObjectRepeat1 3, shift 18], true, false⟩),
  (106, ⟨[reduce auxSymObjectRepeat1 2, reduce auxSymObjectRepeat1 3, shift 19], true, false⟩),
  (110, ⟨[reduce auxSymArrayRepeat1 2, reduce auxSymArrayRepeat1 3], true, false⟩),
  (113, ⟨[reduce auxSymObjectRepeat1 2, reduce auxSymObjectRepeat1 3], true, false⟩)]

/-- `tree_sitter_json`. -/
def treeSitterJson : TSLanguage where
  symbolCount := 18
  tokenCount := 12
  symbolMetadata := Json.symbolMetadata
  parseTable index :=
    ((tsParseTable.getD (index / 18) []).lookup (UInt16.ofNat (index % 18))).getD 0
  parseActions index := (tsParseActions.lookup index).getD ⟨[], false, false⟩
  lexModes state := ⟨tsLexModes.getD state.toNat 0, 0⟩
  lexFn := tsLex

/-! ## Skipping -/

/-- The states in which the lexing function starts. -/
def startStates : List ℕ := [0, 29, 30, 31, 32, 33, 34, 35, 36, 37, 38]

/-- What a state does when it goes on inside a token, or stops. -/
def GoesOnInside (turn : LexTurn) : Prop :=
  ∀ skipped next, turn.next = some (skipped, next) → skipped = false ∧ next.toNat ∉ startStates

theorem goesOnInside_endState : GoesOnInside endState :=
  fun _ _ h => absurd h (Option.some_ne_none _).symm

theorem goesOnInside_advance {state : UInt16} (h : state.toNat ∉ startStates) :
    GoesOnInside (advance state) := by
  intro skipped next hnext
  obtain ⟨rfl, rfl⟩ := Prod.mk.inj (Option.some.inj hnext)
  exact ⟨rfl, h⟩

theorem GoesOnInside.ite {p : Prop} [Decidable p] {turn turn' : LexTurn} (h : GoesOnInside turn)
    (h' : GoesOnInside turn') : GoesOnInside (if p then turn else turn') := by
  split
  · exact h
  · exact h'

/-- Inside a token the lexing function stays there. -/
theorem goesOnInside_tsLex {state : UInt16} (h : state.toNat ∉ startStates) (lookahead : ℤ) :
    GoesOnInside (tsLex state lookahead) := by
  have hadvance : ∀ state : UInt16, state.toNat ∉ startStates → GoesOnInside (advance state) :=
    fun state => goesOnInside_advance
  rw [tsLex]
  split
  all_goals
    first
    | exact absurd (by decide) (‹state.toNat = _› ▸ h)
    | exact goesOnInside_endState
    | exact (hadvance _ (by decide)).ite goesOnInside_endState
    | exact (hadvance _ (by decide)).ite ((hadvance _ (by decide)).ite goesOnInside_endState)
    | exact (hadvance _ (by decide)).ite
        ((hadvance _ (by decide)).ite ((hadvance _ (by decide)).ite goesOnInside_endState))

/-- Where the lexing function starts, it accepts nothing. -/
theorem accept_tsLex {state : UInt16} (h : state.toNat ∈ startStates) (lookahead : ℤ) :
    (tsLex state lookahead).accept = none := by
  rw [tsLex]
  split
  all_goals
    first
    | exact absurd h (‹state.toNat = _› ▸ by decide)
    | simp only [apply_ite LexTurn.accept, advance, skip, endState, ite_self]

/-- Only where the lexing function starts it may still skip. -/
theorem mem_startStates_of_maySkip {state : UInt16} (h : treeSitterJson.MaySkip state) :
    state.toNat ∈ startStates := by
  by_contra hnot
  induction h with
  | skips hnext => exact Bool.true_eq_false.mp (goesOnInside_tsLex hnot _ _ _ hnext).1
  | leads hnext _ ih => exact ih (goesOnInside_tsLex hnot _ _ _ hnext).2

/-- **The parser of JSON skips in front of its tokens** only. -/
theorem skipsInFront_treeSitterJson : treeSitterJson.SkipsInFront :=
  fun _ lookahead h => accept_tsLex (mem_startStates_of_maySkip h) lookahead


end TreeSitterTextStorage.Json
