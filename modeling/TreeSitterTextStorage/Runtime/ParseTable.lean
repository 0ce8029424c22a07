import TreeSitterTextStorage.Runtime.Stack

/-! # Parse tables

What a generated parser provides to the runtime, the functions of `language.c` that read its tables,
and the comparison of error statuses in `error_costs.c`. External tokens are left out: no language
of the program has any. -/

namespace TreeSitterTextStorage

/-! ## Languages -/

/-- `TSParseActionType`. -/
inductive TSParseActionType where
  | shift
  | reduce
  | accept
  | recover
  deriving DecidableEq, Repr

/-- `TSParseAction`, with the members of `params` side by side. -/
structure TSParseAction where
  /-- What to do. -/
  type : TSParseActionType
  /-- `params.to_state`. -/
  toState : UInt16 := 0
  /-- `params.symbol`. -/
  symbol : UInt16 := 0
  /-- `params.child_count`. -/
  childCount : ℕ := 0
  /-- Whether the token shifted may stand anywhere. -/
  extra : Bool := false
  /-- Whether the node depends on the lookahead. -/
  fragile : Bool := false
  deriving DecidableEq, Repr

/-- `TableEntry`. -/
structure TableEntry where
  /-- The actions, `action_count` of them. -/
  actions : List TSParseAction
  /-- `is_reusable`. -/
  isReusable : Bool
  /-- `depends_on_lookahead`. -/
  dependsOnLookahead : Bool
  deriving DecidableEq, Repr

/-- What a state of a generated lexing function does, as the macros of `parser.h` spell it. -/
structure LexTurn where
  /-- The symbol of `ACCEPT_TOKEN`. -/
  accept : Option UInt16 := none
  /-- The state of `ADVANCE` or, with `true`, of `SKIP`; `none` is `END_STATE`. -/
  next : Option (Bool × UInt16) := none
  deriving DecidableEq, Repr

/-- `TSLanguage`. -/
structure TSLanguage where
  /-- `symbol_count`. -/
  symbolCount : ℕ
  /-- `token_count`. -/
  tokenCount : ℕ
  /-- `symbol_metadata`. -/
  symbolMetadata : UInt16 → TSSymbolMetadata
  /-- `parse_table`, row by row. -/
  parseTable : ℕ → UInt16
  /-- `parse_actions`: the entry with the actions behind it. -/
  parseActions : ℕ → TableEntry
  /-- `lex_modes`. -/
  lexModes : UInt16 → TSLexMode
  /-- `lex_fn`: what a state does with a lookahead. -/
  lexFn : UInt16 → ℤ → LexTurn

namespace TSLanguage

variable (language : TSLanguage)

/-- `ts_language_table_entry`; the assertion on the symbol is `none`. -/
def tableEntry (state symbol : UInt16) : Option TableEntry :=
  if symbol = tsBuiltinSymError then
    if state = errorState then some ⟨[{ type := .shift, toState := errorState }], false, false⟩
    else some (language.parseActions 0)
  else if symbol.toNat < language.tokenCount then
    some (language.parseActions
      (language.parseTable (state.toNat * language.symbolCount + symbol.toNat)).toNat)
  else none

/-- `ts_language_actions`. -/
def actions (state symbol : UInt16) : Option (List TSParseAction) :=
  (language.tableEntry state symbol).map TableEntry.actions

/-- `ts_language_next_state`. -/
def nextState (state symbol : UInt16) : UInt16 :=
  if symbol = tsBuiltinSymError then 0
  else if symbol.toNat < language.tokenCount then
    match ((language.actions state symbol).getD []).getLast? with
    | none => 0
    | some action => if action.type = .shift ∨ action.type = .recover then action.toState else 0
  else language.parseTable (state.toNat * language.symbolCount + symbol.toNat)

/-- `ts_language_symbol_metadata`. -/
def metadata (symbol : UInt16) : TSSymbolMetadata :=
  if symbol = tsBuiltinSymError then
    { visible := true, named := true, extra := false, structural := true }
  else language.symbolMetadata symbol

end TSLanguage

/-- `ts_builtin_sym_end`. -/
def tsBuiltinSymEnd : UInt16 := 0

/-! ## Error statuses -/

/-- `error_status__min_cost`. -/
def errorStatusMinCost (status : ErrorStatus) : ℕ :=
  (status.cost + errorCostPerSkippedTree * status.count * status.count) % 2 ^ 32

/-- `error_status__max_cost`. -/
def errorStatusMaxCost (status : ErrorStatus) : ℕ :=
  (status.cost + errorCostPerSkippedTree * status.count * status.count +
    (6 * errorCostPerSkippedTree * status.count + 12 * errorCostPerSkippedTree) % 2 ^ 32 /
      (1 + status.pushCount / 2)) % 2 ^ 32

/-- `error_status_compare`: whether the first status is better (`-1`) or the second one (`1`). -/
def errorStatusCompare (a b : ErrorStatus) : Ordering :=
  if wrapAdd a.count 1 < b.count ∨ (a.count < b.count ∧ a.cost ≤ b.cost) then .lt
  else if a.count > wrapAdd b.count 1 ∨ (b.count < a.count ∧ b.cost ≤ a.cost) then .gt
  else if errorStatusMaxCost a < errorStatusMinCost b then .lt
  else if errorStatusMinCost a > errorStatusMaxCost b then .gt
  else .eq

end TreeSitterTextStorage
