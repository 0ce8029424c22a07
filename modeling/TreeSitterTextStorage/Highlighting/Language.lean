import TreeSitterTextStorage.Highlighting.Theme

/-! # Languages

`Language.swift` and `Symbol.swift`: which grammar symbols are tokens of which type, and the symbol
metadata of a grammar. -/

namespace TreeSitterTextStorage

/-- `TSSymbolMetadata`. -/
structure TSSymbolMetadata where
  /-- Whether handles see nodes with the symbol. -/
  visible : Bool
  /-- Whether the symbol is named in the grammar. -/
  named : Bool
  /-- Whether nodes with the symbol contribute to the structure of the tree. -/
  structural : Bool
  /-- Whether nodes with the symbol may stand anywhere. -/
  extra : Bool
  deriving DecidableEq, Repr

/-- A language: what its `LanguageSymbolProtocol` type and its `TSLanguage` table provide. The cases
of the enumeration `Language` for which no such type exists make every use of the language trap. -/
structure Language where
  /-- `tokenType(for:at:)`, which reads nothing but the symbol of the node. -/
  tokenType : UInt16 → Option TokenType
  /-- `symbol_count`. -/
  symbolCount : ℕ
  /-- `symbol_metadata`. -/
  symbolMetadata : UInt16 → TSSymbolMetadata
  /-- Only symbols of the table are tokens. -/
  lt_of_tokenType : ∀ symbol type, tokenType symbol = some type → symbol.toNat < symbolCount

/-- `Language.metadata(for:)`, which traps on a symbol behind the table. -/
def Language.metadata (language : Language) (symbol : UInt16) : Option TSSymbolMetadata :=
  if symbol.toNat < language.symbolCount then some (language.symbolMetadata symbol) else none

/-- The metadata of a token's symbol exists. -/
theorem Language.metadata_of_tokenType {language : Language} {symbol : UInt16} {type : TokenType}
    (h : language.tokenType symbol = some type) :
    language.metadata symbol = some (language.symbolMetadata symbol) :=
  if_pos (language.lt_of_tokenType symbol type h)

/-! ## JSON -/

/-- `Json`. -/
inductive Json where
  | anonSymLBRACE
  | anonSymCOMMA
  | anonSymRBRACE
  | anonSymCOLON
  | anonSymLBRACK
  | anonSymRBRACK
  | symString
  | symNumber
  | symTrue
  | symFalse
  | symNull
  | symValue
  | symObject
  | symPair
  | symArray
  | auxSymObjectRepeat1
  | auxSymArrayRepeat1
  deriving DecidableEq, Repr

namespace Json

/-- `Json.rawValue`. -/
def rawValue : Json → UInt16
  | anonSymLBRACE => 1
  | anonSymCOMMA => 2
  | anonSymRBRACE => 3
  | anonSymCOLON => 4
  | anonSymLBRACK => 5
  | anonSymRBRACK => 6
  | symString => 7
  | symNumber => 8
  | symTrue => 9
  | symFalse => 10
  | symNull => 11
  | symValue => 12
  | symObject => 13
  | symPair => 14
  | symArray => 15
  | auxSymObjectRepeat1 => 16
  | auxSymArrayRepeat1 => 17

/-- All symbols. -/
def all : List Json :=
  [anonSymLBRACE, anonSymCOMMA, anonSymRBRACE, anonSymCOLON, anonSymLBRACK, anonSymRBRACK, symString,
    symNumber, symTrue, symFalse, symNull, symValue, symObject, symPair, symArray,
    auxSymObjectRepeat1, auxSymArrayRepeat1]

/-- `Json.init?(rawValue:)`. -/
def ofRawValue (symbol : UInt16) : Option Json := all.find? fun json => json.rawValue = symbol

/-- `Json.tokenType(for:at:)`. -/
def tokenType (symbol : UInt16) : Option TokenType :=
  match ofRawValue symbol with
  | some symString => some .string
  | some symFalse | some symTrue | some symNull => some .keyword
  | some symNumber => some .number
  | _ => none

/-- `ts_symbol_metadata` of `json.c`. -/
def symbolMetadata (symbol : UInt16) : TSSymbolMetadata :=
  match ofRawValue symbol with
  | none => { visible := false, named := true, structural := true, extra := false }
  | some anonSymLBRACE | some anonSymCOMMA | some anonSymRBRACE | some anonSymCOLON
  | some anonSymLBRACK | some anonSymRBRACK =>
      { visible := true, named := false, structural := true, extra := false }
  | some symString | some symNumber | some symTrue | some symFalse | some symNull
  | some symObject | some symPair | some symArray =>
      { visible := true, named := true, structural := true, extra := false }
  | some symValue => { visible := false, named := true, structural := true, extra := false }
  | some auxSymObjectRepeat1 | some auxSymArrayRepeat1 =>
      { visible := false, named := false, structural := true, extra := false }

/-- Every symbol lies inside the table of `json.c`. -/
theorem lt_of_ofRawValue {symbol : UInt16} {json : Json} (h : ofRawValue symbol = some json) :
    symbol.toNat < 18 := by
  have heq : json.rawValue = symbol := by simpa using List.find?_some h
  rw [← heq]
  cases json <;> decide

end Json

/-- `Language.json`. -/
def Language.json : Language where
  tokenType := Json.tokenType
  symbolCount := 18
  symbolMetadata := Json.symbolMetadata
  lt_of_tokenType symbol type h := by
    rw [Json.tokenType] at h
    cases hsymbol : Json.ofRawValue symbol with
    | none => rw [hsymbol] at h; exact absurd h (by simp)
    | some json => exact Json.lt_of_ofRawValue hsymbol

/-! ## C++ -/

/-- The cases of `Cpp` that `Cpp.tokenType(for:at:)` names. -/
inductive Cpp where
  | symNumberLiteral
  | symStringLiteral
  | symSystemLibString
  | symIdentifier
  | symComment
  | symAuto
  | symBreakStatement
  deriving DecidableEq, Repr

namespace Cpp

/-- `Cpp.rawValue`. -/
def rawValue : Cpp → UInt16
  | symNumberLiteral => 87
  | symStringLiteral => 89
  | symSystemLibString => 90
  | symIdentifier => 91
  | symComment => 92
  | symAuto => 95
  | symBreakStatement => 156

/-- All symbols. -/
def all : List Cpp :=
  [symNumberLiteral, symStringLiteral, symSystemLibString, symIdentifier, symComment, symAuto,
    symBreakStatement]

/-- `Cpp.init?(rawValue:)`, with every other symbol among the symbols that are no token. -/
def ofRawValue (symbol : UInt16) : Option Cpp := all.find? fun cpp => cpp.rawValue = symbol

/-- `Cpp.tokenType(for:at:)`. -/
def tokenType (symbol : UInt16) : Option TokenType :=
  match ofRawValue symbol with
  | some symComment => some .comment
  | some symStringLiteral | some symSystemLibString => some .string
  | some symAuto | some symBreakStatement => some .keyword
  | some symNumberLiteral => some .number
  | some symIdentifier => some .projectMethodNames
  | none => none

end Cpp

/-- `Language.cpp`. Its table is generated code outside the repository; `Cpp` has the raw values up
to `230`. -/
def Language.cpp (symbolCount : ℕ) (symbolMetadata : UInt16 → TSSymbolMetadata)
    (h : 230 < symbolCount) : Language where
  tokenType := Cpp.tokenType
  symbolCount := symbolCount
  symbolMetadata := symbolMetadata
  lt_of_tokenType symbol type hsome := by
    rw [Cpp.tokenType] at hsome
    cases hsymbol : Cpp.ofRawValue symbol with
    | none => rw [hsymbol] at hsome; exact absurd hsome (by simp)
    | some cpp =>
        have heq : cpp.rawValue = symbol := by simpa using List.find?_some hsymbol
        have hlt : cpp.rawValue.toNat ≤ 230 := by cases cpp <;> decide
        rw [← heq]
        exact Nat.lt_of_le_of_lt hlt h

end TreeSitterTextStorage
