import Mathlib.Data.Nat.Notation

/-! # Token types and colour themes

`JLTokenType.swift` and `JLColorTheme.swift`. -/

namespace TreeSitterTextStorage

/-- `TokenType`. -/
inductive TokenType where
  | none
  | text
  | background
  | comment
  | documentationComment
  | documentationCommentKeyword
  | string
  | character
  | number
  | keyword
  | preprocessor
  | url
  | attribute
  | project
  | otherMethodNames
  | otherProperties
  | otherConstants
  | otherClassNames
  | projectMethodNames
  | projectProperties
  | projectConstants
  | projectClassNames
  deriving DecidableEq, Repr

/-- `UIColor`: the two grey-scale colours that the program names, and the colours of
`UIColorRGB(_:g:b:)`, which never equal them. -/
inductive UIColor where
  /-- `UIColor.black`. -/
  | black
  /-- `UIColor.white`. -/
  | white
  /-- `UIColorRGB(_:g:b:)`. -/
  | rgb (r g b : ℕ)
  deriving DecidableEq, Repr

/-- `ColorTheme`. -/
inductive ColorTheme where
  | default
  | dusk
  | civicModified
  /-- A theme of the caller's own. -/
  | other (dictionary : TokenType → Option UIColor)

namespace ColorTheme

/-- `ColorTheme.defaultTheme`. -/
def defaultTheme : TokenType → Option UIColor
  | .text => some .black
  | .background => some (.rgb 255 255 255)
  | .comment => some (.rgb 0 131 39)
  | .documentationComment => some (.rgb 0 131 39)
  | .documentationCommentKeyword => some (.rgb 0 76 29)
  | .string => some (.rgb 211 45 38)
  | .character => some (.rgb 40 52 206)
  | .number => some (.rgb 40 52 206)
  | .keyword => some (.rgb 188 49 156)
  | .preprocessor => some (.rgb 120 72 48)
  | .url => some (.rgb 21 67 244)
  | .otherClassNames => some (.rgb 92 38 153)
  | .otherProperties => some (.rgb 92 38 153)
  | .otherMethodNames => some (.rgb 46 13 110)
  | .otherConstants => some (.rgb 46 13 110)
  | .projectClassNames => some (.rgb 63 110 116)
  | .projectProperties => some (.rgb 63 110 116)
  | .projectConstants => some (.rgb 38 71 75)
  | .projectMethodNames => some (.rgb 38 71 75)
  | .none | .attribute | .project => Option.none

/-- `ColorTheme.duskTheme`. -/
def duskTheme : TokenType → Option UIColor
  | .text => some .white
  | .background => some (.rgb 30 32 40)
  | .comment => some (.rgb 72 190 102)
  | .documentationComment => some (.rgb 72 190 102)
  | .documentationCommentKeyword => some (.rgb 72 190 102)
  | .string => some (.rgb 230 66 75)
  | .character => some (.rgb 139 134 201)
  | .number => some (.rgb 139 134 201)
  | .keyword => some (.rgb 195 55 149)
  | .preprocessor => some (.rgb 198 124 72)
  | .url => some (.rgb 35 63 208)
  | .otherClassNames => some (.rgb 4 175 200)
  | .otherMethodNames => some (.rgb 4 175 200)
  | .otherConstants => some (.rgb 4 175 200)
  | .otherProperties => some (.rgb 4 175 200)
  | .projectMethodNames => some (.rgb 131 192 87)
  | .projectClassNames => some (.rgb 131 192 87)
  | .projectConstants => some (.rgb 131 192 87)
  | .projectProperties => some (.rgb 131 192 87)
  | .none | .attribute | .project => Option.none

/-- `ColorTheme.civicModifiedTheme`. -/
def civicModifiedTheme : TokenType → Option UIColor
  | .text => some .white
  | .background => some (.rgb 31 32 41)
  | .comment => some (.rgb 69 187 62)
  | .documentationComment => some (.rgb 34 160 85)
  | .documentationCommentKeyword => some (.rgb 50 207 114)
  | .string => some (.rgb 211 35 46)
  | .character => some (.rgb 116 109 176)
  | .number => some (.rgb 20 156 146)
  | .keyword => some (.rgb 215 0 143)
  | .preprocessor => some (.rgb 199 122 75)
  | .url => some (.rgb 81 36 227)
  | .otherClassNames => some (.rgb 37 144 141)
  | .otherMethodNames => some (.rgb 37 144 141)
  | .otherConstants => some (.rgb 37 144 141)
  | .otherProperties => some (.rgb 37 144 141)
  | .projectMethodNames => some (.rgb 31 155 113)
  | .projectClassNames => some (.rgb 31 155 113)
  | .projectConstants => some (.rgb 31 155 113)
  | .projectProperties => some (.rgb 31 155 113)
  | .none | .attribute | .project => Option.none

/-- `ColorTheme.dictionary`. -/
def dictionary : ColorTheme → TokenType → Option UIColor
  | .default => defaultTheme
  | .dusk => duskTheme
  | .civicModified => civicModifiedTheme
  | .other dictionary => dictionary

/-- `ColorTheme.subscript(type:)`. -/
def color (theme : ColorTheme) (type : TokenType) : Option UIColor := theme.dictionary type

end ColorTheme

end TreeSitterTextStorage
