import TreeSitterTextStorage.Highlighting.AttributedString
import TreeSitterTextStorage.Storage.Document

/-! # The text storage

`TextStorage.swift`: a text storage that keeps its text in the buffer of a document, answers attribute
queries from the document's tree through a cache with one entry per location, and edits the buffer.
The log on the console is left out. -/

namespace TreeSitterTextStorage

open RoseTree

/-- An entry of the attribute cache. -/
structure CacheEntry where
  /-- The token type whose colour the location has, if any. -/
  tokenType : Option TokenType
  /-- The effective range. -/
  range : CountableClosedRange
  deriving DecidableEq, Repr

/-- `TextStorage`. -/
structure TextStorage where
  /-- The colour theme. -/
  theme : ColorTheme
  /-- The language. -/
  language : Language
  /-- The document. -/
  document : Document
  /-- The length of the text, as the storage keeps it. -/
  _length : ℕ
  /-- What attribute queries have stored. -/
  cache : List (Option CacheEntry)

/-- What an attribute query returns, and what it writes through its range pointer. -/
structure Answer where
  /-- The attributes at the location. -/
  attributes : Attributes
  /-- The effective range; `none` when the caller passes no pointer. -/
  effectiveRange : Option NSRange
  deriving DecidableEq, Repr

/-- `font`. -/
def font : UIFont := ⟨"Menlo", 14⟩

/-- `attributesForColor(_:)`. -/
def attributesForColor (color : UIColor) : Attributes := ⟨some color, some font⟩

/-- Attributes are equal exactly when their colours are. -/
@[simp] theorem attributesForColor_inj {c d : UIColor} :
    attributesForColor c = attributesForColor d ↔ c = d := by
  rw [attributesForColor, attributesForColor, Attributes.mk.injEq, Option.some.injEq]
  exact and_iff_left rfl

namespace TextStorage

/-- `textColor`: `ColorTheme.civicModified[.text]!`, whatever the theme of the storage. -/
def textColor : UIColor := .white

/-- The forced lookup succeeds. -/
example : ColorTheme.civicModified.color .text = some textColor := rfl

/-- `string`. -/
def string (self : TextStorage) : Option Text := decodeUtf16 self.document.input.data

/-- `length`, which `NSAttributedString` takes from `string`. -/
def length (self : TextStorage) : Option ℕ := self.string.map List.length

/-- `init(string:theme:language:)`. -/
def init (parser : Parser) (string : Text) (theme : ColorTheme) (language : Language) :
    Option TextStorage := do
  let data := utf16Data string
  let document ← Document.init parser (Input.init data) language
  let self : TextStorage :=
    { theme := theme
      language := language
      document := document
      _length := 0
      cache := List.replicate data.length none }
  let length ← self.length
  let length ← toUInt32 length
  some { self with _length := length }

/-! ## Attribute queries -/

/-- The guards of `attributes(at:effectiveRange:)` on a node of the walk: the token type and colour
that pass them. The outer `none` is a trap. -/
def passGuards (self : TextStorage) (node : TSNode) : Option (Option (TokenType × UIColor)) :=
  if node.symbol = 0 then some none
  else
    match self.language.tokenType node.symbol with
    | none => some none
    | some tokenType => do
        let metadata ← self.language.metadata node.symbol
        if !metadata.structural then some none
        else
          match self.theme.color tokenType with
          | none => some none
          | some color =>
              -- the guard compares the start with the stored length, and the end with the real one
              if node.start < self._length then do
                let length ← self.length
                let length ← toUInt32 length
                if node.stop < length ∧ node.range.count > 0 then some (some (tokenType, color))
                else some none
              else some none

/-- How the walk of `attributes(at:effectiveRange:)` ends. -/
inductive Walk where
  /-- At a node that passes the guards. -/
  | token (node : Node) (tokenType : TokenType) (color : UIColor)
  /-- At the last node of the walk, `lastNode`. -/
  | exhausted (lastNode : Node)

/-- The loop of `attributes(at:effectiveRange:)`. -/
def walk (self : TextStorage) : Node → List Node → Option Walk
  | lastNode, [] => some (.exhausted lastNode)
  | _, child :: rest => do
      match ← self.passGuards child.label with
      | some (tokenType, color) => some (.token child tokenType color)
      | none => walk self child rest

/-- The range `r` of a location without token: up to the next child of the last node, or the rest of
the text, or the last node. -/
def plainRange (self : TextStorage) (root lastNode : Node) (location : ℕ) : Option NSRange :=
  match lastNode.children.find? fun child => decide (child.label.start > location) with
  | some endNode => (subUInt32 endNode.label.start location).map (⟨location, ·⟩)
  | none =>
      if tsNodeEq root.label lastNode.label then
        (subUInt32 self._length location).map (⟨location, ·⟩)
      else some (NSRange.ofCountableRange lastNode.label.range)

/-- `attributes(at:effectiveRange:)`. The flag says whether the caller passes a range pointer. -/
def attributes (self : TextStorage) (location : ℕ) (range : Bool) :
    Option (Answer × TextStorage) := do
  match ← self.cache[location]? with
  | some cached =>
      -- a hit: the colour is looked up again, the range comes back from a closed one
      let color := cached.tokenType.bind self.theme.color
      some (⟨attributesForColor (color.getD textColor),
        if range then some (NSRange.ofClosedRange cached.range) else none⟩, self)
  | none =>
      let location ← toUInt32 location
      let root ← self.document.rootNode
      match ← self.walk root (TraverseInRangeGenerator.init root location).nodes with
      | .token child tokenType color =>
          let closedRange ← CountableClosedRange.ofCountableRange child.label.range
          some (⟨attributesForColor color,
            if range then some (NSRange.ofCountableRange child.label.range) else none⟩,
            { self with cache := self.cache.set location (some ⟨some tokenType, closedRange⟩) })
      | .exhausted lastNode =>
          -- without a range pointer nothing is stored
          if !range then some (⟨attributesForColor textColor, none⟩, self)
          else
            let r ← self.plainRange root lastNode location
            let uint32range ← r.uint32range
            let closedRange ← CountableClosedRange.ofCountableRange uint32range
            some (⟨attributesForColor textColor, some r⟩,
              { self with cache := self.cache.set location (some ⟨none, closedRange⟩) })

/-! ## Edits -/

/-- What an edit tells the outside: the description that goes to `ts_document_edit`, and the range and
the change in length that go to `edited` and to the delegate. -/
structure Notice where
  /-- The edit description. -/
  edit : TSInputEdit
  /-- The edited range. -/
  range : NSRange
  /-- `changeInLength`. -/
  changeInLength : ℤ
  deriving DecidableEq, Repr

/-- `replaceCharacters(in:with:)`. The delegate and `edited` are told about the edit and change
nothing here. -/
def replaceCharacters (breaks : GraphemeBreaks) (self : TextStorage) (range : NSRange) (str : Text) :
    Option (Notice × TextStorage) := do
  let nsRange := range
  let range ← nsRange.uint32range
  let lengthOfBytes ← toUInt32 (utf16Bytes str).length
  let editExtentEnd ← addUInt32 range.lowerBound lengthOfBytes
  let root ← self.document.rootNode
  let descendant := tsNodeDescendantForCharRange root.label range.lowerBound editExtentEnd
  let startPoint := tsNodeStartPoint descendant
  let endPoint := tsNodeEndPoint descendant
  let startByte ← mulUInt32 range.lowerBound 2
  let bytesRemoved ← toUInt32 range.count
  let bytesAdded ← toUInt32 (characterCount breaks str)
  let edit : TSInputEdit :=
    { startByte := startByte
      bytesRemoved := bytesRemoved
      bytesAdded := bytesAdded
      startPoint := startPoint
      extentRemoved := endPoint
      extentAdded := endPoint }
  -- characters of the replacement, less one element more than the replaced range has
  let delta : ℤ := (characterCount breaks str : ℤ) - range.count
  let unsignedDelta ← toUInt32 delta
  let length ← addUInt32 self._length unsignedDelta
  let cache := List.replicate length none
  -- the tree is edited, but never parsed again
  let document := self.document.makeInputEdit edit
  let input ← document.input.replaceCharactersInRange nsRange str
  some (⟨edit, nsRange, delta⟩,
    { self with
      _length := length
      cache := cache
      document := { document with input := input } })

/-- A replacement of a run of edits: the range and the text that goes there. -/
structure Edit where
  /-- The replaced range. -/
  range : NSRange
  /-- The replacement. -/
  str : Text
  deriving DecidableEq, Repr

/-- One edit of a run. -/
def editStep (breaks : GraphemeBreaks) (self : TextStorage) (edit : Edit) :
    Option (Notice × TextStorage) :=
  self.replaceCharacters breaks edit.range edit.str

/-- The text after an edit. -/
def Edit.apply (text : Text) (edit : Edit) : Text :=
  Splice.splice edit.range.location (edit.range.location + edit.range.length) edit.str text

/-! ## What construction and edits do -/

/-- The storage that shows a text through a tree, as construction leaves it: its length, and an empty
cache of one entry per byte of the data. -/
def opened (text : Text) (tree : Tree) (theme : ColorTheme) (language : Language) : TextStorage where
  theme := theme
  language := language
  document :=
    { tree := some tree
      valid := true
      language := language
      input := Input.init (utf16Data text) }
  _length := text.length
  cache := List.replicate (2 * text.length + 2) none

/-- **A new storage** exists for every text whose length the input can give, and shows it through the
tree of a parse from scratch. -/
theorem init_eq_some_iff {parser : Parser} {text : Text} {theme : ColorTheme} {language : Language}
    {self : TextStorage} :
    init parser text theme language = some self ↔
      2 * text.length < 2 ^ 32 ∧
        self = opened text (parser.parserParse language (utf16Bytes text) none) theme language := by
  simp only [init, Option.bind_eq_bind, Option.bind_eq_some_iff, Document.init_eq_some_iff, length,
    string, Option.map_eq_some_iff, length_utf16Data, Option.some.injEq]
  constructor
  · rintro ⟨document, ⟨hbound, rfl⟩, n, ⟨text', htext', rfl⟩, m, hm, rfl⟩
    rw [Input.init, decodeUtf16_utf16Data, Option.some.injEq] at htext'
    subst htext'
    obtain ⟨heq, -⟩ := toUInt32_eq_some_iff.mp hm
    exact ⟨hbound, by rw [opened, Int.natCast_inj.mp heq]⟩
  · rintro ⟨hbound, rfl⟩
    have hlt : text.length < 2 ^ 32 := by omega
    exact ⟨_, ⟨hbound, rfl⟩, text.length, ⟨text, decodeUtf16_utf16Data text, rfl⟩,
      text.length, toUInt32_eq_some_iff.mpr ⟨rfl, hlt⟩, rfl⟩

/-- **What a completed edit does.** Everything is computed from the range with one element too many
and from the number of characters. -/
theorem replaceCharacters_eq_some {breaks : GraphemeBreaks} {self next : TextStorage} {range : NSRange}
    {str : Text} {notice : Notice}
    (h : self.replaceCharacters breaks range str = some (notice, next)) :
    ∃ input, self.document.input.replaceCharactersInRange range str = some input ∧
      range.length + 1 ≤ characterCount breaks str ∧
      next._length = self._length + (characterCount breaks str - (range.length + 1)) ∧
      next.cache = List.replicate next._length none ∧
      next.document = { self.document.makeInputEdit notice.edit with input := input } ∧
      next.theme = self.theme ∧ next.language = self.language ∧
      notice.range = range ∧
      notice.changeInLength = (characterCount breaks str : ℤ) - (range.length + 1) ∧
      notice.edit.startByte = 2 * range.location ∧
      notice.edit.bytesRemoved = range.length + 1 ∧
      notice.edit.bytesAdded = characterCount breaks str := by
  simp only [replaceCharacters, Option.bind_eq_bind, Option.bind_eq_some_iff, Option.some.injEq,
    Prod.mk.injEq] at h
  obtain ⟨range32, hrange, _, -, _, -, root, -, startByte, hstart, bytesRemoved, hremoved,
    bytesAdded, hadded, unsignedDelta, hdelta, length, hlength, input, hinput, rfl, rfl⟩ := h
  have hcount := NSRange.count_uint32range hrange
  obtain ⟨-, hlower, -⟩ := NSRange.uint32range_eq_some_iff.mp hrange
  obtain ⟨hdelta, -⟩ := toUInt32_eq_some_iff.mp hdelta
  obtain ⟨hlength, -⟩ := addUInt32_eq_some_iff.mp hlength
  obtain ⟨hstart, -⟩ := mulUInt32_eq_some_iff.mp hstart
  obtain ⟨hremoved, -⟩ := toUInt32_eq_some_iff.mp hremoved
  obtain ⟨hadded, -⟩ := toUInt32_eq_some_iff.mp hadded
  rw [hcount] at hdelta hremoved
  refine ⟨input, hinput, by omega, ?_, rfl, rfl, rfl, rfl, rfl, ?_, ?_, ?_, ?_⟩
  · simp only
    omega
  · simp only [hcount]
    omega
  · simp only
    omega
  · simp only
    omega
  · simp only
    omega

end TextStorage

end TreeSitterTextStorage
