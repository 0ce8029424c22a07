import TreeSitterTextStorage.Highlighting.AttributedString
import TreeSitterTextStorage.Storage.Document

/-! # The text storage delegate

`TextStorageHelper.swift`: a delegate of a plain text storage that keeps a document of its own, tells
the document about every edit of the text storage, parses again and recolours the text. The output on
the console is left out. -/

namespace TreeSitterTextStorage

open Splice

/-! ## Plain text storages -/

/-- A plain `NSTextStorage`: a string with attributes for every unit. -/
structure NSTextStorage where
  /-- `string`. -/
  string : Text
  /-- The attributes of the units. -/
  attributes : AttributedString
  /-- Every unit has attributes. -/
  length_eq : attributes.length = string.length

namespace NSTextStorage

/-- `length`. -/
def length (self : NSTextStorage) : ℕ := self.string.length

/-- `replaceCharacters(in:with:)`, which raises an exception on a range that leaves the string. Which
attributes the inserted units get is up to the text storage. -/
def replaceCharacters (self : NSTextStorage) (range : NSRange) (str : Text) (attributes : Attributes) :
    Option NSTextStorage :=
  if h : range.location + range.length ≤ self.string.length then
    some
      { string := splice range.location (range.location + range.length) str self.string
        attributes := splice range.location (range.location + range.length)
          (List.replicate str.length attributes) self.attributes
        length_eq := by
          rw [length_splice _ (Nat.le_add_right _ _) h,
            length_splice _ (Nat.le_add_right _ _) (self.length_eq ▸ h), self.length_eq,
            List.length_replicate] }
  else none

/-- `setAttributes(_:range:)`. -/
def setAttributes (self : NSTextStorage) (attributes : Attributes) (range : NSRange) :
    Option NSTextStorage :=
  match h : TreeSitterTextStorage.setAttributes self.attributes attributes range with
  | some painted => some ⟨self.string, painted, (length_setAttributes h).trans self.length_eq⟩
  | none => none

/-- A replacement inside the string completes and splices it. -/
theorem replaceCharacters_of_le {self : NSTextStorage} {range : NSRange} (str : Text)
    (attributes : Attributes) (h : range.location + range.length ≤ self.string.length) :
    ∃ next, self.replaceCharacters range str attributes = some next ∧
      next.string = splice range.location (range.location + range.length) str self.string :=
  ⟨_, dif_pos h, rfl⟩

/-- A replacement that completes lies inside the string and splices it. -/
theorem replaceCharacters_eq_some {self next : NSTextStorage} {range : NSRange} {str : Text}
    {attributes : Attributes} (h : self.replaceCharacters range str attributes = some next) :
    range.location + range.length ≤ self.string.length ∧
      next.string = splice range.location (range.location + range.length) str self.string := by
  unfold replaceCharacters at h
  split at h
  · next hle =>
      rw [Option.some.injEq] at h
      exact ⟨hle, by rw [← h]⟩
  · exact absurd h (by simp)

/-- Setting attributes inside the string completes and keeps the string. -/
theorem setAttributes_eq_some {self : NSTextStorage} {range : NSRange} (attributes : Attributes)
    (h : range.location + range.length ≤ self.length) :
    ∃ painted, self.setAttributes attributes range = some painted ∧
      painted.string = self.string := by
  rw [length, ← self.length_eq] at h
  obtain ⟨painted, hpainted, -⟩ :=
    TreeSitterTextStorage.setAttributes_eq_some attributes h
  unfold setAttributes
  split
  · exact ⟨_, rfl, rfl⟩
  · next hnone => exact absurd (hpainted.symm.trans hnone) (by simp)

end NSTextStorage

/-! ## The delegate -/

namespace TextStorageDelegate

/-- `attributes(forColor:)`. -/
def attributes (color : UIColor) : Attributes := ⟨some color, none⟩

/-- `IndexSet.contains(integersIn: start ... stop)` on the indices below a length. -/
def containsIntegersIn (length start stop : ℕ) : Bool := decide (start < length ∧ stop < length)

/-- One round of the loop of `parse(textStorage:)`. -/
def parseNode (language : Language) (length : ℕ) (textStorage : NSTextStorage) (node : Node) :
    Option NSTextStorage :=
  if !containsIntegersIn length node.label.start node.label.stop then some textStorage
  else if node.label.symbol = 0 then some textStorage
  else
    match language.tokenType node.label.symbol with
    | none => some textStorage
    | some tokenType =>
        match ColorTheme.default.color tokenType with
        | none => some textStorage
        | some color =>
            textStorage.setAttributes (attributes color)
              (NSRange.ofCountableRange node.label.range)

/-- `parse(textStorage:)`. -/
def parse (document : Document) (textStorage : NSTextStorage) : Option NSTextStorage := do
  let root ← document.rootNode
  (TraverseInRangeGenerator.init root 0).nodes.foldlM
    (parseNode document.language textStorage.length) textStorage

/-- `textStorage(_:didProcessEditing:range:changeInLength:)`, with the edit description that goes to
`ts_document_edit`. -/
def didProcessEditing (parser : Parser) (breaks : GraphemeBreaks) (document : Document)
    (textStorage : NSTextStorage) (editedRange : NSRange) (_delta : ℤ) :
    Option (TSInputEdit × Document × NSTextStorage) := do
  let str := textStorage.string
  let range := editedRange
  let location ← toUInt32 range.location
  let startByte ← mulUInt32 location 2
  let length ← toUInt32 range.length
  let bytesRemoved ← mulUInt32 length 2
  let characters ← toUInt32 (characterCount breaks str)
  let bytesAdded ← mulUInt32 characters 2
  let edit : TSInputEdit :=
    { startByte := startByte
      bytesRemoved := bytesRemoved
      bytesAdded := bytesAdded
      startPoint := ⟨0, 0⟩
      extentRemoved := TSPoint.zero
      extentAdded := ⟨1, 0⟩ }
  -- the range of the new text is replaced in the old buffer, by all of the new text
  let input ← document.input.replaceCharactersInRange range str
  let document := { document with input := input }.makeInputEdit edit
  let document ← document.parseAndGetChangedRanges parser
  let textStorage ← parse document textStorage
  some (edit, document, textStorage)

/-! ## Recolouring -/

/-- A round of the loop completes and keeps the string. -/
theorem parseNode_eq_some (language : Language) (textStorage : NSTextStorage) (node : Node) :
    ∃ painted, parseNode language textStorage.length textStorage node = some painted ∧
      painted.string = textStorage.string := by
  unfold parseNode
  by_cases hcontains : containsIntegersIn textStorage.length node.label.start node.label.stop = true
  · rw [hcontains, Bool.not_true, if_neg Bool.false_ne_true]
    -- a node that ends before the end of the text has its range inside the text
    have hwithin : (NSRange.ofCountableRange node.label.range).location +
        (NSRange.ofCountableRange node.label.range).length ≤ textStorage.length :=
      (TSNode.location_add_length node.label).trans_le (of_decide_eq_true hcontains).2.le
    split
    · exact ⟨textStorage, rfl, rfl⟩
    · split
      · exact ⟨textStorage, rfl, rfl⟩
      · split
        · exact ⟨textStorage, rfl, rfl⟩
        · exact NSTextStorage.setAttributes_eq_some _ hwithin
  · rw [Bool.eq_false_iff.mpr hcontains, Bool.not_false, if_pos rfl]
    exact ⟨textStorage, rfl, rfl⟩

/-- **Recolouring** completes and keeps the string, on every document with a tree. -/
theorem parse_eq_some {document : Document} {root : Node} (h : document.rootNode = some root)
    (textStorage : NSTextStorage) :
    ∃ painted, parse document textStorage = some painted ∧
      painted.string = textStorage.string := by
  have hfold : ∀ (nodes : List Node) (current : NSTextStorage),
      current.string = textStorage.string →
      ∃ painted, nodes.foldlM (parseNode document.language textStorage.length) current =
        some painted ∧ painted.string = textStorage.string := by
    intro nodes
    induction nodes with
    | nil => exact fun current hcurrent => ⟨current, rfl, hcurrent⟩
    | cons node rest ih =>
        -- a round keeps the string, so the length stays that of the first round
        intro current hcurrent
        have hlength : current.length = textStorage.length := congrArg List.length hcurrent
        obtain ⟨next, hnext, hstring⟩ := parseNode_eq_some document.language current node
        obtain ⟨painted, hpainted, hpaintedString⟩ := ih next (hstring.trans hcurrent)
        refine ⟨painted, ?_, hpaintedString⟩
        rw [List.foldlM_cons, ← hlength, hnext, hlength]
        exact hpainted
  unfold parse
  rw [h]
  exact hfold _ textStorage rfl

/-- Recolouring that completes keeps the string. -/
theorem string_parse {document : Document} {textStorage painted : NSTextStorage}
    (h : parse document textStorage = some painted) : painted.string = textStorage.string := by
  obtain ⟨root, hroot, -⟩ := Option.bind_eq_some_iff.mp h
  obtain ⟨painted', hpainted, hstring⟩ := parse_eq_some hroot textStorage
  rw [h, Option.some.injEq] at hpainted
  exact hpainted ▸ hstring

end TextStorageDelegate

end TreeSitterTextStorage
