import TreeSitterTextStorage.Highlighting.Language
import TreeSitterTextStorage.Highlighting.Node
import TreeSitterTextStorage.Input.Input
import TreeSitterTextStorage.Runtime.Edit

/-! # Documents

`Document.swift` and the functions of `document.c` under it: a document holds the last syntax tree of
its input, and parses again only when told to. -/

namespace TreeSitterTextStorage

open RangedTree

/-- `parser_parse` of the vendored runtime, as far as the editor relies on it: from the bytes that
the input serves, and the edited tree of the last parse if there is one, it builds a tree. -/
structure Parser where
  /-- `parser_parse`. -/
  parserParse : Language → List UInt8 → Option Tree → Tree
  /-- Every tree has a visible root. -/
  hasRoot : ∀ language served reusableTree,
    (tsDocumentRootNode (parserParse language served reusableTree)).isSome = true
  /-- The tree of a parse from scratch is well formed and lies in the text. -/
  wellFormed : ∀ language text root,
    tsDocumentRootNode (parserParse language (utf16Bytes text) none) = some root →
      WellFormed (visibleNode root root.tree) ∧ root.stop ≤ text.length

/-- `Document`, with the fields of `TSDocument` that it drives. -/
structure Document where
  /-- `tree`: the tree of the last parse and the edits since. -/
  tree : Option Tree
  /-- `valid`: whether the next parse may reuse the tree. -/
  valid : Bool
  /-- The language. -/
  language : Language
  /-- The input. -/
  input : Input

namespace Document

/-- `Document.parseAndGetChangedRanges()`, which is `ts_document_parse_with_options`. The first read of
the parser asks the input for its length. -/
def parseAndGetChangedRanges (parser : Parser) (self : Document) : Option Document :=
  let reusableTree := if self.valid then self.tree else none
  -- a tree without changes is kept, whatever has become of the input
  if reusableTree.any fun tree => !tree.label.hasChanges then some self
  else
    self.input.length.map fun _ => { self with
      tree := some (parser.parserParse self.language self.input.served reusableTree)
      valid := true }

/-- `Document.init(input:language:)`. -/
def init (parser : Parser) (input : Input) (language : Language) : Option Document :=
  parseAndGetChangedRanges parser { tree := none, valid := false, language := language, input := input }

/-- `Document.rootNode`, with the visible nodes below it; `none` is the null node. -/
def rootNode (self : Document) : Option Node := do
  let tree ← self.tree
  let root ← tsDocumentRootNode tree
  some (visibleNode root root.tree)

/-- `Document.makeInputEdit(_:)`. -/
def makeInputEdit (self : Document) (edit : TSInputEdit) : Document :=
  { self with tree := self.tree.map (tsDocumentEdit edit) }

@[simp] theorem input_makeInputEdit (self : Document) (edit : TSInputEdit) :
    (self.makeInputEdit edit).input = self.input := rfl

/-- A document is made by a parse from scratch, for every text whose length the input can give. -/
theorem init_eq_some_iff {parser : Parser} {text : Text} {language : Language} {document : Document} :
    init parser (Input.init (utf16Data text)) language = some document ↔
      2 * text.length < 2 ^ 32 ∧ document =
        { tree := some (parser.parserParse language (utf16Bytes text) none)
          valid := true
          language := language
          input := Input.init (utf16Data text) } := by
  have hserved : (Input.init (utf16Data text)).served = utf16Bytes text := drop_utf16Data text
  rw [init, parseAndGetChangedRanges]
  simp only [Bool.false_eq_true, if_false, Option.any_none, Option.map_eq_some_iff,
    Input.length_eq_some_iff, hserved, length_utf16Bytes]
  constructor
  · rintro ⟨length, ⟨-, rfl, hlt⟩, rfl⟩
    exact ⟨hlt, rfl⟩
  · rintro ⟨hlt, rfl⟩
    exact ⟨2 * text.length, ⟨by simp [Input.init], rfl, hlt⟩, rfl⟩

end Document

end TreeSitterTextStorage
