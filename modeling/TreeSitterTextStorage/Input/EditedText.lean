import TreeSitterTextStorage.Input.ParsedText

/-! # Documents of the runtime

`document.c`: a document of the runtime keeps the tree of its last parse, edits it along with the
text, and offers it to the next parse. As long as the edits are described as they are in bytes,
every parse again leaves a tree over the whole text, whatever it has taken over from the
tree before. -/

namespace TreeSitterTextStorage

open RoseTree

/-! ## The document -/

/-- `TSDocument`; the input is that of its parser. -/
structure TSDocument where
  /-- `parser`. -/
  parser : TSParser Input
  /-- `tree`. -/
  tree : Option SyntaxTree
  /-- `valid`: whether the next parse may reuse the tree. -/
  valid : Bool

/-- What a client does with a document. -/
inductive DocumentCall where
  /-- A replacement in the text, and `ts_document_edit` with a description of it. -/
  | edit (range : NSRange) (replacementText : Text) (description : TSInputEdit)
  /-- `ts_document_parse`. -/
  | parse
  deriving DecidableEq, Repr

namespace TSDocument

/-- `ts_document_new`, with an input for a text. -/
def new (text : Text) : TSDocument where
  parser := parserInit (Input.init (utf16Data text))
  tree := none
  valid := false

/-- `ts_document_edit`, behind the replacement in the text. -/
def edit (range : NSRange) (replacementText : Text) (description : TSInputEdit)
    (self : TSDocument) : Option TSDocument :=
  (self.parser.payload.replaceCharactersInRange range replacementText).map fun payload =>
    { self with
      parser := { self.parser with payload := payload }
      tree := self.tree.map (SyntaxTree.edited description) }

section Parse

variable (language : TSLanguage) (fuel : ℕ)

/-- `ts_document_parse_with_options`, without its report of what has changed. -/
def parseWithOptions (haltOnError : Bool) (self : TSDocument) : Option TSDocument :=
  let reusableTree := if self.valid then self.tree else none
  -- a tree without changes is kept, whatever has become of the input
  if reusableTree.any fun tree => !tree.label.hasChanges then some self
  else
    (parserParse language asTSInput fuel reusableTree haltOnError self.parser).map fun result =>
      { self with parser := result.2, tree := some result.1, valid := true }

/-- `ts_document_parse`. -/
def parse (self : TSDocument) : Option TSDocument := self.parseWithOptions language fuel false

/-- One call. -/
def step (self : TSDocument) : DocumentCall → Option (Unit × TSDocument)
  | .edit range replacementText description =>
      (self.edit range replacementText description).map fun next => ((), next)
  | .parse => (self.parse language fuel).map fun next => ((), next)

end Parse

/-- The tree of the document is as long as the text. -/
def Covers (self : TSDocument) : Prop :=
  self.tree.map (fun tree => tsTreeTotalBytes tree.tree.label) =
    some self.parser.payload.served.length

end TSDocument

/-! ## What a client promises -/

/-- A replacement in a text is described as it is in bytes, and none of its borders runs through a
surrogate pair. -/
structure DescribedInBytes (text : Text) (range : NSRange) (replacementText : Text)
    (description : TSInputEdit) : Prop where
  /-- The start of the edit. -/
  startByte_eq : description.startByte = 2 * range.location
  /-- The removed bytes. -/
  bytesRemoved_eq : description.bytesRemoved = 2 * range.length
  /-- The added bytes. -/
  bytesAdded_eq : description.bytesAdded = 2 * replacementText.length
  /-- The front of the removed text. -/
  front_removed : splitsPair (text.take range.location) (text.drop range.location) = false
  /-- The back of the removed text. -/
  removed_back : splitsPair ((text.drop range.location).take range.length)
    (text.drop (range.location + range.length)) = false
  /-- The front of the replacement. -/
  front_added : splitsPair (text.take range.location)
    (replacementText ++ text.drop (range.location + range.length)) = false
  /-- The back of the replacement. -/
  added_back : splitsPair replacementText (text.drop (range.location + range.length)) = false
  /-- The text stays short. -/
  short : 2 * text.length + 2 * replacementText.length < 2 ^ 32

instance (text : Text) (range : NSRange) (replacementText : Text) (description : TSInputEdit) :
    Decidable (DescribedInBytes text range replacementText description) :=
  decidable_of_iff (description.startByte = 2 * range.location ∧ description.bytesRemoved =
      2 * range.length ∧ description.bytesAdded = 2 * replacementText.length ∧
      splitsPair (text.take range.location) (text.drop range.location) = false ∧
      splitsPair ((text.drop range.location).take range.length)
        (text.drop (range.location + range.length)) = false ∧
      splitsPair (text.take range.location)
        (replacementText ++ text.drop (range.location + range.length)) = false ∧
      splitsPair replacementText (text.drop (range.location + range.length)) = false ∧
      2 * text.length + 2 * replacementText.length < 2 ^ 32)
    ⟨fun ⟨h₁, h₂, h₃, h₄, h₅, h₆, h₇, h₈⟩ => ⟨h₁, h₂, h₃, h₄, h₅, h₆, h₇, h₈⟩,
      fun ⟨h₁, h₂, h₃, h₄, h₅, h₆, h₇, h₈⟩ => ⟨h₁, h₂, h₃, h₄, h₅, h₆, h₇, h₈⟩⟩

/-- A call that goes well: edits are described as they are in bytes, and parses start without an old
chunk at the start of the text and cover the text. -/
def GoesWell (language : TSLanguage) (fuel : ℕ) (document : TSDocument) : DocumentCall → Prop
  | .edit range replacementText description =>
      ∀ text ∈ decodeUtf16 document.parser.payload.data,
        DescribedInBytes text range replacementText description
  | .parse => NoOldChunkAtStart ⟨document.parser.lexer, document.parser.payload⟩ ∧
      ∀ next ∈ document.parse language fuel, next.Covers

instance (document : TSDocument) : Decidable document.Covers :=
  inferInstanceAs (Decidable (_ = _))

instance (language : TSLanguage) (fuel : ℕ) (document : TSDocument) :
    (call : DocumentCall) → Decidable (GoesWell language fuel document call)
  | .edit range replacementText description =>
      inferInstanceAs (Decidable (∀ text ∈ decodeUtf16 document.parser.payload.data,
        DescribedInBytes text range replacementText description))
  | .parse => inferInstanceAs (Decidable (_ ∧ ∀ next ∈ document.parse language fuel, next.Covers))

/-- A document with the buffer of a text, whose tree is current. -/
structure TSDocument.Sound (text : Text) (document : TSDocument) : Prop where
  /-- The parser is between two parses. -/
  ready : document.parser.Ready text
  /-- The text is as long as the input can say. -/
  short : 2 * text.length < 2 ^ 32
  /-- The tree is current. -/
  current : ∀ tree, document.tree = some tree →
    Current codePointMetric document.parser.nextAddress tree (codePoints text)

section Step

variable {text : Text} {language : TSLanguage} {fuel : ℕ} {document next : TSDocument}

/-- The pieces of a text around a range have the code points of the text. -/
theorem codePoints_pieces {front middle back : Text} (h : splitsPair front (middle ++ back) = false)
    (h' : splitsPair middle back = false) :
    codePoints (front ++ (middle ++ back)) =
      codePoints front ++ (codePoints middle ++ codePoints back) := by
  rw [codePoints_append h, codePoints_append h']

/-- A range cuts a text into three pieces. -/
theorem pieces_of_range {range : NSRange} (h : range.location + range.length ≤ text.length) :
    text = text.take range.location ++
        ((text.drop range.location).take range.length ++ text.drop
          (range.location + range.length)) ∧
      (text.take range.location).length = range.location ∧
      ((text.drop range.location).take range.length).length = range.length := by
  refine ⟨?_, ?_, ?_⟩
  · rw [← List.drop_drop, List.take_append_drop, List.take_append_drop]
  · rw [List.length_take]
    omega
  · rw [List.length_take, List.length_drop]
    omega

/-- An edit whose borders run through no pair keeps a tree current when it is described as it
is in bytes. -/
theorem Current.editedText {addresses : ℕ} {tree : SyntaxTree} {description : TSInputEdit}
    {front removed added back : Text}
    (h : Current codePointMetric addresses tree (codePoints (front ++ (removed ++ back))))
    (hstart : description.startByte = 2 * front.length)
    (hremoved : description.bytesRemoved = 2 * removed.length)
    (hadded : description.bytesAdded = 2 * added.length)
    (hfront : splitsPair front (removed ++ back) = false) (hback : splitsPair removed back = false)
    (hfront' : splitsPair front (added ++ back) = false) (hback' : splitsPair added back = false)
    (hshort : 2 * (front ++ (removed ++ back)).length + 2 * added.length < 2 ^ 32) :
    Current codePointMetric addresses (tree.edited description)
      (codePoints (front ++ (added ++ back))) := by
  rw [codePoints_pieces hfront hback] at h
  rw [codePoints_pieces hfront' hback']
  refine h.edited ⟨?_, ?_, ?_, False.elim⟩ ?_
  · rw [hstart, bytesOf_codePoints]
  · rw [hremoved, bytesOf_codePoints]
  · rw [hadded, bytesOf_codePoints]
  · simp only [Metric.bytesOf_append, bytesOf_codePoints]
    simp only [List.length_append] at hshort
    omega

/-- **An edit that is described as it is in bytes** keeps the document sound, for the new text. -/
theorem TSDocument.Sound.edit {range : NSRange} {replacementText : Text} {description : TSInputEdit}
    (h : document.Sound text) (hdescribed : DescribedInBytes text range replacementText description)
    (hnext : document.edit range replacementText description = some next) :
    next.Sound (Splice.splice range.location (range.location + range.length) replacementText text) := by
  obtain ⟨payload, hpayload, rfl⟩ := Option.map_eq_some_iff.mp hnext
  rw [Input.replaceCharactersInRange, h.ready.buffer,
    Data.replaceCharactersInRange_utf16Data] at hpayload
  split at hpayload
  case isFalse => exact absurd hpayload (by simp)
  next hwithin =>
    simp only [Option.bind_eq_bind, Option.bind_some, Option.some.injEq] at hpayload
    subst hpayload
    obtain ⟨hstart, hremoved, hadded, hfront, hback, hfront', hback', hshort⟩ := hdescribed
    obtain ⟨htext, hfrontLength, hremovedLength⟩ := pieces_of_range hwithin
    refine ⟨⟨h.ready.rests, rfl, h.ready.dated.edited⟩, ?_, fun tree htree => ?_⟩
    · rw [Splice.length_splice _ (Nat.le_add_right _ _) hwithin]
      omega
    · obtain ⟨old, hold, rfl⟩ := Option.map_eq_some_iff.mp htree
      have hcurrent := h.current old hold
      rw [Splice.splice, List.append_assoc]
      rw [htext] at hcurrent
      refine hcurrent.editedText ?_ ?_ hadded ?_ hback hfront' hback' ?_
      · rw [hfrontLength, hstart]
      · rw [hremovedLength, hremoved]
      · rwa [← List.drop_drop, List.take_append_drop]
      · rwa [← htext]

/-- **A parse** that starts without an old chunk at the start of the text and covers the text keeps
the document sound, and its tree lies over the text. -/
theorem TSDocument.Sound.parse (hskips : language.SkipsInFront) (h : document.Sound text)
    (hfresh : NoOldChunkAtStart ⟨document.parser.lexer, document.parser.payload⟩)
    (hnext : document.parse language fuel = some next) (hcovers : next.Covers) :
    next.Sound text ∧ ∃ tree, next.tree = some tree ∧ LiesOver (codePoints text) tree.tree := by
  have hlt : codePointMetric.bytesOf (codePoints text) < 2 ^ 32 := by
    rw [bytesOf_codePoints]
    exact h.short
  rw [TSDocument.parse, TSDocument.parseWithOptions] at hnext
  generalize hold : (if document.valid then document.tree else none) = reusableTree at hnext
  have hreusable : ∀ tree, reusableTree = some tree → document.tree = some tree := by
    rintro tree rfl
    split at hold
    · exact hold
    · exact absurd hold (Option.some_ne_none tree).symm
  split at hnext
  · next hunchanged =>
      -- the tree has no changes, so it still lies over the text
      obtain rfl := Option.some.inj hnext
      cases reusableTree with
      | none => exact absurd hunchanged Bool.false_ne_true
      | some tree =>
          have hclean : tree.label.hasChanges = false := by
            rwa [Option.any_some, Bool.not_eq_true'] at hunchanged
          have htree := hreusable tree rfl
          have hcurrent := h.current tree htree
          have hnode : HasNode tree tree := Or.inl rfl
          exact ⟨h, tree, htree, (hcurrent.spans_of_unmarked hlt hclean).liesOver
            (hcurrent.assigned tree hnode hclean) (hcurrent.settled tree hnode hclean) hlt⟩
  · obtain ⟨⟨tree, parser'⟩, hrun, rfl⟩ := Option.map_eq_some_iff.mp hnext
    obtain ⟨hready, root, front, lost, back, rest, rfl, htext, hbuilt⟩ :=
      h.ready.parse h.short hskips hfresh (fun root hroot =>
        h.current root (hreusable root hroot)) hrun
    have htotal : tsTreeTotalBytes (tsTreeAssignParents root).tree.label = 2 * text.length := by
      rw [← hready.length_served]
      exact Option.some.inj hcovers
    rw [hbuilt.eq_of_covers h.short htext htotal] at hbuilt
    refine ⟨⟨hready, h.short, fun tree htree => ?_⟩, _, rfl, hbuilt.liesOver hlt⟩
    obtain rfl := Option.some.inj htree
    exact (hbuilt.current hlt).1

/-- **A call that goes well** keeps the document sound. -/
theorem TSDocument.Sound.step {call : DocumentCall} {o : Unit} (hskips : language.SkipsInFront)
    (h : ∃ text, document.Sound text) (hgood : GoesWell language fuel document call)
    (hnext : document.step language fuel call = some (o, next)) : ∃ text, next.Sound text := by
  obtain ⟨text, h⟩ := h
  cases call with
  | edit range replacementText description =>
      obtain ⟨next', hedit, heq⟩ := Option.map_eq_some_iff.mp hnext
      obtain ⟨-, rfl⟩ := Prod.mk.inj heq
      have hdecoded : decodeUtf16 document.parser.payload.data = some text := by
        rw [h.ready.buffer, decodeUtf16_utf16Data]
      exact ⟨_, h.edit (hgood text hdecoded) hedit⟩
  | parse =>
      obtain ⟨next', hparse, heq⟩ := Option.map_eq_some_iff.mp hnext
      obtain ⟨-, rfl⟩ := Prod.mk.inj heq
      exact ⟨text, (h.parse hskips hgood.1 hparse (hgood.2 next' hparse)).1⟩

-- of the nodes below the new list the first parse has allocated the brackets and the `1`
example : (Machine.run (TSDocument.step Json.treeSitterJson 40) (TSDocument.new listText)
      [.parse, .edit ⟨4, 1⟩ [0x33, 0x37] listEdit, .parse]).map (fun document =>
        document.tree.elim [] fun tree => tree.children.flatMap fun list =>
          list.children.map fun child => child.label.address) = some [0, 5, 23, 9] := by
  decide +kernel

end Step

end TreeSitterTextStorage
