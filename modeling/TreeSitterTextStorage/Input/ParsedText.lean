import TreeSitterTextStorage.Highlighting.ParsedRanges
import TreeSitterTextStorage.Input.ChunkFreshness
import TreeSitterTextStorage.Input.LexedTokens
import TreeSitterTextStorage.Languages.Json
import TreeSitterTextStorage.Runtime.KeptNodes

/-! # Parses of a document's text

The parser of a document reads the text of the document's input. So what holds of every parse holds
of it with the code points of the text, and its tokens are what `parser__lex` reads through the
callbacks: the tree lies over the text, whatever the tables of the language say, as long as its
lexing function skips only in front of tokens. -/

namespace TreeSitterTextStorage

open RoseTree RangedTree

/-! ## The task -/

/-- A parse of a text works on its code points. -/
def textTask {text : Text} {language : TSLanguage} (hbound : 2 * text.length < 2 ^ 32)
    (hskips : language.SkipsInFront) (base : ℕ) (old : Option SyntaxTree)
    (hoffers : ∀ root, old = some root → Offers codePointMetric (codePoints text) base root) :
    ParseTask CodePoint language asTSInput where
  metric := codePointMetric
  text := codePoints text
  short := by rwa [bytesOf_codePoints]
  old := old
  base := base
  offers := hoffers
  ready := InText text
  lexes hready hp hrun := leads_lexLeaf hbound hskips hready hp hrun

/-- A parser between two parses, with the input of a text. -/
structure TSParser.Ready (text : Text) (parser : TSParser Input) : Prop where
  /-- The stack stands over some text, by now. -/
  rests : ∃ earlier positions, parser.stack.Stands codePointMetric earlier
    parser.nextAddress positions
  /-- The buffer is the data of the text. -/
  buffer : parser.payload.data = utf16Data text
  /-- The lexer's chunk is in order unless it was read before an edit. -/
  dated : ChunkDated parser.lexer parser.payload

/-- The bytes that are served are those of the text. -/
theorem TSParser.Ready.length_served {text : Text} {parser : TSParser Input}
    (h : parser.Ready text) : parser.payload.served.length = 2 * text.length := by
  rw [Input.served, h.buffer, drop_utf16Data, length_utf16Bytes]

/-- A parser that has just been made. -/
theorem ready_parserInit (text : Text) : (parserInit (Input.init (utf16Data text))).Ready text where
  rests := ⟨[], _, stands_tsStackNew⟩
  buffer := rfl
  dated := ⟨rfl, rfl⟩

/-- Without an old chunk, the lexer of a parse starts in the text. -/
theorem TSParser.Ready.inText {text : Text} {parser : TSParser Input} (h : parser.Ready text)
    (hbound : 2 * text.length < 2 ^ 32) (hfresh : NoOldChunkAtStart
      ⟨parser.lexer, parser.payload⟩) :
    InText text (tsLexerSetInput parser.lexer, parser.payload) := by
  have hposition : (tsLexerSetInput parser.lexer).currentPosition = Length.zero := by
    rw [tsLexerSetInput, tsLexerUnconditionalReset]
    split <;> rfl
  have hbytes : Reader.bytes ⟨tsLexerSetInput parser.lexer, parser.payload⟩ = 0 :=
    congrArg Length.bytes hposition
  constructor
  · exact {
      buffer := h.buffer
      inStep := (setInput_sound h.dated hfresh).1 (by rw [h.length_served]; omega)
      even := by rw [hbytes]; exact Nat.dvd_zero 2
      bytes_le := by rw [hbytes]; exact Nat.zero_le _ }
  · show Stretch codePointMetric (codePoints text) (tsLexerSetInput parser.lexer).currentPosition
      (tsLexerSetInput parser.lexer).currentPosition []
    rw [hposition]
    exact Stretch.zero _

section Parse

variable {text : Text} {language : TSLanguage} {fuel : ℕ} {parser parser' : TSParser Input}
  {old : Option SyntaxTree} {tree : SyntaxTree}

/-- **A parse of a document's text**, from scratch or from a tree that is current: the tree is a
finished one over the text, and the parser is ready for the next parse. -/
theorem TSParser.Ready.parse (hbound : 2 * text.length < 2 ^ 32) (hskips : language.SkipsInFront)
    (h : parser.Ready text) (hfresh : NoOldChunkAtStart ⟨parser.lexer, parser.payload⟩)
    (hold : ∀ root, old = some root → Current codePointMetric parser.nextAddress root
      (codePoints text))
    (hrun : parserParse language asTSInput fuel old false parser = some (tree, parser')) :
    parser'.Ready text ∧ ∃ root front lost back rest, tree = tsTreeAssignParents root ∧
      codePoints text = front ++ (lost ++ (back ++ rest)) ∧
      Built codePointMetric parser'.nextAddress root (front ++ back) := by
  have hlt : codePointMetric.bytesOf (codePoints text) < 2 ^ 32 := by rwa [bytesOf_codePoints]
  set task := textTask hbound hskips parser.nextAddress old fun root hroot =>
    (hold root hroot).offers hlt
  obtain ⟨earlier, positions, hstands⟩ := h.rests
  obtain ⟨-, hready, hstands', root, rfl, front, lost, back, rest, htext, hbuilt⟩ :=
    @parserParse_finished _ _ _ _ task positions parser parser' fuel tree earlier hstands
      (Nat.le_refl _) (h.inText hbound hfresh) hrun
  have hatBoundary : Reader.AtBoundary text ⟨parser'.lexer, parser'.payload⟩ := hready.atBoundary
  have hserved : parser'.payload.served.length = 2 * text.length := by
    rw [Input.served, show parser'.payload.data = utf16Data text from hatBoundary.buffer,
      drop_utf16Data, length_utf16Bytes]
  refine ⟨⟨⟨_, _, hstands'⟩, hatBoundary.buffer, ?_⟩, root, front, lost, back, rest, rfl,
    htext, hbuilt⟩
  refine hatBoundary.inStep.chunkDated ?_
  show parser'.payload.served.length + 1 < 2 ^ 32
  omega

/-- What a parse has kept of a text is no longer than the text. -/
theorem bytesOf_kept_le {front lost back rest : List CodePoint}
    (htext : codePoints text = front ++ (lost ++ (back ++ rest))) :
    codePointMetric.bytesOf (front ++ back) ≤ 2 * text.length := by
  rw [← bytesOf_codePoints, htext]
  simp only [Metric.bytesOf_append]
  omega

/-- A tree that is as long as the text has left nothing out. -/
theorem Built.eq_of_covers {next : ℕ} {root : SyntaxTree} {front lost back rest : List CodePoint}
    (h : Built codePointMetric next root (front ++ back)) (hbound : 2 * text.length < 2 ^ 32)
    (htext : codePoints text = front ++ (lost ++ (back ++ rest)))
    (hcovers : tsTreeTotalBytes (tsTreeAssignParents root).tree.label = 2 * text.length) :
    front ++ back = codePoints text := by
  have hlength := congrArg codePointMetric.bytesOf htext
  rw [bytesOf_codePoints] at hlength
  simp only [Metric.bytesOf_append] at hlength
  have hlt := Nat.lt_of_le_of_lt (bytesOf_kept_le htext) hbound
  rw [SyntaxTree.label_tree] at hcovers
  have htotal : tsTreeTotalBytes (tsTreeAssignParents root).label.toTreeData =
      codePointMetric.bytesOf (front ++ back) :=
    congrArg Length.bytes ((spans_assignParents h.spans).totalSize_eq hlt)
  rw [htotal, Metric.bytesOf_append] at hcovers
  have hlost : lost = [] := codePointMetric.bytesOf_eq_zero_iff.mp (by omega)
  have hrest : rest = [] := codePointMetric.bytesOf_eq_zero_iff.mp (by omega)
  rw [htext, hlost, hrest, List.nil_append, List.append_nil]

end Parse

/-! ## A parse of a list -/

/-- The text `[1, 2]`. -/
def listText : Text := [0x5b, 0x31, 0x2c, 0x20, 0x32, 0x5d]

/-- A parse of the list from scratch. -/
def listParse : Option (SyntaxTree × TSParser Input) :=
  parserParse Json.treeSitterJson asTSInput 30 none false
    (parserInit (Input.init (utf16Data listText)))

/-- The edit that makes the `2` of the list a `37`. -/
def listEdit : TSInputEdit where
  startByte := 8
  bytesAdded := 4
  bytesRemoved := 2
  startPoint := ⟨0, 4⟩
  extentAdded := ⟨0, 2⟩
  extentRemoved := ⟨0, 1⟩

/-- The parse of the list completes, and its tree is as long as the text. -/
theorem exists_listParse :
    ∃ tree parser, listParse = some (tree, parser) ∧ tsTreeTotalBytes tree.tree.label =
      2 * listText.length := by
  have hcovers : (listParse.map fun result => tsTreeTotalBytes result.1.tree.label) = some 12 := by
    decide +kernel
  obtain ⟨⟨tree, parser⟩, hrun, htotal⟩ := Option.map_eq_some_iff.mp hcovers
  exact ⟨tree, parser, hrun, htotal⟩

/-! ## Trees over a text -/

/-- A tree lies over a text: all its nodes measure the text at their places, and what the editor
sees of it is well formed and lies in the text. -/
structure LiesOver (text : List CodePoint) (tree : Tree) : Prop where
  /-- The tree fits the text. -/
  fits : Fits codePointMetric True tree text
  /-- The root node. -/
  rootNode : ∀ root, tsDocumentRootNode tree = some root →
    WellFormed (visibleNode root root.tree) ∧ root.stop ≤ text.length

/-- A tree that spans a text and whose nodes know their places lies over the text. -/
theorem Spans.liesOver {next : ℕ} {tree : SyntaxTree} {text : List CodePoint}
    (h : Spans codePointMetric tree text) (hassigned : tree.All Assigned)
    (hsettled : tree.All (Settled next))
    (hlt : codePointMetric.bytesOf text < 2 ^ 32) : LiesOver text tree.tree where
  fits := h.fits hassigned hlt
  rootNode _ hroot := h.wellFormed_rootNode hassigned hsettled hlt hroot

/-- The tree of a parse lies over its text once its parents are assigned. -/
theorem Built.liesOver {next : ℕ} {root : SyntaxTree} {text : List CodePoint}
    (h : Built codePointMetric next root text) (hlt : codePointMetric.bytesOf text < 2 ^ 32) :
    LiesOver text (tsTreeAssignParents root).tree :=
  (spans_assignParents h.spans).liesOver (all_assigned_assignParents h.settled)
    (all_settled_assignParents h.settled) hlt

section Scratch

variable {text : Text} {language : TSLanguage} {fuel : ℕ} {tree : SyntaxTree}
  {parser : TSParser Input}

/-- A parse from scratch leaves a finished tree over the text. -/
theorem parse_scratch (hbound : 2 * text.length < 2 ^ 32) (hskips : language.SkipsInFront)
    (hrun : parserParse language asTSInput fuel none false
      (parserInit (Input.init (utf16Data text))) = some (tree, parser)) :
    ∃ root front lost back rest, tree = tsTreeAssignParents root ∧
      codePoints text = front ++ (lost ++ (back ++ rest)) ∧
      Built codePointMetric parser.nextAddress root (front ++ back) :=
  ((ready_parserInit text).parse hbound hskips
    (fun _ hchunk => absurd hchunk (Option.some_ne_none _).symm)
    (fun _ hroot => absurd hroot (Option.some_ne_none _).symm) hrun).2

/-- **What a parse takes over** from the tree of a parse from scratch, after one edit that is
described as it is in bytes: whatever the parse does to its reusable node, every node that it takes
stands at the position where it is taken, is unmarked, and the lexer would read the same bytes
for it again. -/
theorem throughout_reusesUnaffected_parserParse {edit : TSInputEdit}
    {front removed added back : List UInt8} (hbound : 2 * text.length < 2 ^ 32)
    (hskips : language.SkipsInFront)
    (hrun : parserParse language asTSInput fuel none false
      (parserInit (Input.init (utf16Data text))) = some (tree, parser))
    (hcovers : tsTreeTotalBytes tree.tree.label = 2 * text.length) (hscanned : tree.All Scanned)
    (htext : utf16Bytes text = front ++ (removed ++ back)) (hstart : edit.startByte = front.length)
    (hremoved : edit.bytesRemoved = removed.length) (hadded : edit.bytesAdded = added.length)
    (hlt : (utf16Bytes text).length + added.length < 2 ^ 32) (ops : List ReuseOp) :
    Machine.Throughout reuseStep (ReusesUnaffected tree.tree (utf16Bytes text)
      (front ++ (added ++ back))) (reusableNodeNew (some (tree.edited edit))) ops := by
  obtain ⟨root, front', lost, back', rest, rfl, htext', hbuilt⟩ := parse_scratch hbound hskips hrun
  rw [hbuilt.eq_of_covers hbound htext' hcovers] at hbuilt
  have hlength : codePointMetric.bytesOf (codePoints text) =
    (front ++ (removed ++ back)).length := by
    rw [bytesOf_codePoints, ← htext, length_utf16Bytes]
  rw [htext] at hlt ⊢
  exact throughout_reusesUnaffected (spans_assignParents hbuilt.spans)
    (all_assigned_assignParents hbuilt.settled) hscanned hlength hstart hremoved hadded hlt ops

/-- The `2` of the list becomes a `37`: the opening bracket and the `1` are taken over. -/
theorem throughout_reusesUnaffected_parserParse_list :
    ∃ tree parser, listParse = some (tree, parser) ∧
      Machine.Throughout reuseStep
        (ReusesUnaffected tree.tree (utf16Bytes listText)
          (utf16Bytes [0x5b, 0x31, 0x2c, 0x20] ++ (utf16Bytes [0x33, 0x37] ++ utf16Bytes [0x5d])))
        (reusableNodeNew (some (tree.edited listEdit)))
        [.getLookahead 0, .popLeaf, .getLookahead 2] ∧
      reusedNodes (reusableNodeNew (some (tree.edited listEdit)))
        [.getLookahead 0, .popLeaf, .getLookahead 2] =
        [(Json.anonSymLBRACK.rawValue, 0), (Json.symValue.rawValue, 2)] := by
  obtain ⟨tree, parser, hrun, hcovers⟩ := exists_listParse
  have hscanned : (listParse.any fun result => decide (result.1.All Scanned)) = true := by
    decide +kernel
  have hreused : (listParse.map fun result =>
      reusedNodes (reusableNodeNew (some (result.1.edited listEdit)))
      [.getLookahead 0, .popLeaf, .getLookahead 2]) = some [(5, 0), (12, 2)] := by decide +kernel
  rw [hrun, Option.any_some, decide_eq_true_iff] at hscanned
  rw [hrun, Option.map_some, Option.some.injEq] at hreused
  have htext : utf16Bytes listText =
      utf16Bytes [0x5b, 0x31, 0x2c, 0x20] ++ (utf16Bytes [0x32] ++ utf16Bytes [0x5d]) := by decide
  exact ⟨tree, parser, hrun, throughout_reusesUnaffected_parserParse (by decide)
    Json.skipsInFront_treeSitterJson hrun hcovers hscanned htext rfl rfl rfl (by decide) _, hreused⟩

end Scratch

end TreeSitterTextStorage
