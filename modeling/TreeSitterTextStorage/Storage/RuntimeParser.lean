import TreeSitterTextStorage.Input.EditedText
import TreeSitterTextStorage.Storage.Document

/-! # The parser of the runtime

What the editor relies on of `parser_parse` is what the model of `parser.c` does, for every family
of languages whose lexing functions skip only in front of tokens. The parser made of it parses from
scratch each time. -/

namespace TreeSitterTextStorage

open RangedTree

/-! ## The tree that a parse leaves -/

/-- A tree with nothing but a visible root, for the parses that return no tree or a tree
without root. -/
def blankTree : Tree :=
  .node { symbol := 0, visible := true, named := true, padding := Length.zero, size := Length.zero,
          offset := Length.zero } []

/-- The tree of a parse from scratch of the bytes that an input serves. -/
def runtimeTree (language : TSLanguage) (fuel : ℕ) (served : List UInt8) : Tree :=
  if served.length < 2 ^ 32 then
    match parserParse language asTSInput fuel none false
        (parserInit (Input.init (byteOrderMark ++ served))) with
    | some (tree, _) => if (tsDocumentRootNode tree.tree).isSome then tree.tree else blankTree
    | none => blankTree
  else blankTree

section Tree

variable {text : Text} {language : TSLanguage} {fuel : ℕ} {root : TSNode}

/-- The tree is a blank one, or that of a parse. -/
theorem runtimeTree_cases (language : TSLanguage) (fuel : ℕ) (served : List UInt8) :
    runtimeTree language fuel served = blankTree ∨ served.length < 2 ^ 32 ∧ ∃ tree parser,
      parserParse language asTSInput fuel none false
        (parserInit (Input.init (byteOrderMark ++ served))) = some (tree, parser) ∧
        runtimeTree language fuel served = tree.tree ∧
      (tsDocumentRootNode tree.tree).isSome = true := by
  by_cases hlt : served.length < 2 ^ 32
  · rw [runtimeTree, if_pos hlt]
    cases hparse : parserParse language asTSInput fuel none false
        (parserInit (Input.init (byteOrderMark ++ served))) with
    | none => exact Or.inl rfl
    | some result =>
        obtain ⟨tree, parser⟩ := result
        by_cases hroot : (tsDocumentRootNode tree.tree).isSome = true
        · exact Or.inr ⟨hlt, tree, parser, rfl, if_pos hroot, hroot⟩
        · exact Or.inl (if_neg hroot)
  · exact Or.inl (if_neg hlt)

/-- The tree has a root. -/
theorem isSome_rootNode_runtimeTree (language : TSLanguage) (fuel : ℕ) (served : List UInt8) :
    (tsDocumentRootNode (runtimeTree language fuel served)).isSome = true := by
  rcases runtimeTree_cases language fuel served with hblank | ⟨-, tree, parser, -, htree, hroot⟩
  · rw [hblank]
    rfl
  · rwa [htree]

/-- **The tree of a text** is well formed and lies in the text. -/
theorem wellFormed_runtimeTree (hskips : language.SkipsInFront)
    (hroot : tsDocumentRootNode (runtimeTree language fuel (utf16Bytes text)) = some root) :
    WellFormed (visibleNode root root.tree) ∧ root.stop ≤ text.length := by
  rcases runtimeTree_cases language fuel (utf16Bytes text) with hblank |
    ⟨hlt, tree, parser, hrun, htree, -⟩
  · rw [hblank] at hroot
    obtain rfl := Option.some.inj hroot
    exact ⟨wellFormed_leaf (Nat.le_refl _), Nat.zero_le _⟩
  · rw [length_utf16Bytes] at hlt
    rw [htree] at hroot
    obtain ⟨root', front, lost, back, rest, rfl, htext, hbuilt⟩ := parse_scratch hlt hskips hrun
    have hkept := bytesOf_kept_le htext
    obtain ⟨hwell, hstop⟩ := (hbuilt.liesOver (Nat.lt_of_le_of_lt hkept hlt)).rootNode root hroot
    refine ⟨hwell, Nat.le_trans hstop ?_⟩
    have hle := length_le_unitsOf (front ++ back)
    rw [bytesOf_codePointMetric] at hkept
    omega

end Tree

/-! ## The parser -/

/-- The parser of the runtime, for languages whose lexing functions skip only in front of tokens. -/
def runtimeParser (languages : Language → TSLanguage)
    (hskips : ∀ language, (languages language).SkipsInFront) (fuel : ℕ) : Parser where
  parserParse language served _ := runtimeTree (languages language) fuel served
  hasRoot _ _ _ := isSome_rootNode_runtimeTree _ fuel _
  wellFormed language _ _ hroot := wellFormed_runtimeTree (hskips language) hroot

section Document

variable {languages : Language → TSLanguage}
  {hskips : ∀ language, (languages language).SkipsInFront}
  {fuel : ℕ} {text : Text} {language : Language} {next : TSDocument} {tree : SyntaxTree}

/-- **A document opens with the tree of the runtime's document**: where the first parse of the
runtime's document leaves a tree with a root, it is the tree with which the document starts. -/
theorem tree_init_runtimeParser (hbound : 2 * text.length < 2 ^ 32)
    (hparse : (TSDocument.new text).parse (languages language) fuel = some next)
    (htree : next.tree = some tree) (hroot : (tsDocumentRootNode tree.tree).isSome = true) :
    Document.init (runtimeParser languages hskips fuel) (Input.init (utf16Data text)) language =
      some
        { tree := some tree.tree
          valid := next.valid
          language := language
          input := Input.init (utf16Data text) } := by
  obtain ⟨⟨tree', parser⟩, hrun, rfl⟩ := Option.map_eq_some_iff.mp hparse
  obtain rfl := Option.some.inj htree
  have hruntime : runtimeTree (languages language) fuel (utf16Bytes text) = tree'.tree := by
    have hrun' : parserParse (languages language) asTSInput fuel none false
        (parserInit (Input.init (byteOrderMark ++ utf16Bytes text))) = some (tree', parser) := hrun
    rw [runtimeTree, if_pos (by rwa [length_utf16Bytes]), hrun']
    exact if_pos hroot
  refine Document.init_eq_some_iff.mpr ⟨hbound, ?_⟩
  rw [← hruntime]
  rfl

end Document

end TreeSitterTextStorage
