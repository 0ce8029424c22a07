import TreeSitterTextStorage.Highlighting.Language
import TreeSitterTextStorage.Runtime.Measure

/-! # Building trees

The constructors of `tree.c`, with everything that a parse stores in a node and reads again: the
counts of visible children, the state of the parse, the cost of the errors, the first leaf, and the
place of a node below its parent. External tokens and the reference counts are left out. -/

namespace TreeSitterTextStorage

open RoseTree

/-! ## Nodes -/

/-- `TSLexMode`. -/
structure TSLexMode where
  /-- `lex_state`. -/
  lexState : UInt16
  /-- `external_lex_state`. -/
  externalLexState : UInt16
  deriving DecidableEq, Repr

/-- `Tree`: a node with everything that a parse stores in it. -/
structure NodeData extends TreeData where
  /-- Where the node is allocated; pointers to nodes are compared by it. -/
  address : ℕ
  /-- `context.parent`: the address of the parent that the node was assigned to;
  `none` is `NULL`. -/
  parent : Option ℕ := none
  /-- `context.index`. -/
  index : ℕ := 0
  /-- `visible_child_count`. -/
  visibleChildCount : ℕ := 0
  /-- `named_child_count`. -/
  namedChildCount : ℕ := 0
  /-- `parse_state`. -/
  parseState : UInt16 := 0
  /-- `error_cost`. -/
  errorCost : ℕ := 0
  /-- `first_leaf.symbol`. -/
  firstLeafSymbol : UInt16
  /-- `first_leaf.lex_mode`. -/
  firstLeafLexMode : TSLexMode := ⟨0, 0⟩
  /-- Whether the node may stand anywhere. -/
  extra : Bool := false
  /-- Whether the node's first leaf depends on what was in front of it. -/
  fragileLeft : Bool := false
  /-- Whether the node's last leaf depends on what was behind it. -/
  fragileRight : Bool := false
  deriving DecidableEq, Repr

/-- A tree with everything that a parse stores in it. -/
abbrev SyntaxTree := RoseTree NodeData

/-- The tree that the handles see. -/
def SyntaxTree.tree (self : SyntaxTree) : Tree := self.map NodeData.toTreeData

@[simp] theorem SyntaxTree.label_tree (self : SyntaxTree) :
  self.tree.label = self.label.toTreeData :=
  label_map _ _

@[simp] theorem SyntaxTree.children_tree (self : SyntaxTree) :
    self.tree.children = self.children.map SyntaxTree.tree := children_map _ _

/-- `TS_TREE_STATE_NONE`. -/
def tsTreeStateNone : UInt16 := 65535

/-- `ERROR_STATE`. -/
def errorState : UInt16 := 0

/-- `ERROR_COST_PER_SKIPPED_TREE`. -/
def errorCostPerSkippedTree : ℕ := 10

/-- `ERROR_COST_PER_SKIPPED_LINE`. -/
def errorCostPerSkippedLine : ℕ := 3

/-- `ERROR_COST_PER_SKIPPED_CHAR`. -/
def errorCostPerSkippedChar : ℕ := 0

/-- `ts_tree_total_size` of a tree. -/
def SyntaxTree.totalSize (self : SyntaxTree) : Length := tsTreeTotalSize self.label.toTreeData

/-! ## Constructors -/

/-- `ts_tree_make_leaf`, at an address. -/
def tsTreeMakeLeaf (address : ℕ) (sym : UInt16) (padding size : Length)
    (metadata : TSSymbolMetadata) : SyntaxTree :=
  .node
    { symbol := sym
      visible := metadata.visible
      named := metadata.named
      padding := padding
      size := size
      offset := Length.zero
      address := address
      firstLeafSymbol := sym } []

/-- `ts_tree_make_error`. -/
def tsTreeMakeError (address : ℕ) (size padding : Length) (lookaheadChar : ℤ) : SyntaxTree :=
  .node
    { symbol := tsBuiltinSymError
      visible := true
      named := true
      lookaheadChar := lookaheadChar
      padding := padding
      size := size
      offset := Length.zero
      address := address
      firstLeafSymbol := tsBuiltinSymError
      fragileLeft := true
      fragileRight := true } []

/-- The part of the loop of `ts_tree_set_children` that measures a child, the first one or one
behind it. -/
def measureChild (first : Bool) (self : NodeData) (child : SyntaxTree) : NodeData :=
  if first then
    { self with
      padding := child.label.padding
      size := child.label.size
      bytesScanned := child.label.bytesScanned }
  else
    let bytesScanned := wrapAdd (tsTreeTotalBytes self.toTreeData) child.label.bytesScanned
    { self with
      bytesScanned := if bytesScanned > self.bytesScanned then bytesScanned else self.bytesScanned
      size := lengthAdd self.size child.totalSize }

/-- The part of the loop of `ts_tree_set_children` that counts a child. -/
def countChild (self : NodeData) (child : SyntaxTree) : NodeData :=
  if child.label.visible then
    { self with
      visibleChildCount := self.visibleChildCount + 1
      namedChildCount := if child.label.named then self.namedChildCount + 1
        else self.namedChildCount }
  -- a hidden child hands on its own children
  else if child.children.length > 0 then
    { self with
      visibleChildCount := self.visibleChildCount + child.label.visibleChildCount
      namedChildCount := self.namedChildCount + child.label.namedChildCount }
  else self

/-- One turn of the loop of `ts_tree_set_children`. -/
def takeChild (first : Bool) (self : NodeData) (child : SyntaxTree) : NodeData :=
  let self := measureChild first self child
  let self := { self with errorCost := wrapAdd self.errorCost child.label.errorCost }
  let self := countChild self child
  if child.label.symbol = tsBuiltinSymError then
    { self with fragileLeft := true, fragileRight := true, parseState := tsTreeStateNone }
  else self

/-- The loop of `ts_tree_set_children`. -/
def takeChildren (self : NodeData) : List SyntaxTree → NodeData
  | [] => self
  | child :: rest => rest.foldl (takeChild false) (takeChild true self child)

/-- What `ts_tree_set_children` adds to the cost of an error node. -/
def costOfError (self : NodeData) (children : List SyntaxTree) : ℕ :=
  children.foldl
    (fun cost child => if child.label.extra then cost else wrapAdd cost errorCostPerSkippedTree)
    (wrapAdd self.errorCost (errorCostPerSkippedChar * self.size.chars +
      errorCostPerSkippedLine * self.size.extent.row))

/-- The end of `ts_tree_set_children`: what a node has from its first and its last child. -/
def takeEnds (self : NodeData) (children : List SyntaxTree) : NodeData :=
  match children.head?, children.getLast? with
  | some first, some last =>
      { self with
        firstLeafSymbol := first.label.firstLeafSymbol
        firstLeafLexMode := first.label.firstLeafLexMode
        fragileLeft := self.fragileLeft || first.label.fragileLeft
        fragileRight := self.fragileRight || last.label.fragileRight }
  | _, _ => self

/-- `ts_tree_set_children`. -/
def tsTreeSetChildren (self : NodeData) (children : List SyntaxTree) : SyntaxTree :=
  let self := takeChildren
    { self with namedChildCount := 0, visibleChildCount := 0, errorCost := 0 } children
  let self :=
    if self.symbol = tsBuiltinSymError then { self with errorCost := costOfError self children }
    else self
  .node (takeEnds self children) children

/-- `ts_tree_make_node`. -/
def tsTreeMakeNode (address : ℕ) (symbol : UInt16) (children : List SyntaxTree)
    (metadata : TSSymbolMetadata) : SyntaxTree :=
  tsTreeSetChildren (tsTreeMakeLeaf address symbol Length.zero Length.zero metadata).label children

/-- The loop of `ts_tree_make_error_node`: error nodes among the children give way to their own
children. -/
def spliceErrors (children : List SyntaxTree) : List SyntaxTree :=
  children.flatMap fun child =>
    if child.label.symbol = tsBuiltinSymError ∧
      child.children.length > 0 then child.children else [child]

/-- `ts_tree_make_error_node`. -/
def tsTreeMakeErrorNode (address : ℕ) (children : List SyntaxTree) : SyntaxTree :=
  match tsTreeMakeNode address tsBuiltinSymError (spliceErrors children)
    { visible := true, named := true, structural := false, extra := false } with
  | .node self children => .node { self with fragileLeft := true, fragileRight := true } children

/-- `ts_tree_make_copy`. -/
def tsTreeMakeCopy (address : ℕ) : SyntaxTree → SyntaxTree
  | .node self children => .node { self with address := address } children

/-! ## Arrays of trees -/

/-- `ts_tree_array_essential_count`. -/
def tsTreeArrayEssentialCount (self : List SyntaxTree) : ℕ :=
  self.countP fun tree => !tree.label.extra && decide (tree.label.symbol ≠ tsBuiltinSymError)

/-- The loop of `ts_tree_array_remove_last_n`, which walks down from `split_index + 1`; `none` when
there are too few trees, where the source would go on with an index behind the array. -/
def splitIndexFrom (self : List SyntaxTree) (removeCount count : ℕ) : ℕ → Option ℕ
  | 0 => none
  | splitIndex + 1 =>
      match self[splitIndex]? with
      | none => none
      | some tree =>
          if tree.label.extra then splitIndexFrom self removeCount count splitIndex
          else if count + 1 = removeCount then some splitIndex
          else splitIndexFrom self removeCount (count + 1) splitIndex

/-- `ts_tree_array_remove_last_n`: what stays in the array, and what is removed. -/
def tsTreeArrayRemoveLastN (self : List SyntaxTree) (removeCount : ℕ) :
    Option (List SyntaxTree × List SyntaxTree) :=
  if self.length = 0 ∨ removeCount = 0 then some (self, [])
  else (splitIndexFrom self removeCount 0 self.length).map fun splitIndex =>
    (self.take splitIndex, self.drop splitIndex)

/-- `ts_tree_array_remove_trailing_extras`: what stays in the array, and what is removed. -/
def tsTreeArrayRemoveTrailingExtras (self : List SyntaxTree) : List SyntaxTree × List SyntaxTree :=
  ((self.reverse.dropWhile fun tree => tree.label.extra).reverse,
    (self.reverse.takeWhile fun tree => tree.label.extra).reverse)

/-! ## Comparisons -/

/-- `ts_tree_tokens_eq`. -/
def tsTreeTokensEq (self other : SyntaxTree) : Bool :=
  if self.children.length > 0 ∨ other.children.length > 0 then false
  else decide (self.label.symbol = other.label.symbol ∧
    self.label.padding.bytes = other.label.padding.bytes ∧
    self.label.size.bytes = other.label.size.bytes ∧ self.label.extra = other.label.extra)

mutual
/-- `ts_tree_compare`. -/
def tsTreeCompare : SyntaxTree → SyntaxTree → Ordering
  | .node left leftChildren, .node right rightChildren =>
      if left.symbol < right.symbol then .lt
      else if right.symbol < left.symbol then .gt
      else if leftChildren.length < rightChildren.length then .lt
      else if rightChildren.length < leftChildren.length then .gt
      else tsTreeCompareAll leftChildren rightChildren
/-- The loop of `ts_tree_compare` over the children. -/
def tsTreeCompareAll : List SyntaxTree → List SyntaxTree → Ordering
  | left :: leftRest, right :: rightRest =>
      match tsTreeCompare left right with
      | .lt => .lt
      | .gt => .gt
      | .eq => tsTreeCompareAll leftRest rightRest
  | _, _ => .eq
end

end TreeSitterTextStorage
