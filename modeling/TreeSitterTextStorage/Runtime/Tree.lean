import TreeSitterTextStorage.Runtime.Length
import TreeSitterTextStorage.Library.RangedTree

/-! # Syntax trees and node handles

The trees of `tree.h` and the handles on them of `node.c`. A tree contains hidden nodes that the
handles skip: `ts_node_child` counts visible descendants through them. `visibleNode` is the tree of
handles reachable that way, and `visibleNode_child` says that it has exactly the children
`ts_node_child` returns, in order. -/

namespace TreeSitterTextStorage

/-- The fields of a `Tree` beside its children, as far as the editor's side of the runtime reads
them. -/
structure TreeData where
  /-- The grammar symbol. -/
  symbol : UInt16
  /-- Whether handles see the node. -/
  visible : Bool
  /-- Whether the node is named in the grammar. -/
  named : Bool
  /-- The first unexpected character of an error leaf. -/
  lookaheadChar : ℤ := 0
  /-- The text skipped in front of the node. -/
  padding : Length
  /-- The text of the node. -/
  size : Length
  /-- `context.offset`: where the node's padding starts, from the start of its parent's padding. -/
  offset : Length
  /-- How far the lexer looked to build the node. -/
  bytesScanned : ℕ := 0
  /-- Whether the node was touched by an edit since it was built. -/
  hasChanges : Bool := false
  deriving DecidableEq, Repr

/-- A syntax tree of the runtime. -/
abbrev Tree := RoseTree TreeData

/-- `ts_builtin_sym_error`. -/
def tsBuiltinSymError : UInt16 := 65535

/-- `ts_tree_total_bytes`. -/
def tsTreeTotalBytes (self : TreeData) : ℕ := wrapAdd self.padding.bytes self.size.bytes

/-- `ts_tree_total_size`. -/
def tsTreeTotalSize (self : TreeData) : Length := lengthAdd self.padding self.size

/-- `ts_tree_total_extent`. -/
def tsTreeTotalExtent (self : TreeData) : TSPoint := pointAdd self.padding.extent self.size.extent

/-! ## Handles -/

/-- `TSNode`: a handle on a tree node together with the absolute position of its padding. The C handle
reaches the enclosing nodes through parent pointers; here it carries what is read from them, the
offsets of the node and of its ancestors, innermost first. -/
structure TSNode where
  /-- The node, with everything below it. -/
  tree : Tree
  /-- `offset[0]`: the character at which the padding starts; like every count of characters it does
  not wrap. -/
  offsetChar : ℕ
  /-- `offset[1]`: the byte at which the padding starts. -/
  offsetByte : ℕ
  /-- `offset[2]`: the row at which the padding starts. -/
  offsetRow : ℕ
  /-- `context.offset` of the node and of its ancestors. -/
  contextOffsets : List Length

/-- `ts_node__direct_child`: the handle on a child of the node. -/
def tsNodeDirectChild (self : TSNode) (child : Tree) : TSNode where
  tree := child
  offsetChar := self.offsetChar + child.label.offset.chars
  offsetByte := wrapAdd self.offsetByte child.label.offset.bytes
  offsetRow := wrapAdd self.offsetRow child.label.offset.extent.row
  contextOffsets := child.label.offset :: self.contextOffsets

/-- `ts_node_start_char`. -/
def tsNodeStartChar (self : TSNode) : ℕ := self.offsetChar + self.tree.label.padding.chars

/-- `ts_node_end_char`. -/
def tsNodeEndChar (self : TSNode) : ℕ := tsNodeStartChar self + self.tree.label.size.chars

/-- `ts_node_start_byte`. -/
def tsNodeStartByte (self : TSNode) : ℕ := wrapAdd self.offsetByte self.tree.label.padding.bytes

/-- `ts_node_end_byte`. -/
def tsNodeEndByte (self : TSNode) : ℕ := wrapAdd (tsNodeStartByte self) self.tree.label.size.bytes

/-- `ts_node_symbol`. -/
def tsNodeSymbol (self : TSNode) : UInt16 := self.tree.label.symbol

/-- The loop of `ts_tree_start_column`: add up columns outwards until an offset begins a new row. -/
def startColumnFrom (column : ℕ) : List Length → ℕ
  | [] => column
  | offset :: rest =>
      let column := wrapAdd column offset.extent.column
      if offset.extent.row > 0 then column else startColumnFrom column rest

/-- `ts_tree_start_column`. -/
def tsTreeStartColumn (self : TSNode) : ℕ :=
  if self.tree.label.padding.extent.row > 0 then self.tree.label.padding.extent.column
  else startColumnFrom self.tree.label.padding.extent.column self.contextOffsets

/-- `ts_tree_end_column`. -/
def tsTreeEndColumn (self : TSNode) : ℕ :=
  if self.tree.label.size.extent.row = 0 then
    wrapAdd self.tree.label.size.extent.column (tsTreeStartColumn self)
  else self.tree.label.size.extent.column

/-- `ts_node_start_point`. -/
def tsNodeStartPoint (self : TSNode) : TSPoint :=
  ⟨wrapAdd self.offsetRow self.tree.label.padding.extent.row, tsTreeStartColumn self⟩

/-- `ts_node_end_point`. -/
def tsNodeEndPoint (self : TSNode) : TSPoint :=
  ⟨wrapAdd (wrapAdd self.offsetRow self.tree.label.padding.extent.row)
    self.tree.label.size.extent.row, tsTreeEndColumn self⟩

/-! ## Children -/

/-- `ts_node__is_relevant`. -/
def isRelevant (includeAnonymous : Bool) (self : TreeData) : Bool :=
  if includeAnonymous then self.visible else self.visible && self.named

mutual
/-- `visible_child_count` (or `named_child_count`), as `ts_tree_set_children` computes it. -/
def relevantChildCount (includeAnonymous : Bool) : Tree → ℕ
  | .node _ children => relevantCount includeAnonymous children
/-- The contribution of a list of children to the count of their parent. -/
def relevantCount (includeAnonymous : Bool) : List Tree → ℕ
  | [] => 0
  | child :: rest =>
      (if child.label.visible then
        if includeAnonymous || child.label.named then 1 else 0
      else relevantChildCount includeAnonymous child) + relevantCount includeAnonymous rest
end

mutual
/-- `ts_node__child` once it has descended to a node. -/
def tsNodeChildOf (includeAnonymous : Bool) (self : TSNode) : Tree → ℕ → Option TSNode
  | .node _ children, index => tsNodeChildAmong includeAnonymous self children index
/-- The loop of `ts_node__child` over the direct children of a node. The index is the one still to
be passed, `child_index - index`; running off the list is the null node. -/
def tsNodeChildAmong (includeAnonymous : Bool) (self : TSNode) : List Tree → ℕ → Option TSNode
  | [], _ => none
  | child :: rest, index =>
      if isRelevant includeAnonymous child.label then
        if index = 0 then some (tsNodeDirectChild self child)
        else tsNodeChildAmong includeAnonymous self rest (index - 1)
      else
        -- a hidden child stands for the nodes below it
        let grandchildCount := relevantChildCount includeAnonymous child
        if index < grandchildCount then
          tsNodeChildOf includeAnonymous (tsNodeDirectChild self child) child index
        else tsNodeChildAmong includeAnonymous self rest (index - grandchildCount)
end

/-- `ts_node_child`; `none` is the null node. -/
def tsNodeChild (self : TSNode) (index : ℕ) : Option TSNode :=
  tsNodeChildOf true self self.tree index

/-- `ts_node_named_child`; `none` is the null node. -/
def tsNodeNamedChild (self : TSNode) (index : ℕ) : Option TSNode :=
  tsNodeChildOf false self self.tree index

/-- `ts_node_child_count`. -/
def tsNodeChildCount (self : TSNode) : ℕ := relevantChildCount true self.tree

/-- `ts_document_root_node` on a document with a tree. A named child is visible, so the loop of the C
function takes at most one step. -/
def tsDocumentRootNode (tree : Tree) : Option TSNode :=
  let result : TSNode := ⟨tree, 0, 0, 0, [tree.label.offset]⟩
  if tree.label.visible then some result else tsNodeNamedChild result 0

mutual
/-- `ts_node__descendant_for_char_range` once it has descended to a node. -/
def descendantForCharRangeOf (min max : ℕ) (self lastVisibleNode : TSNode) : Tree → TSNode
  | .node _ children => descendantForCharRangeAmong min max self lastVisibleNode children
/-- The loop of `ts_node__descendant_for_char_range` over the direct children of a node. -/
def descendantForCharRangeAmong (min max : ℕ) (self lastVisibleNode : TSNode) :
    List Tree → TSNode
  | [] => lastVisibleNode
  | child :: rest =>
      let node := tsNodeDirectChild self child
      if tsNodeStartChar node > min then lastVisibleNode
      else if tsNodeEndChar node > max then
        descendantForCharRangeOf min max node
          (if isRelevant true child.label then node else lastVisibleNode) child
      else descendantForCharRangeAmong min max self lastVisibleNode rest
end

/-- `ts_node_descendant_for_char_range`. -/
def tsNodeDescendantForCharRange (self : TSNode) (min max : ℕ) : TSNode :=
  descendantForCharRangeOf min max self self self.tree

/-! ## Equality of nodes -/

/-- The word that `ts_tree_eq` compares for error nodes. `lookahead_char` shares its storage with
`visible_child_count`, which is what an error node with children has there. -/
def lookaheadWord : Tree → ℤ
  | .node self [] => self.lookaheadChar
  | .node _ (child :: rest) => relevantCount true (child :: rest)

mutual
/-- `ts_tree_eq`. -/
def tsTreeEq : Tree → Tree → Bool
  | .node self children, .node other otherChildren =>
      if self.symbol ≠ other.symbol ∨ self.visible ≠ other.visible ∨ self.named ≠ other.named then
        false
      else if self.symbol = tsBuiltinSymError then
        lookaheadWord (.node self children) = lookaheadWord (.node other otherChildren)
      else if children.length ≠ otherChildren.length ∨
          relevantCount true children ≠ relevantCount true otherChildren ∨
          relevantCount false children ≠ relevantCount false otherChildren then false
      else tsTreeEqAll children otherChildren
/-- The loop of `ts_tree_eq` over the children. -/
def tsTreeEqAll : List Tree → List Tree → Bool
  | child :: rest, other :: otherRest => tsTreeEq child other && tsTreeEqAll rest otherRest
  | _, _ => true
end

/-- `ts_node_eq`. -/
def tsNodeEq (self other : TSNode) : Bool :=
  tsTreeEq self.tree other.tree && decide (self.offsetChar = other.offsetChar) &&
    decide (self.offsetByte = other.offsetByte) && decide (self.offsetRow = other.offsetRow)

/-- `ts_tree_eq` holds of a tree and itself. -/
theorem tsTreeEq_self (tree : Tree) : tsTreeEq tree tree = true := by
  induction tree using RoseTree.induct with
  | node self children ih =>
      have hall : ∀ ts : List Tree, (∀ t ∈ ts, tsTreeEq t t = true) → tsTreeEqAll ts ts = true := by
        intro ts hts
        induction ts with
        | nil => rfl
        | cons t ts ihts =>
            rw [tsTreeEqAll, hts t List.mem_cons_self, Bool.true_and]
            exact ihts fun u hu => hts u (List.mem_cons_of_mem t hu)
      rw [tsTreeEq, if_neg (by simp)]
      split
      · exact decide_eq_true rfl
      · rw [if_neg (by simp)]
        exact hall children ih

/-- `ts_node_eq` holds of a node and itself. -/
theorem tsNodeEq_self (node : TSNode) : tsNodeEq node node = true := by
  simp only [tsNodeEq, tsTreeEq_self, decide_true, Bool.and_self]

/-! ## The tree of visible nodes -/

/-- A node as the editor sees it: a handle with the visible nodes below it. -/
abbrev Node := RoseTree TSNode

mutual
/-- The visible nodes from a handle down. -/
def visibleNode (self : TSNode) : Tree → Node
  | .node _ children => .node self (visibleChildren self children)
/-- The visible nodes directly below a handle, among a list of its children. -/
def visibleChildren (self : TSNode) : List Tree → List Node
  | [] => []
  | child :: rest =>
      (if child.label.visible then [visibleNode (tsNodeDirectChild self child) child]
      else visibleDescendants (tsNodeDirectChild self child) child) ++ visibleChildren self rest
/-- The visible nodes below a hidden node, which take its place. -/
def visibleDescendants (self : TSNode) : Tree → List Node
  | .node _ children => visibleChildren self children
end

/-- The root of the visible nodes is the handle they start from. -/
@[simp] theorem label_visibleNode (self : TSNode) (tree : Tree) :
    (visibleNode self tree).label = self := by
  cases tree with
  | node data children => rfl

/-- The children of a visible node are the visible nodes that take the place of its children. -/
theorem children_visibleNode (self : TSNode) (tree : Tree) :
    (visibleNode self tree).children = visibleDescendants self tree := by
  cases tree with
  | node data children => rfl

/-- A hidden node is replaced by as many visible nodes as its count says, and `ts_node__child` finds
them by their index. -/
theorem visibleDescendants_spec (tree : Tree) (self : TSNode) :
    (visibleDescendants self tree).length = relevantChildCount true tree ∧
      ∀ index, ((visibleDescendants self tree)[index]?).map RoseTree.label =
        tsNodeChildOf true self tree index := by
  induction tree using RoseTree.induct generalizing self with
  | node data children ih =>
      simp only [visibleDescendants, relevantChildCount, tsNodeChildOf]
      clear data
      induction children with
      | nil => exact ⟨rfl, fun index => rfl⟩
      | cons child rest ihRest =>
          obtain ⟨hlen, hget⟩ := ihRest fun t ht => ih t (List.mem_cons_of_mem child ht)
          obtain ⟨hlenChild, hgetChild⟩ :=
            ih child List.mem_cons_self (tsNodeDirectChild self child)
          rw [visibleChildren, relevantCount]
          by_cases hvisible : child.label.visible
          · -- a visible child takes index `0`
            rw [if_pos hvisible, if_pos hvisible, List.singleton_append, List.length_cons, hlen]
            refine ⟨by simp [Nat.add_comm], ?_⟩
            intro index
            rw [tsNodeChildAmong, isRelevant, if_pos rfl, if_pos hvisible]
            cases index with
            | zero => simp
            | succ index => simpa using hget index
          · -- a hidden child hands its indices on to the nodes that replace it
            rw [if_neg hvisible, if_neg hvisible, List.length_append, hlenChild, hlen]
            refine ⟨rfl, ?_⟩
            intro index
            rw [tsNodeChildAmong, isRelevant, if_pos rfl, if_neg hvisible, List.getElem?_append,
              hlenChild]
            by_cases hindex : index < relevantChildCount true child
            · rw [if_pos hindex, if_pos hindex, hgetChild]
            · rw [if_neg hindex, if_neg hindex, hget]

/-- **The visible nodes are the nodes `ts_node_child` finds**: a node has `ts_node_child_count`
children, and the child at an index is the handle `ts_node_child` returns for it. -/
theorem visibleNode_child (self : TSNode) :
    (visibleNode self self.tree).children.length = tsNodeChildCount self ∧
      ∀ index, ((visibleNode self self.tree).children[index]?).map RoseTree.label =
        tsNodeChild self index := by
  rw [children_visibleNode]
  exact visibleDescendants_spec self.tree self

/-- The visible nodes below a handle are the visible nodes of their own handles. -/
theorem visibleNode_label_of_mem {tree : Tree} {self : TSNode} {child : Node}
    (h : child ∈ visibleDescendants self tree) : visibleNode child.label child.label.tree = child := by
  induction tree using RoseTree.induct generalizing self with
  | node data children ih =>
      simp only [visibleDescendants] at h
      clear data
      induction children with
      | nil => exact absurd h List.not_mem_nil
      | cons first rest ihRest =>
          rw [visibleChildren] at h
          rcases List.mem_append.mp h with h | h
          · by_cases hvisible : first.label.visible
            · rw [if_pos hvisible, List.mem_singleton] at h
              rw [h, label_visibleNode]
              rfl
            · rw [if_neg hvisible] at h
              exact ih first List.mem_cons_self h
          · exact ihRest (fun t ht => ih t (List.mem_cons_of_mem first ht)) h

end TreeSitterTextStorage
