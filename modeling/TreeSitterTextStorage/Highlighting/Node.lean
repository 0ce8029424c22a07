import Mathlib.Order.Nat
import TreeSitterTextStorage.Runtime.Tree

/-! # Nodes as the editor reads them

`Node.swift`: the range of a node in characters, its children, and `TraverseInRangeGenerator`, which
walks from a node down to an index. Its one specification says that the walk is the descent through
the children whose range contains the index. -/

namespace TreeSitterTextStorage

open RoseTree RangedTree

/-! ## Ranges -/

namespace TSNode

/-- `Node.start`. -/
def start (self : TSNode) : ℕ := tsNodeStartChar self

/-- `Node.end`. -/
def stop (self : TSNode) : ℕ := tsNodeEndChar self

/-- `Node.symbol`. -/
def symbol (self : TSNode) : UInt16 := tsNodeSymbol self

/-- A node does not end before it starts. -/
theorem start_le_stop (self : TSNode) : self.start ≤ self.stop := Nat.le_add_right _ _

/-- `Node.range`. -/
def range (self : TSNode) : CountableRange := ⟨self.start, self.stop, self.start_le_stop⟩

@[simp] theorem lowerBound_range (self : TSNode) : self.range.lowerBound = self.start := rfl

@[simp] theorem upperBound_range (self : TSNode) : self.range.upperBound = self.stop := rfl

/-- The number of characters of a node. -/
theorem count_range (self : TSNode) : self.range.count = self.stop - self.start := rfl

/-- The `NSRange` of a node ends with the node. -/
theorem location_add_length (self : TSNode) :
    (NSRange.ofCountableRange self.range).location +
      (NSRange.ofCountableRange self.range).length = self.stop :=
  Nat.add_sub_cancel' self.start_le_stop

end TSNode

/-- Nodes carry their ranges in characters. -/
instance : Ranged TSNode ℕ := ⟨TSNode.start, TSNode.stop⟩

@[simp] theorem ranged_start (self : TSNode) : Ranged.start self = self.start := rfl

@[simp] theorem ranged_stop (self : TSNode) : Ranged.stop self = self.stop := rfl

/-- A node covers an index when its range contains it. -/
theorem contains_range_eq (index : ℕ) (node : Node) :
    node.label.range.contains index = covers index node := rfl

/-- The `NSRange` of a node contains the indices that the node covers. -/
theorem contains_ofCountableRange (index : ℕ) (node : Node) :
    (NSRange.ofCountableRange node.label.range).contains index = covers index node := by
  rw [Bool.eq_iff_iff, NSRange.contains_iff, TSNode.location_add_length, covers_iff]
  rfl

/-! ## Children -/

/-- `NodeChildrenCollection`. -/
structure NodeChildrenCollection where
  /-- The node whose children these are. -/
  node : TSNode
  /-- The number of children. -/
  count : ℕ

namespace NodeChildrenCollection

/-- `NodeChildrenCollection.init(node:)`. -/
def init (node : TSNode) : NodeChildrenCollection := ⟨node, tsNodeChildCount node⟩

/-- `startIndex`. -/
def startIndex (_self : NodeChildrenCollection) : ℕ := 0

/-- `endIndex`. -/
def endIndex (self : NodeChildrenCollection) : ℕ := self.count

/-- `subscript(index:)`; `none` is the null node. -/
def subscript (self : NodeChildrenCollection) (index : ℕ) : Option TSNode :=
  tsNodeChild self.node index

/-- `index(after:)`. -/
def indexAfter (_self : NodeChildrenCollection) (i : ℕ) : ℕ := i + 1

end NodeChildrenCollection

/-- `IndexingIterator<NodeChildrenCollection>`: a collection and the index of its next element. -/
structure IndexingIterator where
  /-- The collection. -/
  elements : NodeChildrenCollection
  /-- The index of the next element. -/
  position : ℕ

namespace IndexingIterator

/-- `NodeChildrenCollection.makeIterator()`. -/
def make (elements : NodeChildrenCollection) : IndexingIterator := ⟨elements, elements.startIndex⟩

/-- `IndexingIterator.next()`. -/
def next (self : IndexingIterator) : Option TSNode × IndexingIterator :=
  if self.position = self.elements.endIndex then (none, self)
  else
    (self.elements.subscript self.position,
      { self with position := self.elements.indexAfter self.position })

/-- The elements that a `for` loop over the iterator visits, in a given number of rounds. -/
def rounds : ℕ → IndexingIterator → List TSNode
  | 0, _ => []
  | fuel + 1, self =>
      match self.next with
      | (some child, self) => child :: rounds fuel self
      | (none, _) => []

/-- What an iterator over the children of a node returns. -/
theorem next_init (self : TSNode) (position : ℕ) :
    next ⟨.init self, position⟩ =
      if position = tsNodeChildCount self then (none, ⟨.init self, position⟩)
      else (tsNodeChild self position, ⟨.init self, position + 1⟩) := rfl

/-- From a position on, the iterator visits the visible children from that position on. -/
theorem rounds_eq_drop (self : TSNode) {fuel position : ℕ}
    (h : tsNodeChildCount self ≤ position + fuel) (hposition : position ≤ tsNodeChildCount self) :
    rounds fuel ⟨.init self, position⟩ =
      ((visibleNode self self.tree).children.map RoseTree.label).drop position := by
  obtain ⟨hlength, hget⟩ := visibleNode_child self
  have hlengthMap : ((visibleNode self self.tree).children.map RoseTree.label).length =
      tsNodeChildCount self := by rw [List.length_map, hlength]
  induction fuel generalizing position with
  | zero => rw [rounds, List.drop_eq_nil_of_le (hlengthMap ▸ h)]
  | succ fuel ih =>
      rw [rounds, next_init]
      by_cases hend : position = tsNodeChildCount self
      · rw [if_pos hend, List.drop_eq_nil_of_le (hlengthMap ▸ hend.ge)]
      · have hlt : position < tsNodeChildCount self := Nat.lt_of_le_of_ne hposition hend
        have hbound : position < ((visibleNode self self.tree).children.map RoseTree.label).length :=
          hlengthMap ▸ hlt
        have hchild : tsNodeChild self position =
            some ((visibleNode self self.tree).children.map RoseTree.label)[position] := by
          rw [← hget position, ← List.getElem?_map, List.getElem?_eq_getElem hbound]
        rw [if_neg hend, List.drop_eq_getElem_cons hbound, hchild]
        simp only
        rw [ih (by omega) hlt]

/-- **A loop over the children of a node** visits the visible nodes directly below it, in order. -/
theorem rounds_make (self : TSNode) {fuel : ℕ} (h : tsNodeChildCount self ≤ fuel) :
    rounds fuel (make (.init self)) = (visibleNode self self.tree).children.map RoseTree.label :=
  rounds_eq_drop self (h.trans (Nat.le_add_left _ _)) (Nat.zero_le _)

end IndexingIterator

/-! ## The walk to an index -/

/-- `TraverseInRangeGenerator`: the index, and the children that its stored iterator starts from. -/
structure TraverseInRangeGenerator where
  /-- The index to walk to. -/
  index : ℕ
  /-- The children to choose among next. -/
  children : List Node

namespace TraverseInRangeGenerator

/-- `TraverseInRangeGenerator.init(node:index:document:)`. -/
def init (node : Node) (index : ℕ) : TraverseInRangeGenerator := ⟨index, node.children⟩

/-- `TraverseInRangeGenerator.next()`. The loop runs over a copy of the stored iterator and replaces
the stored one when it finds a child. -/
def next (self : TraverseInRangeGenerator) : Option Node × TraverseInRangeGenerator :=
  match self.children.find? fun child => child.label.range.contains self.index with
  | some child => (some child, { self with children := child.children })
  | none => (none, self)

/-- The nodes a `for` loop over the generator visits, in a given number of rounds. -/
def rounds : ℕ → TraverseInRangeGenerator → List Node
  | 0, _ => []
  | fuel + 1, self =>
      match self.next with
      | (some child, self) => child :: rounds fuel self
      | (none, _) => []

/-- The nodes a `for` loop over the generator visits. There is a round for every level below, which
`nodes_eq_descent` shows to be enough. -/
def nodes (self : TraverseInRangeGenerator) : List Node := rounds (heightList self.children) self

/-- With a round for every level below, the loop ends at a node without a child to enter. -/
theorem rounds_eq_descentList {fuel : ℕ} {self : TraverseInRangeGenerator}
    (h : heightList self.children ≤ fuel) :
    rounds fuel self = descentList (covers self.index) self.children := by
  induction fuel generalizing self with
  | zero =>
      cases hchildren : self.children with
      | nil => rfl
      | cons child rest =>
          have hpos : 0 < child.height := by cases child with
            | node label children => exact Nat.succ_pos _
          have hle := height_le_heightList (List.mem_cons_self : child ∈ child :: rest)
          rw [hchildren] at h
          omega
  | succ fuel ih =>
      simp only [rounds, next, contains_range_eq]
      rw [descentList_eq]
      cases hfind : self.children.find? (covers self.index) with
      | none => rfl
      | some child =>
          have hmem := height_le_heightList (List.mem_of_find?_eq_some hfind)
          have hlt : heightList child.children < child.height := by
            cases child with
            | node label children => exact Nat.lt_succ_self _
          simp only
          rw [ih (show heightList child.children ≤ fuel by omega)]
          cases child with
          | node label children => rw [descent, children_node]

/-- **The walk from a node to an index** visits the nodes of the descent through the children whose
range contains the index. -/
theorem nodes_eq_descent (node : Node) (index : ℕ) :
    (init node index).nodes = descent (covers index) node := by
  rw [nodes, rounds_eq_descentList le_rfl]
  cases node with
  | node label children => rw [descent, init, children_node]

end TraverseInRangeGenerator

end TreeSitterTextStorage
