import TreeSitterTextStorage.Highlighting.Language
import TreeSitterTextStorage.Highlighting.Node
import TreeSitterTextStorage.Library.Generator

/-! # The walk to an index

What a caller of `TraverseInRangeGenerator` sees when it calls `next()` again and again. Every call
starts over from the stored iterator, which only a call that finds a child replaces; so the calls
return the nodes below the root that cover the index, from the outermost one down, and then `nil` for
good. -/

namespace TreeSitterTextStorage

open RoseTree RangedTree

namespace TraverseInRangeGenerator

/-! ## The calls -/

/-- A call that finds no child leaves the generator as it was. -/
theorem next_of_find_none {self : TraverseInRangeGenerator}
    (h : self.children.find? (covers self.index) = none) : self.next = (none, self) := by
  simp only [next, contains_range_eq, h]

/-- A call that finds a child goes on among its children. -/
theorem next_of_find {self : TraverseInRangeGenerator} {child : Node}
    (h : self.children.find? (covers self.index) = some child) :
    self.next = (some child, { self with children := child.children }) := by
  simp only [next, contains_range_eq, h]

/-- **The calls of `next()`** return the nodes of the descent one by one, and `nil` behind them. -/
theorem call_eq_getElem (self : TraverseInRangeGenerator) (calls : ℕ) :
    Generator.call next self calls = (descentList (covers self.index) self.children)[calls]? := by
  induction calls generalizing self with
  | zero =>
      rw [Generator.call_zero, descentList_eq]
      cases hfind : self.children.find? (covers self.index) with
      | none => rw [next_of_find_none hfind, List.getElem?_nil]
      | some child => rw [next_of_find hfind, List.getElem?_cons_zero]
  | succ calls ih =>
      rw [Generator.call_succ, ih, descentList_eq (covers self.index) self.children]
      cases hfind : self.children.find? (covers self.index) with
      | none =>
          -- the generator is the same as before, so the calls behind find nothing either
          simp only [next_of_find_none hfind, descentList_eq, hfind, List.getElem?_nil]
      | some child =>
          rw [next_of_find hfind, List.getElem?_cons_succ]
          cases child with
          | node label children => rw [descent, children_node]

/-- The calls on a new generator. -/
theorem call_init_eq_getElem (root : Node) (index calls : ℕ) :
    Generator.call next (init root index) calls = (descent (covers index) root)[calls]? := by
  rw [call_eq_getElem]
  cases root with
  | node label children => rw [descent, init, children_node]

/-! ## The stored iterator -/

/-- `TraverseInRangeGenerator` as the source has it, with a stored iterator over the children. -/
structure Stored where
  /-- The index to walk to. -/
  index : ℕ
  /-- The stored iterator. -/
  children : IndexingIterator

namespace Stored

/-- `TraverseInRangeGenerator.init(node:index:document:)`. -/
def init (node : TSNode) (index : ℕ) : Stored := ⟨index, .make (.init node)⟩

/-- The loop of `next()` over a copy of the stored iterator, with the number of rounds it may take. -/
def loop (index : ℕ) : ℕ → IndexingIterator → Option TSNode
  | 0, _ => none
  | fuel + 1, children =>
      match children.next with
      | (some child, children) =>
          if child.range.contains index then some child else loop index fuel children
      | (none, _) => none

/-- `TraverseInRangeGenerator.next()`. The loop advances its own copy, so the stored iterator is either
replaced or left where it is. -/
def next (self : Stored) : Option TSNode × Stored :=
  match loop self.index self.children.elements.endIndex self.children with
  | some child => (some child, { self with children := .make (.init child) })
  | none => (none, self)

/-- The loop ends at the first child whose range contains the index. -/
theorem loop_eq_find (index fuel : ℕ) (children : IndexingIterator) :
    loop index fuel children =
      (IndexingIterator.rounds fuel children).find? fun child => child.range.contains index := by
  induction fuel generalizing children with
  | zero => rfl
  | succ fuel ih =>
      rw [loop, IndexingIterator.rounds]
      rcases children.next with ⟨_ | child, children⟩
      · rfl
      · simp only [List.find?_cons]
        by_cases hcontains : child.range.contains index = true
        · rw [if_pos hcontains, hcontains]
        · rw [if_neg hcontains, Bool.eq_false_iff.mpr hcontains, ih]

/-- The loop over all children of a node finds the child that the descent enters. -/
theorem loop_make (index : ℕ) (node : TSNode) :
    loop index (NodeChildrenCollection.init node).endIndex (.make (.init node)) =
      ((visibleNode node node.tree).children.find? (covers index)).map RoseTree.label := by
  have hrounds := IndexingIterator.rounds_make node
    (le_refl (NodeChildrenCollection.init node).endIndex)
  rw [loop_eq_find, hrounds, List.find?_map]
  rfl

/-- A call on a new generator goes on from the child that the descent enters, or stays. -/
theorem next_init (node : TSNode) (index : ℕ) :
    (init node index).next =
      match (visibleNode node node.tree).children.find? (covers index) with
      | some child => (some child.label, init child.label index)
      | none => (none, init node index) := by
  have hnext : (init node index).next =
      match loop index (NodeChildrenCollection.init node).endIndex (.make (.init node)) with
      | some child => (some child, init child index)
      | none => (none, init node index) := rfl
  rw [hnext, loop_make]
  cases (visibleNode node node.tree).children.find? (covers index) <;> rfl

/-- A call that returns `nil` leaves the generator as it was. -/
theorem next_of_none {self : Stored} (h : self.next.1 = none) : self.next.2 = self := by
  unfold next at h ⊢
  cases hloop : loop self.index self.children.elements.endIndex self.children with
  | none => rfl
  | some child =>
      rw [hloop] at h
      exact absurd h (Option.some_ne_none child)

/-- A generator whose stored iterator is at the first child of a node, and the one that chooses among
the visible nodes directly below it. -/
def Walks (self : Stored) (generator : TraverseInRangeGenerator) : Prop :=
  ∃ node index, self = init node index ∧
    generator = TraverseInRangeGenerator.init (visibleNode node node.tree) index

/-- A call keeps the stored iterator at the first child of the node that the walk has come to. -/
theorem next_walks (self : Stored) (generator : TraverseInRangeGenerator)
    (h : self.Walks generator) :
    self.next.1 = generator.next.1.map RoseTree.label ∧ self.next.2.Walks generator.next.2 := by
  obtain ⟨node, index, rfl, rfl⟩ := h
  rw [next_init]
  cases hfind : (visibleNode node node.tree).children.find? (covers index) with
  | none =>
      rw [TraverseInRangeGenerator.next_of_find_none hfind]
      exact ⟨rfl, node, index, rfl, rfl⟩
  | some child =>
      have hmem : child ∈ visibleDescendants node node.tree :=
        children_visibleNode node node.tree ▸ List.mem_of_find?_eq_some hfind
      rw [TraverseInRangeGenerator.next_of_find hfind]
      refine ⟨rfl, child.label, index, rfl, ?_⟩
      rw [visibleNode_label_of_mem hmem]
      rfl

/-- **The walk is the covering path.** Over a well-formed tree the calls of `next()` return the nodes
of a finite path one by one, and then `nil`. The nodes of the path are exactly the nodes below the root
whose range contains the index, each once, and each is a child of the one before. Whatever the
generator, `nil` is returned for good. -/
theorem calls_coveringPath {root : TSNode} (h : WellFormed (visibleNode root root.tree))
    (index : ℕ) :
    ∃ path : List Node,
      (∀ calls, Generator.call next (init root index) calls = path[calls]?.map RoseTree.label) ∧
      (∀ node, node ∈ path ↔
        Below (visibleNode root root.tree) node ∧ node.label.range.contains index = true) ∧
      path.Nodup ∧
      (visibleNode root root.tree :: path).IsChain (fun parent child => child ∈ parent.children) ∧
      ∀ self : Stored, ∀ m n, m ≤ n →
        Generator.call next self m = none → Generator.call next self n = none := by
  refine ⟨descent (covers index) (visibleNode root root.tree), ?_, ?_, ?_, ?_, ?_⟩
  · intro calls
    rw [← call_init_eq_getElem]
    exact Generator.call_eq_map RoseTree.label next_walks ⟨root, index, rfl, rfl⟩ calls
  · intro node
    rw [contains_range_eq]
    exact h.mem_descent_iff
  · exact (List.pairwise_cons.mp (pairwise_descent (covers index) _)).2.imp Below.ne
  · exact isChain_descent (covers index) _
  · exact fun self m n => Generator.call_eq_none_of_le fun _ => next_of_none

end Stored

end TraverseInRangeGenerator

/-! ## A small tree -/

/-- A node of a JSON tree without white space, by its start in its parent and its size. -/
def jsonNode (symbol : Json) (offset size : ℕ) (children : List Tree) : Tree :=
  let metadata := Json.symbolMetadata symbol.rawValue
  .node
    { symbol := symbol.rawValue
      visible := metadata.visible
      named := metadata.named
      padding := Length.zero
      size := ⟨2 * size, size, ⟨0, size⟩⟩
      offset := ⟨2 * offset, offset, ⟨0, offset⟩⟩ }
    children

/-- The tree of `[1]`. -/
def arrayTree : Tree :=
  jsonNode .symValue 0 3
    [jsonNode .symArray 0 3
      [jsonNode .anonSymLBRACK 0 1 [], jsonNode .symValue 1 1 [jsonNode .symNumber 0 1 []],
        jsonNode .anonSymRBRACK 2 1 []]]

/-- The visible root of the tree of `[1]`, the array. -/
def arrayNode : TSNode := (tsDocumentRootNode arrayTree).get rfl

/-- The walk to the number of `[1]`. -/
theorem calls_coveringPath_array :
    ∃ path : List Node,
      (∀ calls, Generator.call TraverseInRangeGenerator.Stored.next (.init arrayNode 1) calls =
        path[calls]?.map RoseTree.label) ∧
      (∀ node, node ∈ path ↔
        Below (visibleNode arrayNode arrayNode.tree) node ∧ node.label.range.contains 1 = true) ∧
      path.Nodup ∧
      (visibleNode arrayNode arrayNode.tree :: path).IsChain
        (fun parent child => child ∈ parent.children) ∧
      ∀ self : TraverseInRangeGenerator.Stored, ∀ m n, m ≤ n →
        Generator.call TraverseInRangeGenerator.Stored.next self m = none →
          Generator.call TraverseInRangeGenerator.Stored.next self n = none :=
  TraverseInRangeGenerator.Stored.calls_coveringPath (by decide) 1

end TreeSitterTextStorage
