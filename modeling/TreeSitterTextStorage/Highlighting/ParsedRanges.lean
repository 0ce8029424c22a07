import TreeSitterTextStorage.Highlighting.Node
import TreeSitterTextStorage.Runtime.Linking

/-! # The ranges of a parsed tree

A tree of a parse spans a text, and its nodes know their places. So the ranges that the editor reads
from its handles are nested: every visible node lies inside the visible node above it, and siblings
follow one another. Hidden nodes hand on what is below them, at the place where they
are themselves. -/

namespace TreeSitterTextStorage

open RoseTree RangedTree

variable {α : Type} {metric : Metric α}

/-! ## Handles -/

/-- A handle on a tree starts behind its padding. -/
theorem start_of_tree {self : TSNode} {tree : SyntaxTree} (hself : self.tree = tree.tree) :
    self.start = self.offsetChar + tree.label.padding.chars := by
  show self.offsetChar + self.tree.label.padding.chars = _
  rw [hself, SyntaxTree.label_tree]

/-- A handle on a tree that spans a text ends behind the text. -/
theorem Spans.stop_eq {tree : SyntaxTree} {text : List α} {self : TSNode}
    (h : Spans metric tree text) (hself : self.tree = tree.tree) :
    self.stop = self.offsetChar + text.length := by
  show self.start + self.tree.label.size.chars = _
  rw [start_of_tree hself, hself, SyntaxTree.label_tree]
  obtain ⟨data, children⟩ := tree
  rw [Spans] at h
  obtain ⟨⟨front, content, rfl, hpadding, hsize⟩, -⟩ := h
  rw [label_node, hpadding, hsize, List.length_append, ← Nat.add_assoc]
  rfl

/-- The padding of a tree lies in the text that the tree spans. -/
theorem Spans.padding_le {tree : SyntaxTree} {text : List α} (h : Spans metric tree text) :
    tree.label.padding.chars ≤ text.length := by
  obtain ⟨data, children⟩ := tree
  rw [Spans] at h
  obtain ⟨⟨front, content, rfl, hpadding, -⟩, -⟩ := h
  rw [label_node, hpadding, List.length_append]
  exact Nat.le_add_right _ _

/-- A handle on a child that stands behind a piece of the text. -/
theorem offsetChar_directChild {self : TSNode} {child : SyntaxTree} {passed : List α}
    (h : child.label.offset = metric.lengthOf passed) :
    (tsNodeDirectChild self (SyntaxTree.tree child)).offsetChar =
    self.offsetChar + passed.length := by
  show self.offsetChar + (SyntaxTree.tree child).label.offset.chars = _
  rw [SyntaxTree.label_tree, h]
  rfl

/-! ## Visible nodes -/

/-- The visible nodes that take the place of a child below a handle. -/
def visiblePlace (self : TSNode) (child : Tree) : List Node :=
  if child.label.visible then [visibleNode (tsNodeDirectChild self child) child]
  else visibleDescendants (tsNodeDirectChild self child) child

theorem visibleChildren_cons (self : TSNode) (child : Tree) (rest : List Tree) :
    visibleChildren self (child :: rest) = visiblePlace self child ++ visibleChildren
      self rest := rfl

/-- A visible node is well formed when the nodes below it are arranged in its range. -/
theorem wellFormed_visibleNode_iff {self : TSNode} {tree : Tree} :
    WellFormed (visibleNode self tree) ↔ Arranged self.start self.stop
      (visibleDescendants self tree) := by
  obtain ⟨data, children⟩ := tree
  rw [visibleNode, wellFormed_node_iff]
  exact and_iff_right self.start_le_stop

/-- The visible nodes below any handle on a tree are arranged in the range of the handle. -/
def ArrangedBelow (tree : Tree) : Prop :=
  ∀ self : TSNode, self.tree = tree → Arranged self.start self.stop (visibleDescendants self tree)

/-- What takes the place of a child is arranged in the range of the child. -/
theorem ArrangedBelow.visiblePlace {self : TSNode} {child : Tree} (h : ArrangedBelow child) :
    Arranged (tsNodeDirectChild self child).start (tsNodeDirectChild self child).stop
      (visiblePlace self child) := by
  have hbelow := h (tsNodeDirectChild self child) rfl
  rw [TreeSitterTextStorage.visiblePlace]
  split
  · have hwell := (wellFormed_visibleNode_iff.mpr hbelow).arranged
    rw [label_visibleNode] at hwell
    exact hwell
  · exact hbelow

/-- What takes the places of children behind a piece of the text is arranged in the text that the
children span, and starts behind the padding of the first one. -/
theorem arranged_visibleChildren {self : TSNode} {children : List SyntaxTree} {parent index : ℕ}
    {passed text : List α} (hspan : SpanAmong metric children text)
    (hplaced : AssignedAmong parent index (metric.lengthOf passed) children)
    (hbelow : ∀ child ∈ children, ArrangedBelow (SyntaxTree.tree child))
    (hlt : metric.bytesOf (passed ++ text) < 2 ^ 32) :
    Arranged (self.offsetChar + passed.length + children.head?.elim 0 fun first =>
      first.label.padding.chars) (self.offsetChar + passed.length + text.length)
      (visibleChildren self (children.map SyntaxTree.tree)) := by
  induction children generalizing index passed text with
  | nil => exact arranged_nil
  | cons child rest ih =>
      rw [SpanAmong] at hspan
      obtain ⟨own, back, rfl, hchild, hrest⟩ := hspan
      rw [← List.append_assoc] at hlt
      obtain ⟨hoffset, hplacedRest⟩ := hplaced.behind hchild (metric.bytesOf_left_lt hlt)
      have hfirst := @ArrangedBelow.visiblePlace self _ (hbelow child List.mem_cons_self)
      rw [start_of_tree rfl, hchild.stop_eq rfl, offsetChar_directChild hoffset] at hfirst
      have hbehind := ih hrest hplacedRest (fun c hc => hbelow c (List.mem_cons_of_mem _ hc)) hlt
      rw [List.length_append, ← Nat.add_assoc] at hbehind
      rw [List.map_cons, visibleChildren_cons, List.length_append, ← Nat.add_assoc]
      exact hfirst.append (hbehind.mono (Nat.le_add_right _ _) (Nat.le_refl _))
        (Nat.add_le_add_left hchild.padding_le _) (Nat.le_add_right _ _)

/-- **The visible nodes below a handle** on a tree of a parse are arranged in its range. -/
theorem Spans.arrangedBelow {next : ℕ} {tree : SyntaxTree} {text : List α}
    (h : Spans metric tree text) (hassigned : tree.All Assigned)
    (hsettled : tree.All (Settled next)) (hlt : metric.bytesOf text < 2 ^ 32) :
    ArrangedBelow tree.tree := by
  induction tree using RoseTree.induct generalizing text with
  | node data children ih =>
      intro self hself
      have hpadded := hsettled.root.padded
      rw [start_of_tree hself, h.stop_eq hself]
      rw [SyntaxTree.tree, map, mapList_eq, visibleDescendants]
      cases children with
      | nil => exact arranged_nil
      | cons first rest =>
          have hspan := h.children (List.cons_ne_nil first rest)
          have hchildren := @arranged_visibleChildren _ metric self (first :: rest) _ _
            [] text hspan hassigned.root (fun child hchild => ?_) hlt
          · rw [hpadded first rfl]
            exact hchildren
          · obtain ⟨own, hown, hle⟩ := hspan.of_mem hchild
            exact ih child hchild hown (hassigned.child hchild) (hsettled.child hchild) (by omega)

/-! ## Named children and the root -/

/-- `ts_node__child` returns a handle on a child, or on a node below it. -/
theorem exists_of_tsNodeChildAmong {includeAnonymous : Bool} {self node : TSNode}
    {children : List Tree} {index : ℕ} (h : tsNodeChildAmong includeAnonymous self children
    index = some node) :
    ∃ child ∈ children, node = tsNodeDirectChild self child ∨
      ∃ index', tsNodeChildOf includeAnonymous (tsNodeDirectChild self child) child index' =
        some node := by
  induction children generalizing index with
  | nil => exact absurd h (Option.some_ne_none node).symm
  | cons child rest ih =>
      have hbehind : ∀ {index'}, tsNodeChildAmong includeAnonymous self rest index' = some node →
          ∃ later ∈ child :: rest, node = tsNodeDirectChild self later ∨
            ∃ index', tsNodeChildOf includeAnonymous (tsNodeDirectChild self later) later index' =
              some node := by
        intro index' hrest
        obtain ⟨later, hlater, hnode⟩ := ih hrest
        exact ⟨later, List.mem_cons_of_mem child hlater, hnode⟩
      rw [tsNodeChildAmong] at h
      split at h
      · split at h
        · exact ⟨child, List.mem_cons_self, Or.inl (Option.some.inj h).symm⟩
        · exact hbehind h
      · simp only at h
        split at h
        · exact ⟨child, List.mem_cons_self, Or.inr ⟨index, h⟩⟩
        · exact hbehind h

/-- A child that knows its place stands behind a piece of the text. -/
theorem AssignedAmong.exists_place {children : List SyntaxTree} {child : SyntaxTree}
    {parent index : ℕ}
    {passed text : List α} (h : AssignedAmong parent index (metric.lengthOf passed) children)
    (hspan : SpanAmong metric children text) (hlt : metric.bytesOf (passed ++ text) < 2 ^ 32)
    (hmem : child ∈ children) :
    ∃ front own back, text = front ++ (own ++ back) ∧ Spans metric child own ∧
      child.label.offset = metric.lengthOf (passed ++ front) := by
  induction children generalizing index passed text with
  | nil => exact absurd hmem List.not_mem_nil
  | cons first rest ih =>
      rw [SpanAmong] at hspan
      obtain ⟨own, back, rfl, hfirst, hrest⟩ := hspan
      rw [← List.append_assoc] at hlt
      obtain ⟨hoffset, hplaced⟩ := h.behind hfirst (metric.bytesOf_left_lt hlt)
      rcases List.mem_cons.mp hmem with rfl | hmem
      · exact ⟨[], own, back, rfl, hfirst, by rwa [List.append_nil]⟩
      · -- a later child
        obtain ⟨front, own', back', rfl, hspans, hoffset'⟩ := ih hplaced hrest hlt hmem
        exact ⟨own ++ front, own', back', by rw [List.append_assoc], hspans, by
          rwa [← List.append_assoc]⟩

/-- A visible node of a tree of a parse is well formed, wherever `ts_node__child` finds it, and lies
in the text. -/
theorem Spans.wellFormed_childOf {next : ℕ} {tree : SyntaxTree} {text : List α}
    {includeAnonymous : Bool}
    {self node : TSNode} {index : ℕ} (h : Spans metric tree text) (hassigned : tree.All Assigned)
    (hsettled : tree.All (Settled next)) (hlt : metric.bytesOf text < 2 ^ 32)
    (hnode : tsNodeChildOf includeAnonymous self tree.tree index = some node) :
    WellFormed (visibleNode node node.tree) ∧ node.stop ≤ self.offsetChar + text.length := by
  induction tree using RoseTree.induct generalizing text self index with
  | node data children ih =>
      rw [SyntaxTree.tree, map, mapList_eq, tsNodeChildOf] at hnode
      obtain ⟨_, hmem, hnode⟩ := exists_of_tsNodeChildAmong hnode
      obtain ⟨child, hchild, rfl⟩ := List.mem_map.mp hmem
      obtain ⟨front, own, back, rfl, hspans, hoffset⟩ :=
        @AssignedAmong.exists_place _ metric _ _ _ _ [] _ hassigned.root
        (h.children (List.ne_nil_of_mem hchild)) hlt hchild
      have hltOwn := metric.bytesOf_left_lt (metric.bytesOf_right_lt hlt)
      have hoffsetChar := @offsetChar_directChild _ metric self child front hoffset
      have hinside : self.offsetChar + front.length + own.length ≤
          self.offsetChar + (front ++ (own ++ back)).length := by
        simp only [List.length_append]
        omega
      rcases hnode with rfl | ⟨index', hnode⟩
      · refine ⟨wellFormed_visibleNode_iff.mpr
          (hspans.arrangedBelow (hassigned.child hchild) (hsettled.child hchild) hltOwn _ rfl), ?_⟩
        rw [hspans.stop_eq rfl]
        exact Nat.le_trans (Nat.le_of_eq (congrArg (· + own.length) hoffsetChar)) hinside
      · obtain ⟨hwell, hstop⟩ := ih child hchild hspans (hassigned.child hchild)
          (hsettled.child hchild) hltOwn hnode
        exact ⟨hwell, Nat.le_trans hstop
          (Nat.le_trans (Nat.le_of_eq (congrArg (· + own.length) hoffsetChar)) hinside)⟩

/-- **The root node of a parse** is well formed and lies in the text. -/
theorem Spans.wellFormed_rootNode {next : ℕ} {tree : SyntaxTree} {text : List α} {node : TSNode}
    (h : Spans metric tree text) (hassigned : tree.All Assigned)
    (hsettled : tree.All (Settled next))
    (hlt : metric.bytesOf text < 2 ^ 32) (hnode : tsDocumentRootNode tree.tree = some node) :
    WellFormed (visibleNode node node.tree) ∧ node.stop ≤ text.length := by
  simp only [tsDocumentRootNode] at hnode
  split at hnode
  · obtain rfl := Option.some.inj hnode
    refine ⟨wellFormed_visibleNode_iff.mpr (h.arrangedBelow hassigned hsettled hlt _ rfl), ?_⟩
    rw [h.stop_eq rfl]
    exact Nat.le_of_eq (Nat.zero_add _)
  · obtain ⟨hwell, hstop⟩ := h.wellFormed_childOf hassigned hsettled hlt hnode
    exact ⟨hwell, Nat.le_trans hstop (Nat.le_of_eq (Nat.zero_add _))⟩

end TreeSitterTextStorage
