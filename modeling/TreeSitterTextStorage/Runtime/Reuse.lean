import TreeSitterTextStorage.Library.RoseCursor
import TreeSitterTextStorage.Library.Run
import TreeSitterTextStorage.Runtime.Consistency
import TreeSitterTextStorage.Runtime.Lookahead
import TreeSitterTextStorage.Runtime.SyntaxEdit

/-! # Reusing the nodes of an edited tree

`reusable_node.h`, and the loop of `parser__get_lookahead` that looks for a node of the edited tree
at the position of the parser. A parse walks through the edited tree as it moves through the new
text, and takes a node in place of lexing when one starts where it stands and is not marked. The
external tokens are left out: neither language has any. -/

namespace TreeSitterTextStorage

open RoseTree

/-! ## Positions of cursors -/

/-- The byte at which a node starts, by the offsets on its way back. -/
def startByteFrom : SyntaxTree → List (SyntaxTree × ℕ) → ℕ
  | _, [] => 0
  | tree, (above, _) :: up => startByteFrom above up + tree.label.offset.bytes

/-- The byte at which the padding of a cursor's node starts. -/
def cursorByte (cursor : Cursor NodeData) : ℕ := startByteFrom cursor.tree cursor.ancestors

/-- The byte of a child. -/
theorem cursorByte_of_child {c d : Cursor NodeData} {index : ℕ} (h : c.child index = some d) :
    cursorByte d = cursorByte c + d.tree.label.offset.bytes := by
  rw [cursorByte, (Cursor.child_eq_some_iff.mp h).2, startByteFrom, cursorByte]

/-- The byte of a node is that of its parent and its offset. -/
theorem cursorByte_of_parent {c d : Cursor NodeData} (h : c.parent = some d) :
    cursorByte c = cursorByte d + c.tree.label.offset.bytes :=
  cursorByte_of_child (Cursor.child_of_parent h)

/-- A cursor stands at a node of its tree. -/
theorem located_cursor (cursor : Cursor NodeData) :
    Located (SyntaxTree.tree cursor.root) (cursorByte cursor) (SyntaxTree.tree cursor.tree) := by
  obtain ⟨tree, ancestors, links⟩ := cursor
  simp only [Cursor.root, cursorByte]
  induction links with
  | top tree => exact .here _
  | @child tree above index up hchild _ ih =>
      rw [startByteFrom, ← SyntaxTree.label_tree]
      refine ih.child ?_
      rw [SyntaxTree.children_tree]
      exact List.mem_map_of_mem (List.mem_of_getElem? hchild)

/-! ## Bytes that add up -/

/-- Behind a child, the bytes of the rest of a list add up. -/
theorem BytesAddUpAmong.drop {start stop index : ℕ} {children : List Tree} {child : Tree}
    (h : BytesAddUpAmong start stop children) (hchild : children[index]? = some child) :
    BytesAddUp child ∧ BytesAddUpAmong (child.label.offset.bytes + tsTreeTotalBytes
      child.label) stop (children.drop (index + 1)) := by
  induction children generalizing start index with
  | nil => exact absurd hchild (by simp)
  | cons first rest ih =>
      rw [BytesAddUpAmong] at h
      obtain ⟨hoffset, hfirst, hrest⟩ := h
      cases index with
      | zero =>
          rw [List.getElem?_cons_zero, Option.some.injEq] at hchild
          subst hchild
          exact ⟨hfirst, hoffset ▸ hrest⟩
      | succ index => exact ih hrest hchild

/-- In a tree whose bytes add up, so do those of a child and of the children behind it. -/
theorem BytesAddUp.drop {tree child : Tree} {index : ℕ} (h : BytesAddUp tree)
    (hchild : tree.children[index]? = some child) :
    BytesAddUp child ∧ BytesAddUpAmong (child.label.offset.bytes + tsTreeTotalBytes child.label)
      (tsTreeTotalBytes tree.label) (tree.children.drop (index + 1)) := by
  obtain ⟨self, children⟩ := tree
  rw [BytesAddUp] at h
  have htotal : tsTreeTotalBytes self = self.padding.bytes + self.size.bytes := wrapAdd_of_lt h.1
  rw [label_node, htotal]
  exact (h.2 (List.ne_nil_of_mem (List.mem_of_getElem? hchild))).drop hchild

/-- A child has the data of its parent's child. -/
theorem getElem?_children_tree {tree child : SyntaxTree} {index : ℕ}
    (h : tree.children[index]? = some child) : tree.tree.children[index]? = some child.tree := by
  rw [SyntaxTree.children_tree, List.getElem?_map, h, Option.map_some]

/-- The bytes of every node of a tree add up when those of the tree do. -/
theorem BytesAddUp.cursor {cursor : Cursor NodeData}
    (h : BytesAddUp (SyntaxTree.tree cursor.root)) : BytesAddUp (SyntaxTree.tree cursor.tree) := by
  obtain ⟨tree, ancestors, links⟩ := cursor
  simp only [Cursor.root] at h
  show BytesAddUp (SyntaxTree.tree tree)
  induction links with
  | top tree => exact h
  | child hchild _ ih => exact ((ih h).drop (getElem?_children_tree hchild)).1

/-- **Behind a subtree**: the node that follows it starts where it ends. -/
theorem cursorByte_of_behind {c d : Cursor NodeData} (hadd : BytesAddUp (SyntaxTree.tree c.root))
    (h : c.behind = some d) :
    cursorByte d = cursorByte c + tsTreeTotalBytes c.tree.label.toTreeData := by
  revert hadd
  refine Cursor.behind_induction (motive := fun c d => BytesAddUp (SyntaxTree.tree c.root) →
    cursorByte d = cursorByte c + tsTreeTotalBytes c.tree.label.toTreeData) ?_ ?_ h
  · -- the next sibling
    intro c above next hparent hnext hadd
    rw [← Cursor.root_of_parent hparent] at hadd
    obtain ⟨hsibling, -⟩ := Cursor.child_eq_some_iff.mp hnext
    have hchild := (Cursor.child_eq_some_iff.mp (Cursor.child_of_parent hparent)).1
    have hrest := (hadd.cursor.drop (getElem?_children_tree hchild)).2
    obtain ⟨hlt, hget⟩ := List.getElem?_eq_some_iff.mp (getElem?_children_tree hsibling)
    rw [List.drop_eq_getElem_cons hlt, hget, BytesAddUpAmong, SyntaxTree.label_tree,
      SyntaxTree.label_tree] at hrest
    rw [cursorByte_of_child hnext, hrest.1, cursorByte_of_parent hparent, Nat.add_assoc]
  · -- the last child ends where its parent does
    intro c above next hparent hnone _ ih hadd
    rw [← Cursor.root_of_parent hparent] at hadd
    have hchild := (Cursor.child_eq_some_iff.mp (Cursor.child_of_parent hparent)).1
    have hrest := (hadd.cursor.drop (getElem?_children_tree hchild)).2
    have hlength : (SyntaxTree.tree above.tree).children.length ≤ c.index + 1 := by
      rw [SyntaxTree.children_tree, List.length_map]
      exact List.getElem?_eq_none_iff.mp hnone
    rw [List.drop_of_length_le hlength, BytesAddUpAmong, SyntaxTree.label_tree,
      SyntaxTree.label_tree] at hrest
    rw [ih hadd, ← hrest, cursorByte_of_parent hparent, Nat.add_assoc]

/-- A node of a tree whose bytes add up ends inside the tree. -/
theorem cursorByte_add_total_le {cursor : Cursor NodeData}
    (h : BytesAddUp (SyntaxTree.tree cursor.root)) :
    cursorByte cursor + tsTreeTotalBytes cursor.tree.label.toTreeData ≤
        tsTreeTotalBytes cursor.root.label.toTreeData ∧
      tsTreeTotalBytes cursor.root.label.toTreeData < 2 ^ 32 := by
  have hlt : tsTreeTotalBytes cursor.root.label.toTreeData < 2 ^ 32 := Nat.mod_lt _ (by decide)
  have hend := h.fits.located_end (by simpa using hlt) (located_cursor cursor)
  exact ⟨by simpa using hend, hlt⟩

/-! ## The reusable node -/

/-- `ReusableNode`: where the parse stands in the edited tree. -/
structure ReusableNode where
  /-- `tree`, with its way back; `none` behind the last node. -/
  cursor : Option (Cursor NodeData)
  /-- `byte_index`. -/
  byteIndex : ℕ

/-- `reusable_node_new`. -/
def reusableNodeNew (tree : Option SyntaxTree) : ReusableNode := ⟨tree.map Cursor.top, 0⟩

/-- The walk behind the node at which it stands. -/
def ReusableNode.passed (self : ReusableNode) (cursor : Cursor NodeData) : ReusableNode where
  cursor := cursor.behind
  byteIndex := wrapAdd self.byteIndex (tsTreeTotalBytes cursor.tree.label.toTreeData)

/-- `reusable_node_pop`: go behind the node. Behind the last node it follows a null pointer, which
is `none`. -/
def reusableNodePop (self : ReusableNode) : Option ReusableNode := self.cursor.map self.passed

/-- `reusable_node_pop_leaf`: go behind the first leaf of the node. -/
def reusableNodePopLeaf (self : ReusableNode) : Option ReusableNode :=
  reusableNodePop { self with cursor := self.cursor.map Cursor.firstLeaf }

/-- `reusable_node_breakdown`: go to the first child; `none` is `false`. -/
def reusableNodeBreakdown (self : ReusableNode) : Option ReusableNode := do
  let cursor ← self.cursor
  let child ← cursor.child 0
  some { self with cursor := some child }

/-- How many nodes the walk still has before it. -/
def ReusableNode.remaining (self : ReusableNode) : ℕ := self.cursor.elim 0 Cursor.remaining

theorem reusableNodePop_eq_some_iff {self next : ReusableNode} :
    reusableNodePop self = some next ↔ ∃ cursor, self.cursor = some cursor ∧
      next = self.passed cursor := by
  rw [reusableNodePop, Option.map_eq_some_iff]
  exact exists_congr fun cursor => and_congr_right fun _ => eq_comm

theorem reusableNodeBreakdown_eq_some_iff {self next : ReusableNode} :
    reusableNodeBreakdown self = some next ↔ ∃ cursor child, self.cursor = some cursor ∧
      cursor.child 0 = some child ∧ next = { self with cursor := some child } := by
  simp only [reusableNodeBreakdown, Option.bind_eq_bind, Option.bind_eq_some_iff, Option.some.injEq]
  constructor
  · rintro ⟨cursor, hcursor, child, hchild, rfl⟩
    exact ⟨cursor, child, hcursor, hchild, rfl⟩
  · rintro ⟨cursor, child, hcursor, hchild, rfl⟩
    exact ⟨cursor, hcursor, child, hchild, rfl⟩

/-- Going behind a node leaves fewer nodes. -/
theorem ReusableNode.remaining_passed {self : ReusableNode} {cursor : Cursor NodeData}
    (h : self.cursor = some cursor) : (self.passed cursor).remaining < self.remaining := by
  have hsize := cursor.tree.size_pos
  have hremaining : cursor.tree.size ≤ cursor.remaining := Nat.le_add_right _ _
  rw [ReusableNode.passed, ReusableNode.remaining, ReusableNode.remaining, h, Option.elim_some]
  cases hbehind : cursor.behind with
  | none =>
      rw [Option.elim_none]
      omega
  | some next =>
      have := Cursor.remaining_of_behind hbehind
      rw [Option.elim_some]
      omega

/-- Going to the first child leaves fewer nodes. -/
theorem ReusableNode.remaining_breakdown {self next : ReusableNode}
    (h : reusableNodeBreakdown self = some next) : next.remaining < self.remaining := by
  obtain ⟨cursor, child, hcursor, hchild, rfl⟩ := reusableNodeBreakdown_eq_some_iff.mp h
  rw [ReusableNode.remaining, ReusableNode.remaining, hcursor]
  exact Cursor.remaining_of_child_zero hchild

/-- What a turn of the loop of `parser__get_lookahead` comes to. -/
inductive LookaheadTurn where
  /-- There is no node at the position. -/
  | lex
  /-- The walk goes on. -/
  | next (self : ReusableNode)
  /-- The walk goes on behind a leaf that has changed, and the stack is broken down. -/
  | broken (self : ReusableNode)
  /-- A node can be reused. -/
  | reuse (cursor : Cursor NodeData)

/-- One turn of the loop of `parser__get_lookahead` over the reusable node, at a position
of the parser. -/
def lookaheadTurn (position : ℕ) (self : ReusableNode) : LookaheadTurn :=
  match self.cursor with
  | none => .lex
  | some cursor =>
      -- the node starts further on
      if self.byteIndex > position then .lex
      else if self.byteIndex < position then .next (self.passed cursor)
      else if cursor.tree.label.hasChanges ∨ cursor.tree.label.symbol = tsBuiltinSymError then
        -- parts of a changed node may still be reused
        match reusableNodeBreakdown self with
        | some next => .next next
        | none => .broken (self.passed cursor)
      else .reuse cursor

/-- Every turn that goes on leaves fewer nodes. -/
theorem ReusableNode.remaining_turn {position : ℕ} {self next : ReusableNode}
    (h : lookaheadTurn position self = .next next ∨ lookaheadTurn position self = .broken next) :
    next.remaining < self.remaining := by
  rw [lookaheadTurn] at h
  cases hcursor : self.cursor with
  | none => simp [hcursor] at h
  | some cursor =>
      simp only [hcursor] at h
      split at h
      · simp at h
      · split at h
        · simp only [LookaheadTurn.next.injEq, reduceCtorEq, or_false] at h
          exact h ▸ ReusableNode.remaining_passed hcursor
        · split at h
          · split at h
            · next broken hbreak =>
                simp only [LookaheadTurn.next.injEq, reduceCtorEq, or_false] at h
                exact h ▸ ReusableNode.remaining_breakdown hbreak
            · simp only [LookaheadTurn.broken.injEq, reduceCtorEq, false_or] at h
              exact h ▸ ReusableNode.remaining_passed hcursor
          · simp at h

/-- The loop of `parser__get_lookahead` over the reusable node at a position of the parser: the node
that is reused, if any, and where the walk stands then. -/
def reusableLookahead (position : ℕ) (self : ReusableNode) :
    Option (Cursor NodeData) × ReusableNode :=
  match _hturn : lookaheadTurn position self with
  | .lex => (none, self)
  | .next next => reusableLookahead position next
  | .broken next => reusableLookahead position next
  | .reuse cursor => (some cursor, self)
termination_by self.remaining
decreasing_by
  · exact ReusableNode.remaining_turn (Or.inl _hturn)
  · exact ReusableNode.remaining_turn (Or.inr _hturn)

/-! ## The walk knows where it stands -/

/-- The walk stands in a tree at the byte that `byte_index` says. -/
def ReusableNode.Placed (root : SyntaxTree) (self : ReusableNode) : Prop :=
  ∀ cursor, self.cursor = some cursor → cursor.root = root ∧ self.byteIndex = cursorByte cursor

theorem placed_reusableNodeNew (tree : SyntaxTree) : (reusableNodeNew (some tree)).Placed tree := by
  intro cursor hcursor
  rw [reusableNodeNew, Option.map_some, Option.some.injEq] at hcursor
  subst hcursor
  exact ⟨rfl, rfl⟩

/-- The first child of a node whose bytes add up starts where the node does. -/
theorem BytesAddUp.offset_zero {tree child : Tree} (h : BytesAddUp tree)
    (hchild : tree.children[0]? = some child) : child.label.offset.bytes = 0 := by
  obtain ⟨self, children⟩ := tree
  cases children with
  | nil => exact absurd hchild (by simp)
  | cons first rest =>
      rw [children_node, List.getElem?_cons_zero, Option.some.injEq] at hchild
      rw [BytesAddUp] at h
      have hfirst := h.2 (List.cons_ne_nil first rest)
      rw [BytesAddUpAmong] at hfirst
      exact hchild ▸ hfirst.1

/-- The first child of a cursor's node starts where the node does. -/
theorem cursorByte_of_child_zero {c d : Cursor NodeData}
    (hadd : BytesAddUp (SyntaxTree.tree c.root)) (h : c.child 0 = some d) :
    cursorByte d = cursorByte c := by
  have hoffset := hadd.cursor.offset_zero (getElem?_children_tree (Cursor.child_eq_some_iff.mp h).1)
  rw [SyntaxTree.label_tree] at hoffset
  rw [cursorByte_of_child h, hoffset, Nat.add_zero]

section Placed

variable {root : SyntaxTree} {self next : ReusableNode} (hadd : BytesAddUp root.tree)
include hadd

/-- Behind a node the walk knows where it stands. -/
theorem ReusableNode.Placed.passed {cursor : Cursor NodeData} (h : self.Placed root)
    (hcursor : self.cursor = some cursor) : (self.passed cursor).Placed root := by
  intro next hnext
  obtain ⟨rfl, hbyte⟩ := h cursor hcursor
  obtain ⟨hle, hlt⟩ := cursorByte_add_total_le hadd
  refine ⟨Cursor.root_of_behind hnext, ?_⟩
  rw [ReusableNode.passed, cursorByte_of_behind hadd hnext, hbyte]
  exact wrapAdd_of_lt (by omega)

theorem ReusableNode.Placed.pop (h : self.Placed root) (hnext : reusableNodePop self = some next) :
    next.Placed root := by
  obtain ⟨cursor, hcursor, rfl⟩ := reusableNodePop_eq_some_iff.mp hnext
  exact h.passed hadd hcursor

theorem ReusableNode.Placed.breakdown (h : self.Placed root)
    (hnext : reusableNodeBreakdown self = some next) : next.Placed root := by
  obtain ⟨cursor, child, hcursor, hchild, rfl⟩ := reusableNodeBreakdown_eq_some_iff.mp hnext
  obtain ⟨rfl, hbyte⟩ := h cursor hcursor
  intro cursor' hcursor'
  rw [Option.some.injEq] at hcursor'
  subst hcursor'
  exact ⟨Cursor.root_of_child hchild, hbyte.trans (cursorByte_of_child_zero hadd hchild).symm⟩

theorem ReusableNode.Placed.popLeaf (h : self.Placed root)
    (hnext : reusableNodePopLeaf self = some next) : next.Placed root := by
  refine ReusableNode.Placed.pop hadd (fun leaf hleaf => ?_) hnext
  obtain ⟨cursor, hcursor, rfl⟩ := Option.map_eq_some_iff.mp hleaf
  refine Cursor.firstLeaf_induction
    (motive := fun leaf => leaf.root = root ∧ self.byteIndex = cursorByte leaf) ?_
    (h cursor hcursor)
  rintro c d hchild ⟨rfl, hbyte⟩
  exact ⟨Cursor.root_of_child hchild, hbyte.trans (cursorByte_of_child_zero hadd hchild).symm⟩

/-- A turn of the loop of `parser__get_lookahead` keeps the place of the walk, and the node that it
finds is an unmarked node of the tree at the position that was asked for. -/
theorem ReusableNode.Placed.turn {position : ℕ} (h : self.Placed root) :
    (∀ next, lookaheadTurn position self = .next next ∨ lookaheadTurn position self = .broken next →
      next.Placed root) ∧
      ∀ cursor, lookaheadTurn position self = .reuse cursor →
        self.cursor = some cursor ∧ cursor.root = root ∧ cursorByte cursor = position ∧
          cursor.tree.label.hasChanges = false ∧ cursor.tree.label.symbol ≠ tsBuiltinSymError := by
  rw [lookaheadTurn]
  cases hcursor : self.cursor with
  | none => simp
  | some cursor =>
      obtain ⟨hroot, hbyte⟩ := h cursor hcursor
      simp only
      split
      · simp
      · split
        · simp only [LookaheadTurn.next.injEq, reduceCtorEq, or_false, false_implies,
            implies_true, and_true]
          rintro next rfl
          exact h.passed hadd hcursor
        · split
          · split
            · next broken hbreak =>
                simp only [LookaheadTurn.next.injEq, reduceCtorEq, or_false, false_implies,
                  implies_true, and_true]
                rintro next rfl
                exact h.breakdown hadd hbreak
            · simp only [LookaheadTurn.broken.injEq, reduceCtorEq, false_or, false_implies,
                implies_true, and_true]
              rintro next rfl
              exact h.passed hadd hcursor
          · next hkept =>
              simp only [reduceCtorEq, or_false, false_implies, implies_true,
                LookaheadTurn.reuse.injEq, true_and]
              rintro cursor' rfl
              rw [not_or, Bool.not_eq_true] at hkept
              exact ⟨rfl, hroot, by omega, hkept⟩

/-- The loop of `parser__get_lookahead` keeps the place of the walk, and what it returns is an
unmarked node of the tree at the position that was asked for. -/
theorem ReusableNode.Placed.getLookahead {position : ℕ} (h : self.Placed root) :
    (reusableLookahead position self).2.Placed root ∧
      ∀ cursor, (reusableLookahead position self).1 = some cursor →
        cursor.root = root ∧ cursorByte cursor = position ∧ cursor.tree.label.hasChanges = false ∧
          cursor.tree.label.symbol ≠ tsBuiltinSymError := by
  fun_induction reusableLookahead position self with
  | case1 self hturn => exact ⟨h, fun cursor hcursor => absurd hcursor (by simp)⟩
  | case2 self next hturn ih => exact ih ((h.turn hadd).1 next (Or.inl hturn))
  | case3 self next hturn ih => exact ih ((h.turn hadd).1 next (Or.inr hturn))
  | case4 self cursor hturn =>
      refine ⟨h, fun cursor' hcursor' => ?_⟩
      rw [Option.some.injEq] at hcursor'
      subst hcursor'
      exact ((h.turn hadd).2 cursor hturn).2

end Placed

end TreeSitterTextStorage
