import TreeSitterTextStorage.Runtime.Building
import TreeSitterTextStorage.Runtime.Edit

/-! # Editing the tree of a parse

An edit of a tree changes nothing of a node but its lengths, its offset and its mark. A node that
stays unmarked is the old node, but for its offset. -/

namespace TreeSitterTextStorage

open RoseTree

/-- The nodes of a parse with the data of a tree of the same shape. -/
def overlay (tree : SyntaxTree) (data : Tree) : SyntaxTree :=
  zipWith (fun node data => { node with toTreeData := data }) tree data

/-- `ts_document_edit` on a tree with everything that a parse stores in it. -/
def SyntaxTree.edited (edit : TSInputEdit) (self : SyntaxTree) : SyntaxTree :=
  overlay self (tsDocumentEdit edit self.tree)

/-! ## What an edit touches -/

/-- What becomes of a child when its parent is edited or loses its lookahead: all a parent does to a
child, but for the child's offset. -/
inductive ChildTouched (child : Tree) : Tree → Prop
  /-- The child is left alone. -/
  | kept : ChildTouched child child
  /-- The child is edited. -/
  | edited (edit : TSInputEdit) : ChildTouched child (tsTreeEdit edit child)
  /-- The child loses its lookahead. -/
  | invalidated (editByteOffset : ℕ) : ChildTouched child
    (tsTreeInvalidateLookahead editByteOffset child)
  /-- The child moves. -/
  | moved {child' : Tree} (offset : Length) (h : ChildTouched child child') :
      ChildTouched child (setOffset offset child')

/-- `ts_tree_edit` treats the children one by one. -/
theorem forall_tsTreeEditAmong (edit : TSInputEdit) (loop : EditLoop) (children : List Tree) :
    List.Forall₂ ChildTouched children (tsTreeEditAmong edit loop children) := by
  induction children generalizing loop with
  | nil =>
      rw [tsTreeEditAmong]
      exact .nil
  | cons child rest ih =>
      rw [tsTreeEditAmong]
      simp only
      split
      · exact .cons (.moved _ (.edited _)) (ih _)
      · split
        · exact .cons (.moved _ (.edited _)) (ih _)
        · exact .cons (.moved _ (.invalidated _)) (ih _)

/-- `ts_tree_invalidate_lookahead` treats the children one by one. -/
theorem forall_invalidateLookaheadAmong (editByteOffset start : ℕ) (children : List Tree) :
    List.Forall₂ ChildTouched children (invalidateLookaheadAmong editByteOffset start
      children) := by
  induction children generalizing start with
  | nil =>
      rw [invalidateLookaheadAmong]
      exact .nil
  | cons child rest ih =>
      rw [invalidateLookaheadAmong]
      split
      · exact .cons .kept (List.forall₂_same.mpr fun _ _ => .kept)
      · exact .cons (.invalidated _) (ih _)

/-- A node that is touched is kept, up to its offset, or it is marked and its children
are touched. -/
theorem ChildTouched.cases {tree tree' : Tree} (h : ChildTouched tree tree') :
    tree' = setOffset tree'.label.offset tree ∨
      (tree'.label.hasChanges = true ∧ List.Forall₂ ChildTouched tree.children tree'.children) := by
  induction h with
  | kept => exact Or.inl (by obtain ⟨self, children⟩ := tree; rfl)
  | edited edit =>
      obtain ⟨self, children⟩ := tree
      refine Or.inr ⟨?_, ?_⟩
      · rw [tsTreeEdit, label_node, editOwnLengths]
        simp only
        split
        · split <;> rfl
        · split <;> rfl
      · rw [tsTreeEdit, children_node, children_node]
        exact forall_tsTreeEditAmong _ _ _
  | invalidated editByteOffset =>
      obtain ⟨self, children⟩ := tree
      rw [tsTreeInvalidateLookahead]
      split
      · exact Or.inl rfl
      · refine Or.inr ⟨rfl, ?_⟩
        rw [children_node, children_node]
        exact forall_invalidateLookaheadAmong _ _ _
  | @moved child' offset _ ih =>
      obtain ⟨self', children'⟩ := child'
      rcases ih with hkept | hmarked
      · obtain ⟨self, children⟩ := tree
        simp only [setOffset, node.injEq, label_node] at hkept ⊢
        refine Or.inl ⟨?_, hkept.2⟩
        rw [hkept.1]
      · exact Or.inr hmarked

/-- `ts_document_edit` touches the tree of the document. -/
theorem touched_tsDocumentEdit (edit : TSInputEdit) (tree : Tree) :
    ChildTouched tree (tsDocumentEdit edit tree) := by
  rw [tsDocumentEdit]
  split
  · exact .kept
  · split
    · exact .edited _
    · exact .edited _

/-- The children of a node that is touched are touched. -/
theorem ChildTouched.children {tree tree' : Tree} (h : ChildTouched tree tree') :
    List.Forall₂ ChildTouched tree.children tree'.children := by
  rcases h.cases with hkept | ⟨-, hchildren⟩
  · rw [hkept, children_setOffset]
    exact List.forall₂_same.mpr fun _ _ => .kept
  · exact hchildren

/-! ## Nodes with the data of an edited tree -/

@[simp] theorem label_overlay (tree : SyntaxTree) (data : Tree) :
    (overlay tree data).label = { tree.label with toTreeData := data.label } := label_zipWith _ _ _

@[simp] theorem children_overlay (tree : SyntaxTree) (data : Tree) :
    (overlay tree data).children = List.zipWith overlay tree.children data.children :=
  children_zipWith _ _ _

/-- A tree has its own data. -/
theorem overlay_self (tree : SyntaxTree) : overlay tree tree.tree = tree := by
  induction tree using RoseTree.induct with
  | node self children ih =>
      refine RoseTree.ext ?_ ?_
      · rw [label_overlay, SyntaxTree.label_tree]
      · rw [children_overlay, SyntaxTree.children_tree, children_node, List.zipWith_map_right]
        rw [List.zipWith_self, List.map_congr_left ih, List.map_id']

/-- The data are those of the touched tree. -/
theorem tree_overlay {tree : SyntaxTree} {data : Tree} (h : ChildTouched tree.tree data) :
    (overlay tree data).tree = data := by
  induction tree using RoseTree.induct generalizing data with
  | node self children ih =>
      have hchildren := h.children
      rw [SyntaxTree.children_tree, children_node, List.forall₂_map_left_iff] at hchildren
      refine RoseTree.ext ?_ ?_
      · rw [SyntaxTree.label_tree, label_overlay]
      · rw [SyntaxTree.children_tree, children_overlay, children_node]
        clear h
        generalize data.children = datas at hchildren
        induction hchildren with
        | nil => rfl
        | @cons child data _ _ hchild _ ihRest =>
            rw [List.zipWith_cons_cons, List.map_cons, ih child List.mem_cons_self hchild,
              ihRest fun c hc => ih c (List.mem_cons_of_mem child hc)]

/-- **Unmarked nodes are old nodes**, but for their offsets. -/
theorem overlay_unmarked {tree node' : SyntaxTree} {data : Tree} (h : ChildTouched tree.tree data)
    (hnode : HasNode (overlay tree data) node') (hunmarked : node'.label.hasChanges = false) :
    ∃ node, HasNode tree node ∧ node'.children = node.children ∧
      node'.label = { node.label with offset := node'.label.offset } := by
  induction tree using RoseTree.induct generalizing data with
  | node self children ih =>
      rcases hnode with rfl | hbelow
      · rcases h.cases with hkept | ⟨hmarked, -⟩
        · refine ⟨.node self children, Or.inl rfl, ?_, ?_⟩
          · rw [children_overlay, hkept, children_setOffset, ← children_overlay, overlay_self]
          · rw [label_overlay, hkept, label_setOffset, SyntaxTree.label_tree]
        · rw [label_overlay] at hunmarked
          exact absurd (hunmarked.symm.trans hmarked) Bool.false_ne_true
      · obtain ⟨child', hchild', hnode⟩ := below_iff.mp hbelow
        have hchildren := h.children
        rw [SyntaxTree.children_tree, children_node, List.forall₂_map_left_iff] at hchildren
        rw [children_overlay, children_node] at hchild'
        -- the child comes from a child at the same place
        obtain ⟨child, hchild, data', htouched, rfl⟩ : ∃ child ∈ children, ∃ data',
            ChildTouched (SyntaxTree.tree child) data' ∧ child' = overlay child data' := by
          clear ih hnode hbelow h
          generalize data.children = datas at hchildren hchild'
          induction hchildren with
          | nil => exact absurd hchild' List.not_mem_nil
          | @cons child data _ _ hchild _ ihRest =>
              rw [List.zipWith_cons_cons] at hchild'
              rcases List.mem_cons.mp hchild' with rfl | hmem
              · exact ⟨child, List.mem_cons_self, data, hchild, rfl⟩
              · obtain ⟨c, hc, hrest⟩ := ihRest hmem
                exact ⟨c, List.mem_cons_of_mem child hc, hrest⟩
        obtain ⟨node, hold, hsame⟩ := ih child hchild htouched hnode
        exact ⟨node, Or.inr (below_iff.mpr ⟨child, hchild, hold⟩), hsame⟩

end TreeSitterTextStorage
