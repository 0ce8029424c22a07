import TreeSitterTextStorage.Library.Run
import TreeSitterTextStorage.Runtime.Linking
import TreeSitterTextStorage.Runtime.Reuse

/-! # What is reused of a parsed tree

A tree as a parse leaves it spans a text, its nodes know their places, and `bytes_scanned` of a node
says how far the lexer has looked for it and for the nodes below. Behind one edit of such a tree,
whatever a parse does to its reusable node, all that it takes reads as before. -/

namespace TreeSitterTextStorage

open RoseTree

/-! ## What has been scanned -/

/-- For none of the children behind an offset the lexer has looked further than up to a byte. -/
def ScannedAmong (scanned : ℕ) : Length → List SyntaxTree → Prop
  | _, [] => True
  | offset, child :: rest =>
      offset.bytes + child.label.bytesScanned ≤ scanned ∧
        ScannedAmong scanned (lengthAdd offset child.totalSize) rest

/-- `bytes_scanned` of a node covers its own bytes, and what the lexer has looked at for its
children. So it is in the leaves of `parser__lex` and the nodes of `ts_tree_make_node`; a node that
`parser__switch_children` gives other children keeps the `bytes_scanned` of the first ones. -/
structure Scanned (tree : SyntaxTree) : Prop where
  /-- The bytes of the node. -/
  total_le : tsTreeTotalBytes tree.label.toTreeData ≤ tree.label.bytesScanned
  /-- The children of the node. -/
  children : ScannedAmong tree.label.bytesScanned Length.zero tree.children

instance decidableScannedAmong (scanned : ℕ) :
    (offset : Length) → (children : List SyntaxTree) →
    Decidable (ScannedAmong scanned offset children)
  | _, [] => inferInstanceAs (Decidable True)
  | offset, child :: rest =>
      have : Decidable (ScannedAmong scanned (lengthAdd offset child.totalSize) rest) :=
        decidableScannedAmong scanned _ rest
      inferInstanceAs (Decidable (_ ∧ _))

instance (tree : SyntaxTree) : Decidable (Scanned tree) :=
  decidable_of_iff (tsTreeTotalBytes tree.label.toTreeData ≤ tree.label.bytesScanned ∧
    ScannedAmong tree.label.bytesScanned Length.zero tree.children)
    ⟨fun h => ⟨h.1, h.2⟩, fun h => ⟨h.total_le, h.children⟩⟩

/-- A child that knows its place. -/
theorem ScannedAmong.le_of_mem {scanned parent index : ℕ} {offset : Length}
    {children : List SyntaxTree} {child : SyntaxTree} (h : ScannedAmong scanned offset children)
    (hassigned : AssignedAmong parent index offset children) (hmem : child ∈ children) :
    child.label.offset.bytes + child.label.bytesScanned ≤ scanned := by
  induction children generalizing index offset with
  | nil => exact absurd hmem List.not_mem_nil
  | cons first rest ih =>
      obtain ⟨⟨-, -, hoffset⟩, hrest⟩ := hassigned
      rcases List.mem_cons.mp hmem with rfl | hmem
      · rw [hoffset]
        exact h.1
      · exact ih h.2 hrest hmem

/-- **The lexer has looked ahead** for a tree whose nodes know how far it has looked, and
where they are. -/
theorem ScansAhead.of_scanned {tree : SyntaxTree} (hscanned : tree.All Scanned)
    (hassigned : tree.All Assigned) : ScansAhead tree.tree := by
  induction tree using RoseTree.induct with
  | node self children ih =>
      rw [SyntaxTree.tree, map, mapList_eq]
      refine .node _ _ hscanned.root.total_le (fun child' hchild' => ?_) fun child' hchild' => ?_
      all_goals obtain ⟨child, hchild, rfl⟩ := List.mem_map.mp hchild'
      · rw [label_map]
        exact hscanned.root.children.le_of_mem hassigned.root hchild
      · exact ih child hchild (hscanned.child hchild) (hassigned.child hchild)

section SetChildren

variable {α : Type} {metric : Metric α}

/-- What covers some children behind a piece of a text covers the first one there, and the others
behind its own text. -/
theorem scannedAmong_cons_iff {scanned : ℕ} {passed own : List α} {child : SyntaxTree}
    {rest : List SyntaxTree} (hchild : Spans metric child own)
    (hlt : metric.bytesOf (passed ++ own) < 2 ^ 32) :
    ScannedAmong scanned (metric.lengthOf passed) (child :: rest) ↔
      metric.bytesOf passed + child.label.bytesScanned ≤ scanned ∧
        ScannedAmong scanned (metric.lengthOf (passed ++ own)) rest := by
  rw [ScannedAmong, hchild.totalSize_eq (metric.bytesOf_right_lt hlt),
    metric.lengthAdd_lengthOf hlt]
  exact Iff.rfl

/-- The loop of `ts_tree_set_children` behind the first child covers what it takes. -/
theorem scanned_foldl_takeChild {children : List SyntaxTree} {self : NodeData}
    {front content text : List α} (hpadding : self.padding = metric.lengthOf front)
    (hsize : self.size = metric.lengthOf content) (hspan : SpanAmong metric children text)
    (hscanned : ScannedAmong (2 ^ 32 - 1) (metric.lengthOf (front ++ content)) children)
    (hlt : metric.bytesOf (front ++ content ++ text) < 2 ^ 32) :
    self.bytesScanned ≤ (children.foldl (takeChild false) self).bytesScanned ∧
      ScannedAmong (children.foldl (takeChild false) self).bytesScanned
        (metric.lengthOf (front ++ content)) children := by
  induction children generalizing self content text with
  | nil => exact ⟨Nat.le_refl _, trivial⟩
  | cons child rest ih =>
      rw [SpanAmong] at hspan
      obtain ⟨own, back, rfl, hchild, hrest⟩ := hspan
      rw [← List.append_assoc] at hlt
      have hltChild := metric.bytesOf_left_lt hlt
      rw [scannedAmong_cons_iff hchild hltChild] at hscanned ⊢
      rw [List.append_assoc front content own] at hscanned hlt ⊢
      obtain ⟨hfirst, hscanned⟩ := hscanned
      have hpad : (takeChild false self child).padding = metric.lengthOf front := by
        rw [toTreeData_takeChild]
        exact hpadding
      have hsiz : (takeChild false self child).size = metric.lengthOf (content ++ own) := by
        rw [toTreeData_takeChild]
        show lengthAdd self.size child.totalSize = _
        rw [List.append_assoc] at hltChild
        rw [hsize, hchild.totalSize_eq (metric.bytesOf_right_lt (metric.bytesOf_right_lt hltChild)),
          metric.lengthAdd_lengthOf (metric.bytesOf_right_lt hltChild)]
      -- the child is scanned from the end of the node on
      have hsum : wrapAdd (tsTreeTotalBytes self.toTreeData) child.label.bytesScanned =
          metric.bytesOf (front ++ content) + child.label.bytesScanned := by
        have htotal : tsTreeTotalBytes self.toTreeData = metric.bytesOf (front ++ content) := by
          show wrapAdd self.padding.bytes self.size.bytes = _
          rw [hpadding, hsize]
          exact metric.wrapAdd_bytesOf (metric.bytesOf_left_lt hltChild)
        rw [htotal]
        exact wrapAdd_of_lt (by omega)
      have hstep : self.bytesScanned ≤ (takeChild false self child).bytesScanned ∧
          metric.bytesOf (front ++ content) + child.label.bytesScanned ≤
            (takeChild false self child).bytesScanned := by
        rw [toTreeData_takeChild, measureChild, if_neg Bool.false_ne_true]
        simp only [hsum]
        split <;> omega
      obtain ⟨hle, hbehind⟩ := ih hpad hsiz hrest hscanned hlt
      rw [List.foldl_cons]
      exact ⟨Nat.le_trans hstep.1 hle, Nat.le_trans hstep.2 hle, hbehind⟩

/-- **`ts_tree_set_children`** covers what has been scanned for the children. -/
theorem scannedAmong_setChildren {self : NodeData} {children : List SyntaxTree} {text : List α}
    (hspan : SpanAmong metric children text)
    (hscanned : ScannedAmong (2 ^ 32 - 1) Length.zero children)
    (hlt : metric.bytesOf text < 2 ^ 32) :
    ScannedAmong (tsTreeSetChildren self children).label.bytesScanned Length.zero children := by
  rw [toTreeData_setChildren]
  cases children with
  | nil => trivial
  | cons child rest =>
      rw [SpanAmong] at hspan
      obtain ⟨own, back, rfl, hchild, hrest⟩ := hspan
      have hltOwn : metric.bytesOf ([] ++ own) < 2 ^ 32 := metric.bytesOf_left_lt hlt
      rw [← metric.lengthOf_nil, scannedAmong_cons_iff hchild hltOwn, List.nil_append] at hscanned ⊢
      obtain ⟨childSelf, grandchildren⟩ := child
      rw [Spans] at hchild
      obtain ⟨⟨front, content, rfl, hpadding, hsize⟩, -⟩ := hchild
      -- the node starts with what its first child has
      set started := takeChild true
        { self with namedChildCount := 0, visibleChildCount := 0, errorCost := 0 }
        (.node childSelf grandchildren) with hstarted
      have hstart : started.padding = childSelf.padding ∧ started.size = childSelf.size ∧
          started.bytesScanned = childSelf.bytesScanned := by
        rw [hstarted, toTreeData_takeChild]
        exact ⟨rfl, rfl, rfl⟩
      obtain ⟨hle, hbehind⟩ := scanned_foldl_takeChild (hstart.1.trans hpadding)
        (hstart.2.1.trans hsize) hrest hscanned.2 hlt
      refine ⟨?_, hbehind⟩
      show 0 + childSelf.bytesScanned ≤ _
      rw [Nat.zero_add, ← hstart.2.2]
      exact hle

/-- What covers the children of a node covers the node. -/
theorem ScannedAmong.bytesOf_le {scanned : ℕ} {passed text : List α} {children : List SyntaxTree}
    (h : ScannedAmong scanned (metric.lengthOf passed) children)
    (hspan : SpanAmong metric children text)
    (hchildren : ∀ child ∈ children, tsTreeTotalBytes child.label.toTreeData ≤
      child.label.bytesScanned)
    (hne : children ≠ []) (hlt : metric.bytesOf (passed ++ text) < 2 ^ 32) :
    metric.bytesOf (passed ++ text) ≤ scanned := by
  induction children generalizing passed text with
  | nil => exact absurd rfl hne
  | cons child rest ih =>
      rw [SpanAmong] at hspan
      obtain ⟨own, back, rfl, hchild, hrest⟩ := hspan
      rw [← List.append_assoc] at hlt ⊢
      have hltOwn := metric.bytesOf_left_lt hlt
      obtain ⟨hfirst, h⟩ := (scannedAmong_cons_iff hchild hltOwn).mp h
      by_cases hlast : rest = []
      · -- the last child ends where the node does
        subst hlast
        obtain rfl : back = [] := hrest
        have hown : tsTreeTotalBytes child.label.toTreeData = metric.bytesOf own :=
          congrArg Length.bytes (hchild.totalSize_eq (metric.bytesOf_right_lt hltOwn))
        rw [List.append_nil, Metric.bytesOf_append, ← hown]
        exact Nat.le_trans (Nat.add_le_add_left (hchildren child List.mem_cons_self) _) hfirst
      · exact ih h hrest (fun c hc => hchildren c (List.mem_cons_of_mem _ hc)) hlast hlt

/-- **A node that `ts_tree_make_node` builds** from nodes that cover what has been scanned
does so too. -/
theorem all_scanned_makeNode {address : ℕ} {symbol : UInt16} {children : List SyntaxTree}
    {metadata : TSSymbolMetadata} {text : List α} (hspan : SpanAmong metric children text)
    (hchildren : ∀ child ∈ children, child.All Scanned)
    (hscanned : ScannedAmong (2 ^ 32 - 1) Length.zero children)
    (hlt : metric.bytesOf text < 2 ^ 32) :
    (tsTreeMakeNode address symbol children metadata).All Scanned := by
  refine all_iff.mpr ⟨?_, hchildren⟩
  have hamong := @scannedAmong_setChildren _ metric
    (tsTreeMakeLeaf address symbol Length.zero Length.zero metadata).label children text
    hspan hscanned hlt
  refine ⟨?_, hamong⟩
  have hspans := @spans_makeNode _ metric address symbol children metadata text hspan hlt
  have htotal : tsTreeTotalBytes (tsTreeMakeNode address symbol children
      metadata).label.toTreeData = metric.bytesOf text :=
      congrArg Length.bytes (hspans.totalSize_eq hlt)
  rw [htotal]
  by_cases hne : children = []
  · subst hne
    obtain rfl : text = [] := hspan
    exact Nat.zero_le _
  · rw [← List.nil_append text]
    refine ScannedAmong.bytesOf_le hamong hspan (fun child hchild => ?_) hne ?_
    · exact (hchildren child hchild).root.total_le
    · rwa [List.nil_append]

end SetChildren

/-! ## What is reused -/

/-- The operations of a parse on its reusable node. -/
inductive ReuseOp where
  /-- `parser__get_lookahead`, at a position of the parser. -/
  | getLookahead (position : ℕ)
  /-- `reusable_node_pop`. -/
  | pop
  /-- `reusable_node_pop_leaf`. -/
  | popLeaf
  /-- `reusable_node_breakdown`, which leaves a leaf alone. -/
  | breakdown
  deriving DecidableEq, Repr

/-- One operation on the reusable node, and the node that it returns for the parser to reuse. -/
def reuseStep (self : ReusableNode) : ReuseOp → Option (Option (Cursor NodeData) × ReusableNode)
  | .getLookahead position => some (reusableLookahead position self)
  | .pop => (reusableNodePop self).map fun next => (none, next)
  | .popLeaf => (reusableNodePopLeaf self).map fun next => (none, next)
  | .breakdown => self.cursor.map fun _ => (none, (reusableNodeBreakdown self).getD self)

/-- The nodes that operations return for reuse, each with its symbol and the byte
where it stands. -/
def reusedNodes (self : ReusableNode) : List ReuseOp → List (UInt16 × ℕ)
  | [] => []
  | op :: rest =>
      match reuseStep self op with
      | none => []
      | some (reused, next) =>
          (reused.map fun cursor => (cursor.tree.label.symbol, cursorByte cursor)).toList ++
            reusedNodes next rest

/-- A node that stands at a position of the new text is one of the old tree, for which the lexer has
read in the old text exactly what it would read in the new text: the same bytes, up to the same
distance. A node that is empty may also have stood inside the text that is gone. -/
def RereadsAt (tree : Tree) (old new : List UInt8) (position : ℕ) (node' : Tree) : Prop :=
  ∃ start node, Located tree start node ∧ node' = setOffset node'.label.offset node ∧
    ((new.drop position).take node.label.bytesScanned =
        (old.drop start).take node.label.bytesScanned ∨
      tsTreeTotalBytes node.label = 0)

/-- A node that an operation returns is unmarked, stands at the position that was asked for, and
reads the same bytes in the new text as in the old one. -/
def ReusesUnaffected (tree : Tree) (old new : List UInt8) (self : ReusableNode)
    (op : ReuseOp) : Prop :=
  ∀ cursor next, reuseStep self op = some (some cursor, next) →
    op = .getLookahead (cursorByte cursor) ∧ cursor.tree.label.hasChanges = false ∧
      RereadsAt tree old new (cursorByte cursor) (SyntaxTree.tree cursor.tree)

/-- An unmarked node reads the same bytes as before the edit. -/
theorem Survives.rereadsAt {tree node node' : Tree} {front removed added back : List UInt8}
    {position position' : ℕ}
    (h : Survives TreeData.bytesScanned tree front.length removed.length added.length
      position' node' position node) :
    RereadsAt tree (front ++ (removed ++ back)) (front ++ (added ++ back)) position' node' := by
  refine ⟨position, node, h.located, h.same, ?_⟩
  cases h.unaffected with
  | ahead hposition hreach =>
      -- both readings end in front of the edit
      left
      rw [hposition]
      have hfront : ∀ rest : List UInt8, ((front ++ rest).drop position).take
          node.label.bytesScanned = (front.drop position).take node.label.bytesScanned :=
          fun rest => by
        rw [List.drop_append_of_le_length (by omega),
          List.take_append_of_le_length (by rw [List.length_drop]; omega)]
      rw [hfront, hfront]
  | behind hposition hstart =>
      -- both readings go through the same text behind the edit
      left
      have hbehind : ∀ (middle : List UInt8) (distance : ℕ),
          (front ++ (middle ++ back)).drop (front.length + middle.length + distance) =
            back.drop distance := fun middle distance => by
        rw [← List.append_assoc, ← List.length_append, List.drop_length_add_append]
      obtain ⟨distance, rfl⟩ := Nat.exists_eq_add_of_le hstart
      have hposition' : position' = front.length + added.length + distance := by omega
      rw [hposition', hbehind, hbehind]
  | empty htotal hstart hstop => exact Or.inr htotal

/-- What an operation returns stands where it is asked for, unmarked, and the walk goes on
in its tree. -/
theorem ReusableNode.Placed.step {root : SyntaxTree} {self next : ReusableNode} {op : ReuseOp}
    {reused : Option (Cursor NodeData)} (hadd : BytesAddUp root.tree) (h : self.Placed root)
    (hnext : reuseStep self op = some (reused, next)) :
    next.Placed root ∧ ∀ cursor, reused = some cursor → cursor.root = root ∧
      op = .getLookahead (cursorByte cursor) ∧ cursor.tree.label.hasChanges = false := by
  -- all operations but the first return nothing
  have hnothing : ∀ {cursor : Cursor NodeData} {p : Prop}, none = some cursor → p := fun h =>
    absurd h (Option.some_ne_none _).symm
  cases op with
  | getLookahead position =>
      obtain ⟨hplaced, hreused⟩ := @ReusableNode.Placed.getLookahead _ _ hadd position h
      rw [reuseStep, Option.some.injEq] at hnext
      rw [hnext] at hplaced hreused
      refine ⟨hplaced, fun cursor hcursor => ?_⟩
      obtain ⟨hroot, hbyte, hunmarked, -⟩ := hreused cursor hcursor
      exact ⟨hroot, by rw [hbyte], hunmarked⟩
  | pop =>
      obtain ⟨popped, hpop, heq⟩ := Option.map_eq_some_iff.mp hnext
      obtain ⟨rfl, rfl⟩ := Prod.mk.inj heq
      exact ⟨h.pop hadd hpop, fun _ => hnothing⟩
  | popLeaf =>
      obtain ⟨popped, hpop, heq⟩ := Option.map_eq_some_iff.mp hnext
      obtain ⟨rfl, rfl⟩ := Prod.mk.inj heq
      exact ⟨h.popLeaf hadd hpop, fun _ => hnothing⟩
  | breakdown =>
      obtain ⟨cursor, -, heq⟩ := Option.map_eq_some_iff.mp hnext
      obtain ⟨rfl, rfl⟩ := Prod.mk.inj heq
      refine ⟨?_, fun _ => hnothing⟩
      cases hbreak : reusableNodeBreakdown self with
      | none => exact h
      | some next => exact h.breakdown hadd hbreak

section Reuse

variable {α : Type} {metric : Metric α} {tree : SyntaxTree} {edit : TSInputEdit} {text : List α}
  {front removed added back : List UInt8}

/-- An edit that removes bytes of a tree reaches the tree as it is described. -/
theorem tree_edited (hstart : edit.startByte = front.length)
    (hremoved : edit.bytesRemoved = removed.length)
    (htotal : tsTreeTotalBytes tree.tree.label = (front ++ (removed ++ back)).length) :
    (tree.edited edit).tree = tsTreeEdit edit tree.tree := by
  have htree : (tree.edited edit).tree = tsDocumentEdit edit tree.tree :=
    tree_overlay (touched_tsDocumentEdit edit tree.tree)
  simp only [List.length_append] at htotal
  rw [htree, tsDocumentEdit, if_neg (by omega), if_neg (by omega)]

/-- The unmarked nodes of an edited tree survive the edit with all that has been
scanned for them. -/
theorem survives_edited {position' : ℕ} {node' : Tree} (hadd : BytesAddUp tree.tree)
    (hscans : ScansAhead tree.tree) (hstart : edit.startByte = front.length)
    (hremoved : edit.bytesRemoved = removed.length) (hadded : edit.bytesAdded = added.length)
    (htotal : tsTreeTotalBytes tree.tree.label = (front ++ (removed ++ back)).length)
    (hlt : (front ++ (removed ++ back)).length + added.length < 2 ^ 32)
    (hlocated : Located (tree.edited edit).tree position' node')
    (hunmarked : node'.label.hasChanges = false) :
    ∃ position node, Survives TreeData.bytesScanned tree.tree front.length removed.length
      added.length position' node' position node := by
  rw [tree_edited hstart hremoved htotal] at hlocated
  -- bytes are all that counts, so they are the symbols of the text here
  have hunits := hadd.fits
  rw [htotal] at hunits
  simp only [List.length_append, List.replicate_add] at hunits hlt
  have hedit : EditOf unitMetric False edit (List.replicate front.length ())
      (List.replicate removed.length ()) (List.replicate added.length ()) := by
    refine ⟨?_, ?_, ?_, False.elim⟩
    all_goals rwa [bytesOf_unitMetric, List.length_replicate]
  have hsurvives := survives_tsTreeEdit reach_bytesScanned hedit (by simp; omega) hunits hscans
    hlocated hunmarked
  simpa only [bytesOf_unitMetric, List.length_replicate] using hsurvives

/-- **Reuse is sound** for a tree that spans a text, behind one edit: whatever a parse does to its
reusable node, every node that it takes stands at the position where it is taken, is unmarked, and
reads the same bytes there in the new text as it did in the old one. -/
theorem throughout_reusesUnaffected (hspans : Spans metric tree text)
    (hassigned : tree.All Assigned) (hscanned : tree.All Scanned)
    (htext : metric.bytesOf text = (front ++ (removed ++ back)).length)
    (hstart : edit.startByte = front.length) (hremoved : edit.bytesRemoved = removed.length)
    (hadded : edit.bytesAdded = added.length)
    (hlt : (front ++ (removed ++ back)).length + added.length < 2 ^ 32) (ops : List ReuseOp) :
    Machine.Throughout reuseStep
      (ReusesUnaffected tree.tree (front ++ (removed ++ back)) (front ++ (added ++ back)))
      (reusableNodeNew (some (tree.edited edit))) ops := by
  have hltText : metric.bytesOf text < 2 ^ 32 := by omega
  have hfits := hspans.fits hassigned hltText
  have hadd := hfits.bytesAddUp hltText
  have htotal : tsTreeTotalBytes tree.tree.label = (front ++ (removed ++ back)).length := by
    rw [hfits.totalBytes_eq hltText, htext]
  -- the walk goes through the edited tree, whose bytes add up as well
  have haddEdited : BytesAddUp (tree.edited edit).tree := by
    rw [SyntaxTree.edited, tree_overlay (touched_tsDocumentEdit edit tree.tree)]
    exact (bytesAddUp_tsDocumentEdit hadd (by omega)).1
  refine Machine.throughout_of_invariant (ReusableNode.Placed (tree.edited edit)) ?_ ?_
    (placed_reusableNodeNew _) (Machine.throughout_true _ ops)
  · intro self op reused next hplaced _ hnext
    exact (hplaced.step haddEdited hnext).1
  · intro self op hplaced _ cursor next hnext
    obtain ⟨hroot, hop, hunmarked⟩ := (hplaced.step haddEdited hnext).2 cursor rfl
    refine ⟨hop, hunmarked, ?_⟩
    -- where the walk stands is where the node is located in the edited tree
    have hlocated := located_cursor cursor
    rw [hroot] at hlocated
    obtain ⟨start, node, hnode⟩ := survives_edited hadd (.of_scanned hscanned hassigned) hstart
      hremoved hadded htotal hlt hlocated (by rw [SyntaxTree.label_tree]; exact hunmarked)
    exact hnode.rereadsAt

end Reuse

end TreeSitterTextStorage
