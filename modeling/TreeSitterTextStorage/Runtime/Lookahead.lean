import TreeSitterTextStorage.Runtime.EditFits

/-! # Unmarked nodes are unaffected

`ts_tree_edit` marks the nodes that an edit affects: those whose text it changes, and those for
which the lexer has looked at the text it changes. What stays unmarked is what the next parse may
reuse, so this is what makes reuse right: an unmarked node is an old node, all that was read to
build it lies in front of the edit or behind it, and it stands at the same distance from that
text as before. -/

namespace TreeSitterTextStorage

open RoseTree

variable {α : Type} {metric : Metric α} {exact : Prop}

/-! ## Nodes of a tree -/

/-- A node of a tree, and the byte at which its padding starts, from the start of the tree's. -/
inductive Located : Tree → ℕ → Tree → Prop
  /-- The tree itself. -/
  | here (tree : Tree) : Located tree 0 tree
  /-- A node of a child, behind the child's offset. -/
  | inside {tree child node : Tree} {start : ℕ} (hmem : child ∈ tree.children)
      (hnode : Located child start node) : Located tree (child.label.offset.bytes + start) node

/-- A child of a node is a node. -/
theorem Located.child {tree node child : Tree} {start : ℕ} (h : Located tree start node)
    (hmem : child ∈ node.children) : Located tree (start + child.label.offset.bytes) child := by
  induction h with
  | here tree =>
      rw [Nat.zero_add, ← Nat.add_zero child.label.offset.bytes]
      exact .inside hmem (.here child)
  | inside hfirst _ ih =>
      rw [Nat.add_assoc]
      exact .inside hfirst (ih hmem)

/-- The lexer has looked at least as far as every node reaches, and as far as it has looked for the
children of the node. -/
inductive ScansAhead : Tree → Prop
  | node (self : TreeData) (children : List Tree)
      (htotal : tsTreeTotalBytes self ≤ self.bytesScanned) (hscanned : ∀ child ∈ children,
        child.label.offset.bytes + child.label.bytesScanned ≤ self.bytesScanned)
      (hchildren : ∀ child ∈ children, ScansAhead child) : ScansAhead (.node self children)

theorem ScansAhead.total_le {tree : Tree} (h : ScansAhead tree) :
    tsTreeTotalBytes tree.label ≤ tree.label.bytesScanned := by
  cases h with
  | node self children htotal hscanned hchildren => exact htotal

theorem ScansAhead.scanned_le {tree child : Tree} (h : ScansAhead tree)
    (hmem : child ∈ tree.children) :
    child.label.offset.bytes + child.label.bytesScanned ≤ tree.label.bytesScanned := by
  cases h with
  | node self children htotal hscanned hchildren => exact hscanned child hmem

theorem ScansAhead.child {tree child : Tree} (h : ScansAhead tree) (hmem : child ∈ tree.children) :
    ScansAhead child := by
  cases h with
  | node self children htotal hscanned hchildren => exact hchildren child hmem

/-- What the lexer has looked at for a node of a tree, it has looked at for the tree. -/
theorem ScansAhead.located {tree node : Tree} {start : ℕ} (h : ScansAhead tree)
    (hnode : Located tree start node) :
    ScansAhead node ∧ start + node.label.bytesScanned ≤ tree.label.bytesScanned := by
  induction hnode with
  | here tree => exact ⟨h, by rw [Nat.zero_add]⟩
  | inside hmem _ ih =>
      obtain ⟨hnode, hle⟩ := ih (h.child hmem)
      have := h.scanned_le hmem
      exact ⟨hnode, by omega⟩

/-- A child of a list that fits a text fits a piece of it, and its offset measures what lies in
front of that piece. -/
theorem FitsAmong.exists_of_mem {children : List Tree} {passed text : List α} {child : Tree}
    (h : FitsAmong metric exact passed children text) (hmem : child ∈ children) :
    ∃ front own back, text = front ++ (own ++ back) ∧
      Measures metric exact child.label.offset (passed ++ front) ∧ Fits metric exact child own := by
  induction children generalizing passed text with
  | nil => exact absurd hmem List.not_mem_nil
  | cons first rest ih =>
      rw [FitsAmong] at h
      obtain ⟨front, back, rfl, hoffset, hfirst, hrest⟩ := h
      rcases List.mem_cons.mp hmem with rfl | hmem
      · exact ⟨[], front, back, rfl, by rwa [List.append_nil], hfirst⟩
      · obtain ⟨front', own, back', rfl, hoffset', hchild⟩ := ih hrest hmem
        exact ⟨front ++ front', own, back', by simp, by rwa [← List.append_assoc], hchild⟩

/-- A child of a tree that fits a text. -/
theorem Fits.exists_of_mem {tree child : Tree} {text : List α} (h : Fits metric exact tree text)
    (hmem : child ∈ tree.children) :
    ∃ front own back, text = front ++ (own ++ back) ∧
      Measures metric exact child.label.offset front ∧ Fits metric exact child own := by
  obtain ⟨self, children⟩ := tree
  rw [Fits] at h
  exact (h.2 (List.ne_nil_of_mem hmem)).exists_of_mem hmem

/-- **A node of a tree that fits a text** fits its own piece, which starts where the node does. -/
theorem Fits.located {tree node : Tree} {text : List α} {start : ℕ}
    (h : Fits metric exact tree text) (hnode : Located tree start node) :
    ∃ front own back, text = front ++ (own ++ back) ∧ start = metric.bytesOf front ∧
      Fits metric exact node own := by
  induction hnode generalizing text with
  | here tree => exact ⟨[], text, [], by simp, rfl, h⟩
  | inside hmem _ ih =>
      obtain ⟨front, own, back, rfl, hoffset, hchild⟩ := h.exists_of_mem hmem
      obtain ⟨front', own', back', rfl, hstart, hnode⟩ := ih hchild
      refine ⟨front ++ front', own', back' ++ back, by simp, ?_, hnode⟩
      rw [hoffset.bytes_eq, hstart, Metric.bytesOf_append]

/-- A node of a tree that fits a text ends inside the text. -/
theorem Fits.located_end {tree node : Tree} {text : List α} {start : ℕ}
    (h : Fits metric exact tree text) (hlt : metric.bytesOf text < 2 ^ 32)
    (hnode : Located tree start node) :
    start + tsTreeTotalBytes node.label ≤ metric.bytesOf text := by
  obtain ⟨front, own, back, rfl, rfl, hown⟩ := h.located hnode
  simp only [Metric.bytesOf_append] at hlt ⊢
  rw [hown.totalBytes_eq (by omega)]
  omega

/-! ## Nodes that only lose their lookahead -/

/-- A child behind `ts_tree_invalidate_lookahead` is an old child, possibly invalidated itself. -/
theorem exists_of_mem_invalidateLookaheadAmong {editByteOffset start : ℕ} {children : List Tree}
    {child' : Tree} (h : child' ∈ invalidateLookaheadAmong editByteOffset start children) :
    ∃ child ∈ children, child' = child ∨
      ∃ offset, child' = tsTreeInvalidateLookahead offset child := by
  induction children generalizing start with
  | nil => exact absurd h List.not_mem_nil
  | cons child rest ih =>
      rw [invalidateLookaheadAmong] at h
      split at h
      · exact ⟨child', h, Or.inl rfl⟩
      · rcases List.mem_cons.mp h with rfl | h
        · exact ⟨child, List.mem_cons_self, Or.inr ⟨_, rfl⟩⟩
        · obtain ⟨child, hmem, hchild⟩ := ih h
          exact ⟨child, List.mem_cons_of_mem _ hmem, hchild⟩

/-- An unmarked node of an invalidated tree is the old node at its place. -/
theorem located_of_invalidateLookahead {tree node : Tree} {offset start : ℕ}
    (h : Located (tsTreeInvalidateLookahead offset tree) start node)
    (hunmarked : node.label.hasChanges = false) : Located tree start node := by
  induction tree using RoseTree.induct generalizing offset start with
  | node self children ih =>
      rw [tsTreeInvalidateLookahead] at h
      split at h
      · exact h
      · cases h with
        | here tree => exact absurd hunmarked (by simp)
        | inside hmem hnode =>
            obtain ⟨child, hchild, rfl | ⟨offset', rfl⟩⟩ :=
              exists_of_mem_invalidateLookaheadAmong hmem
            · exact .inside hchild hnode
            · rw [offset_tsTreeInvalidateLookahead]
              exact .inside hchild (ih child hchild hnode)

/-- The children of a tree that ends in front of the edit are all invalidated, each with the
distance from its start to the edit. -/
theorem exists_distance_of_mem {editByteOffset : ℕ} {children : List Tree} {passed text : List α}
    {child' : Tree} (hfits : FitsAmong metric exact passed children text)
    (hle : metric.bytesOf passed + metric.bytesOf text ≤ editByteOffset)
    (hlt : editByteOffset < 2 ^ 32)
    (h : child' ∈ invalidateLookaheadAmong editByteOffset (metric.bytesOf passed) children) :
    ∃ child ∈ children, child' =
      tsTreeInvalidateLookahead (editByteOffset - child.label.offset.bytes) child := by
  induction children generalizing passed text with
  | nil => exact absurd h List.not_mem_nil
  | cons child rest ih =>
      rw [FitsAmong] at hfits
      obtain ⟨front, back, rfl, hoffset, hchild, hrest⟩ := hfits
      rw [Metric.bytesOf_append] at hle
      rw [invalidateLookaheadAmong, if_neg (by omega), hchild.totalBytes_eq (by omega),
        metric.wrapAdd_bytesOf (by rw [Metric.bytesOf_append]; omega)] at h
      rcases List.mem_cons.mp h with rfl | h
      · refine ⟨child, List.mem_cons_self, ?_⟩
        rw [hoffset.bytes_eq, wrapSub_of_le (by omega) hlt]
      · obtain ⟨child, hmem, hchild⟩ := ih hrest (by rw [Metric.bytesOf_append]; omega) h
        exact ⟨child, List.mem_cons_of_mem _ hmem, hchild⟩

/-- **Invalidation finds every lookahead**: in a tree that ends in front of an edit, the lexer has
not looked as far as the edit for any node that stays unmarked. -/
theorem scanned_le_of_invalidateLookahead {tree node : Tree} {text : List α} {offset start : ℕ}
    (hfits : Fits metric exact tree text) (hscans : ScansAhead tree)
    (hle : metric.bytesOf text ≤ offset) (hlt : offset < 2 ^ 32)
    (h : Located (tsTreeInvalidateLookahead offset tree) start node)
    (hunmarked : node.label.hasChanges = false) : start + node.label.bytesScanned ≤ offset := by
  induction tree using RoseTree.induct generalizing text offset start with
  | node self children ih =>
      rw [tsTreeInvalidateLookahead] at h
      split at h
      · next hdone => exact Nat.le_trans (hscans.located h).2 hdone
      · cases h with
        | here tree => exact absurd hunmarked (by simp)
        | inside hmem hnode =>
            have hne : children ≠ [] := by
              rintro rfl
              exact absurd hmem List.not_mem_nil
            rw [Fits] at hfits
            obtain ⟨child, hchild, rfl⟩ := exists_distance_of_mem (hfits.2 hne)
              (by rw [metric.bytesOf_nil]; omega) hlt hmem
            obtain ⟨front, own, back, rfl, hoffset, hown⟩ := (hfits.2 hne).exists_of_mem hchild
            rw [List.nil_append] at hoffset
            simp only [Metric.bytesOf_append] at hle
            rw [hoffset.bytes_eq] at hnode
            have := ih child hchild hown (hscans.child hchild) (by omega) (by omega) hnode
            rw [offset_tsTreeInvalidateLookahead, hoffset.bytes_eq]
            omega

/-! ## Reaches -/

/-- How far behind its start the text matters to a node: as far as the node itself, or further. An
edit behind a tree marks every node that it matters to. -/
structure Reach (metric : Metric α) (exact : Prop) (reach : TreeData → ℕ)
    (ok : Tree → Prop) : Prop where
  /-- The children of a tree are as good as the tree. -/
  child : ∀ {tree child : Tree}, ok tree → child ∈ tree.children → ok child
  /-- The text of a node matters to it. -/
  total_le : ∀ {tree : Tree}, ok tree → tsTreeTotalBytes tree.label ≤ reach tree.label
  /-- The nodes of a tree that ends in front of an edit. -/
  invalidated : ∀ {tree node : Tree} {text : List α} {offset start : ℕ},
    Fits metric exact tree text → ok tree → metric.bytesOf text ≤ offset → offset < 2 ^ 32 →
    Located (tsTreeInvalidateLookahead offset tree) start node → node.label.hasChanges = false →
    start + reach node.label ≤ offset

/-- The nodes of a tree are as good as the tree. -/
theorem Reach.located {reach : TreeData → ℕ} {ok : Tree → Prop} {tree node : Tree} {start : ℕ}
    (h : Reach metric exact reach ok) (htree : ok tree) (hnode : Located tree start node) :
    ok node := by
  induction hnode with
  | here tree => exact htree
  | inside hmem _ ih => exact ih (h.child htree hmem)

/-- What the lexer has looked at matters. -/
theorem reach_bytesScanned : Reach metric exact TreeData.bytesScanned ScansAhead where
  child := ScansAhead.child
  total_le := ScansAhead.total_le
  invalidated := scanned_le_of_invalidateLookahead

/-- The text of a node matters, whatever the lexer has looked at. -/
theorem reach_totalBytes : Reach metric exact tsTreeTotalBytes fun _ => True where
  child _ _ := trivial
  total_le _ := Nat.le_refl _
  invalidated hfits _ hle hlt hnode hunmarked := by
    have hend := hfits.located_end (Nat.lt_of_le_of_lt hle hlt)
      (located_of_invalidateLookahead hnode hunmarked)
    exact Nat.le_trans hend hle

/-! ## Nodes of an edited tree -/

section Edited

variable {edit : TSInputEdit} {front removed added back : List α}

/-- A child behind the loop of `ts_tree_edit` comes from an old child, for whose place the loop has
made it. -/
theorem exists_childEdit_of_mem {children : List Tree} {child' : Tree} {loop : EditLoop}
    {passed passed' rest : List α} (hedit : EditOf metric exact edit front removed added)
    (hlt : metric.bytesOf (front ++ (removed ++ back)) + metric.bytesOf added < 2 ^ 32)
    (hat : LoopAt metric exact front removed added back loop passed passed')
    (hfits : FitsAmong metric exact passed children rest)
    (htext : passed ++ rest = front ++ (removed ++ back))
    (hmem : child' ∈ tsTreeEditAmong edit loop children) :
    ∃ child ∈ children, ∃ passed passed' text text' new offset,
      ChildEdit metric exact front removed added back passed passed' child text new text' ∧
      child' = setOffset offset new ∧ offset.bytes = metric.bytesOf passed' ∧
      child.label.offset.bytes = metric.bytesOf passed ∧ Fits metric exact child text ∧
      metric.bytesOf text + metric.bytesOf added < 2 ^ 32 := by
  induction children generalizing loop passed passed' rest with
  | nil =>
      rw [tsTreeEditAmong] at hmem
      exact absurd hmem List.not_mem_nil
  | cons child children ih =>
      rw [FitsAmong] at hfits
      obtain ⟨text, rest, rfl, hoffset, hchild, hrest⟩ := hfits
      have htotal := congrArg metric.bytesOf htext
      simp only [Metric.bytesOf_append] at htotal
      have hltChild : metric.bytesOf text + metric.bytesOf added < 2 ^ 32 := by
        simp only [Metric.bytesOf_append] at hlt
        omega
      obtain ⟨new, text', loop', hturn, hchildEdit, hnext⟩ :=
        loopTurn_of_loopAt hedit hlt hchild htext hat
      rw [hturn] at hmem
      rcases List.mem_cons.mp hmem with rfl | hmem
      · exact ⟨child, List.mem_cons_self, passed, passed', text, text', new, loop.childRight,
          hchildEdit, rfl, hat.measures_childRight.bytes_eq, hoffset.bytes_eq, hchild, hltChild⟩
      · have hnew : Fits metric exact new text' :=
          hchildEdit.fits hchild hltChild fun _ _ _ _ _ => fits_tsTreeEdit
        obtain ⟨child, hmem', h⟩ := ih (hnext hnew).1 hrest (by rw [List.append_assoc, htext]) hmem
        exact ⟨child, List.mem_cons_of_mem _ hmem', h⟩

/-- How an unmarked node of an edited tree relates to the old node at its place. The edit removes
`removed` bytes behind `start` bytes and adds `added` bytes there. -/
inductive Unaffected (start removed added reach total position position' : ℕ) : Prop
  /-- All that matters to the node lies in front of the edit. -/
  | ahead (hposition : position' = position) (hreach : position + reach ≤ start)
  /-- The node starts behind the removed text. -/
  | behind (hposition : position' + removed = position + added)
    (hstart : start + removed ≤ position)
  /-- The node is empty and stood inside the removed text. -/
  | empty (htotal : total = 0) (hstart : start ≤ position) (hstop : position < start + removed)

/-- In the child that takes an edit, whose text ends with the removed text or behind it. -/
theorem Unaffected.of_taken {start removed added passed left rest reach total position
    position' : ℕ} (h : Unaffected start removed added reach total position position')
    (hend : position + total ≤ start + (removed + rest)) (hcut : left = 0 ∨ rest = 0) :
    Unaffected (passed + start) (removed + left) added reach total (passed + position)
      (passed + position') := by
  cases h with
  | ahead hposition hreach => exact .ahead (by omega) (by omega)
  | behind hposition hstart =>
      by_cases hleft : left = 0
      · exact .behind (by omega) (by omega)
      · -- the removal goes on behind the child, so the node stands at the child's end
        exact .empty (by omega) (by omega) (by omega)
  | empty htotal hstart hstop => exact .empty htotal (by omega) (by omega)

/-- In a child that gives up text behind the edit. -/
theorem Unaffected.of_cut {front gone removed left rest added reach total position position' : ℕ}
    (h : Unaffected 0 removed 0 reach total position position') (hreach : total ≤ reach)
    (hend : position + total ≤ removed + rest) (hsome : 0 < removed + left)
    (hcut : left = 0 ∨ rest = 0) :
    Unaffected front (gone + (removed + left)) added reach total (front + gone + position)
      (front + added + position') := by
  cases h with
  | ahead hposition hreach =>
      -- nothing lies in front of the child's text, so the node is empty
      exact .empty (by omega) (by omega) (by omega)
  | behind hposition hstart =>
      by_cases hleft : left = 0
      · exact .behind (by omega) (by omega)
      · exact .empty (by omega) (by omega) (by omega)
  | empty htotal hstart hstop => exact .empty htotal (by omega) (by omega)

/-- An old node and an unmarked node that an edit has left at its place: the same tree, up to the
offset. -/
structure Survives (reach : TreeData → ℕ) (tree : Tree) (start removed added : ℕ) (position' : ℕ)
    (node' : Tree) (position : ℕ) (node : Tree) : Prop where
  /-- The old node is a node of the old tree. -/
  located : Located tree position node
  /-- Only the offset of the node may have changed. -/
  same : node' = setOffset node'.label.offset node
  /-- The edit leaves alone what the node depends on. -/
  unaffected : Unaffected start removed added (reach node.label) (tsTreeTotalBytes node.label)
    position position'

/-- `ts_tree_edit` marks the root of the tree. -/
theorem hasChanges_tsTreeEdit (edit : TSInputEdit) (tree : Tree) :
    (tsTreeEdit edit tree).label.hasChanges = true := by
  obtain ⟨self, children⟩ := tree
  rw [tsTreeEdit, RoseTree.label_node, editOwnLengths]
  simp only
  split
  · split <;> rfl
  · split <;> rfl

@[simp] theorem setOffset_setOffset (offset offset' : Length) (tree : Tree) :
    setOffset offset (setOffset offset' tree) = setOffset offset tree := by
  obtain ⟨self, children⟩ := tree
  rfl

@[simp] theorem setOffset_self (tree : Tree) : setOffset tree.label.offset tree = tree := by
  obtain ⟨self, children⟩ := tree
  rfl

/-- The nodes of a tree do not depend on its offset, but for the root's own. -/
theorem located_setOffset {offset : Length} {tree node : Tree} {start : ℕ}
    (h : Located (setOffset offset tree) start node) :
    ∃ node', Located tree start node' ∧ node = setOffset node.label.offset node' := by
  cases h with
  | here tree => exact ⟨tree, .here tree, by simp⟩
  | inside hmem hnode =>
      rw [children_setOffset] at hmem
      exact ⟨node, .inside hmem hnode, by simp⟩

/-- **Unmarked nodes survive an edit**: every node of the edited tree that is not marked is an old
node, which the edit leaves alone. -/
theorem survives_tsTreeEdit {reach : TreeData → ℕ} {ok : Tree → Prop} {tree node' : Tree}
    {position' : ℕ} (hreach : Reach metric exact reach ok)
    (hedit : EditOf metric exact edit front removed added)
    (hlt : metric.bytesOf (front ++ (removed ++ back)) + metric.bytesOf added < 2 ^ 32)
    (hfits : Fits metric exact tree (front ++ (removed ++ back))) (hok : ok tree)
    (h : Located (tsTreeEdit edit tree) position' node')
    (hunmarked : node'.label.hasChanges = false) :
    ∃ position node, Survives reach tree (metric.bytesOf front) (metric.bytesOf removed)
      (metric.bytesOf added) position' node' position node := by
  induction tree using RoseTree.induct generalizing edit front removed added back
    position' node' with
  | node self children ih =>
      cases h with
      | here tree =>
          -- the root of what is edited is marked
          rw [hasChanges_tsTreeEdit] at hunmarked
          exact Bool.noConfusion hunmarked
      | @inside tree child' node start hmem hnode =>
          rw [Fits] at hfits
          rw [tsTreeEdit, children_node] at hmem
          have hne : children ≠ [] := by
            rintro rfl
            rw [tsTreeEditAmong] at hmem
            exact absurd hmem List.not_mem_nil
          have hat : LoopAt metric exact front removed added back ⟨false, 0, ⟨0, 0⟩, Length.zero⟩
              [] [] := .before front rfl rfl rfl rfl rfl measures_zero
          obtain ⟨child, hchild, passed, passed', text, text', new, offset, hchildEdit, rfl, hoffset',
            hoffset, hown, hltChild⟩ := exists_childEdit_of_mem hedit hlt hat (hfits.2 hne) rfl hmem
          obtain ⟨new', hnew', hsame⟩ := located_setOffset hnode
          rw [hsame, label_setOffset] at hunmarked
          rw [label_setOffset, hoffset']
          have hokChild := hreach.child hok hchild
          cases hchildEdit with
          | ahead rest hfront hrest hpassed htext hnew =>
              subst hfront hpassed htext hnew
              simp only [Metric.bytesOf_append] at hlt
              -- in front of the edit: the lexer has not looked as far as the edit
              have hreached := hreach.invalidated hown hokChild
                (by rw [Metric.bytesOf_append]; omega) (by rw [Metric.bytesOf_append]; omega)
                hnew' hunmarked
              rw [Metric.bytesOf_append] at hreached
              refine ⟨_, new', .inside hchild (located_of_invalidateLookahead hnew'
                hunmarked), hsame, .ahead (by rw [hoffset]) ?_⟩
              simp only [Metric.bytesOf_append]
              omega
          | taken edit' childFront childRemoved left childBack hfront hremoved hold hcut
              hpassed htext hedit' hnew =>
              subst hfront hremoved hold hpassed htext hnew
              -- the child takes the edit, and the node survives in it
              obtain ⟨position, old, hlocated, hold, hunaffected⟩ :=
                ih child hchild hedit' hltChild hown hokChild hnew' hunmarked
              rw [hold, setOffset_setOffset] at hsame
              refine ⟨_, old, .inside hchild hlocated, hsame, ?_⟩
              have hend := hown.located_end (by omega) hlocated
              rw [hoffset]
              simp only [Metric.bytesOf_append] at hend ⊢
              refine hunaffected.of_taken hend ?_
              simpa only [metric.bytesOf_eq_zero_iff] using hcut
          | cut edit' gone childRemoved left childBack hremoved hsome hold hcut hpassed
              hpassed' htext hedit' hnew =>
              subst hremoved hold hpassed hpassed' htext hnew
              -- the child loses its start, which is an edit of its own
              have hltCut : metric.bytesOf ([] ++ (childRemoved ++ text')) + metric.bytesOf
                [] < 2 ^ 32 :=
                Nat.lt_of_le_of_lt (Nat.le_add_right _ _) hltChild
              obtain ⟨position, old, hlocated, hold, hunaffected⟩ :=
                ih child hchild hedit' hltCut hown hokChild hnew' hunmarked
              rw [hold, setOffset_setOffset] at hsame
              refine ⟨_, old, .inside hchild hlocated, hsame, ?_⟩
              have hend := hown.located_end (by omega) hlocated
              have hpos : 0 < metric.bytesOf (childRemoved ++ left) :=
                Nat.pos_of_ne_zero fun h => hsome (metric.bytesOf_eq_zero_iff.mp h)
              rw [hoffset]
              simp only [Metric.bytesOf_append] at hend hpos ⊢
              refine hunaffected.of_cut (hreach.total_le
                (hreach.located hokChild hlocated)) hend hpos ?_
              simpa only [metric.bytesOf_eq_zero_iff] using hcut
          | behind offset between rest hback hpassed hpassed' htext hnew =>
              subst hback hpassed hpassed' htext hnew
              -- behind the edit: the node has moved as a whole
              refine ⟨_, new', .inside hchild (located_of_invalidateLookahead hnew'
                hunmarked), hsame, .behind ?_ ?_⟩
              · rw [hoffset]
                simp only [Metric.bytesOf_append]
                omega
              · rw [hoffset]
                simp only [Metric.bytesOf_append]
                omega

end Edited

end TreeSitterTextStorage
