import TreeSitterTextStorage.Runtime.ParserSound

/-! # Edited trees offer their unmarked nodes

Between two parses the tree of a document is edited. Whatever the descriptions say about rows and
columns, as long as they are right about the bytes, the tree goes on to have the bytes of the text,
and every unmarked node is a node of a parse that spans the piece of the text at its place. So the
next parse may take it. -/

namespace TreeSitterTextStorage

open RoseTree

variable {α : Type} {metric : Metric α}

/-! ## Known characters -/

/-- The characters of a node are known. -/
structure Known (tree : SyntaxTree) : Prop where
  /-- The characters of the padding. -/
  padding : tree.label.padding.hasUnknownChars = false
  /-- The characters of the node. -/
  size : tree.label.size.hasUnknownChars = false

/-- The characters of a tree that spans a text are known. -/
theorem Spans.all_known {tree : SyntaxTree} {text : List α} (h : Spans metric tree text) :
    tree.All Known := by
  induction tree using RoseTree.induct generalizing text with
  | node self children ih =>
      rw [Spans] at h
      obtain ⟨⟨front, content, -, hpadding, hsize⟩, hchildren⟩ := h
      refine all_iff.mpr ⟨⟨?_, ?_⟩, ?_⟩
      · rw [label_node, hpadding, Metric.hasUnknownChars_lengthOf]
      · rw [label_node, hsize, Metric.hasUnknownChars_lengthOf]
      · intro child hchild
        rw [children_node] at hchild
        obtain ⟨own, hown, -⟩ := SpanAmong.of_mem (hchildren (List.ne_nil_of_mem hchild)) hchild
        exact ih child hchild hown

/-- A length that measures a text is the length of the text when its characters are known. -/
theorem Measures.eq_lengthOf {len : Length} {text : List α} (h : Measures metric True len text)
    (hknown : len.hasUnknownChars = false) : len = metric.lengthOf text := by
  obtain ⟨bytes, chars, extent⟩ := len
  obtain ⟨hbytes, hchars, hextent⟩ := h
  simp only [Length.hasUnknownChars, decide_eq_false_iff_not,
    not_and] at hbytes hchars hextent hknown
  rw [Metric.lengthOf, Length.mk.injEq]
  refine ⟨hbytes, ?_, hextent trivial⟩
  rcases hchars trivial with hsame | hzero
  · exact hsame
  · -- nothing is unknown about no bytes
    have hempty : bytes = 0 := Nat.eq_zero_of_not_pos fun hpos => hknown hpos hzero
    rw [hempty, eq_comm, metric.bytesOf_eq_zero_iff] at hbytes
    rw [hzero, hbytes, List.length_nil]

/-- **A tree that fits a text spans it** when its characters are known. -/
theorem Spans.of_fits {tree : SyntaxTree} {text : List α} (h : Fits metric True tree.tree text)
    (hknown : tree.All Known) : Spans metric tree text := by
  induction tree using RoseTree.induct generalizing text with
  | node self children ih =>
      rw [SyntaxTree.tree, map, mapList_eq, Fits] at h
      obtain ⟨⟨front, content, rfl, hpadding, hsize⟩, hchildren⟩ := h
      rw [Spans]
      refine ⟨⟨front, content, rfl, hpadding.eq_lengthOf hknown.root.padding,
        hsize.eq_lengthOf hknown.root.size⟩, fun hne => ?_⟩
      suffices hamong : ∀ (cs : List SyntaxTree) (passed text : List α), (∀ c ∈ cs, c ∈ children) →
          FitsAmong metric True passed (cs.map SyntaxTree.tree) text → SpanAmong metric cs text by
        refine hamong children [] _ (fun c hc => hc) (hchildren ?_)
        rwa [Ne, List.map_eq_nil_iff]
      intro cs
      induction cs with
      | nil => exact fun _ _ _ hfit => hfit
      | cons child rest ihRest =>
          intro passed text hsub hfit
          rw [List.map_cons, FitsAmong] at hfit
          obtain ⟨front, back, rfl, -, hchild, hrest⟩ := hfit
          have hmem := hsub child List.mem_cons_self
          rw [SpanAmong]
          exact ⟨front, back, rfl, ih child hmem hchild (hknown.child hmem),
            ihRest _ _ (fun c hc => hsub c (List.mem_cons_of_mem _ hc)) hrest⟩

/-! ## Trees of documents -/

/-- An unmarked node stands over a piece of a text that it fits. -/
def StandsOver (metric : Metric α) (text : List α) (start : ℕ) (node : Tree) : Prop :=
  ∃ front own back, text = front ++ (own ++ back) ∧ start = metric.bytesOf front ∧
    Fits metric True node own

/-- The tree of a document over its current text. -/
structure Current (metric : Metric α) (next : ℕ) (tree : SyntaxTree) (text : List α) : Prop where
  /-- The bytes of the tree are those of the text. -/
  fits : Fits metric False tree.tree text
  /-- Every unmarked node fits the text at its place. -/
  stands : ∀ start node, Located tree.tree start node → node.label.hasChanges = false →
    StandsOver metric text start node
  /-- Every unmarked node is one of a parse. -/
  settled : ∀ node, HasNode tree node → node.label.hasChanges = false → node.All (Settled next)
  /-- Below every unmarked node the nodes know their places. -/
  assigned : ∀ node, HasNode tree node → node.label.hasChanges = false → node.All Assigned
  /-- The characters of every unmarked node are known. -/
  known : ∀ node, HasNode tree node → node.label.hasChanges = false → node.All Known

/-- **Behind a parse** the tree of a document is current, and it fits the text in all
its measures. -/
theorem Built.current {next : ℕ} {root : SyntaxTree} {text : List α}
    (h : Built metric next root text) (hlt : metric.bytesOf text < 2 ^ 32) :
    Current metric next (tsTreeAssignParents root) text ∧
      Fits metric True (tsTreeAssignParents root).tree text := by
  have hspans := spans_assignParents h.spans
  have hassigned := all_assigned_assignParents h.settled
  have hfits := hspans.fits hassigned hlt
  refine ⟨⟨hfits.bytes, fun start node hlocated _ => hfits.located hlocated, fun node hnode _ => ?_,
    fun node hnode _ => hassigned.all node hnode, fun node hnode _ => ?_⟩, hfits⟩
  · exact (all_settled_assignParents h.settled).all node hnode
  · exact hspans.all_known.all node hnode

/-- A tree of a document that is not marked spans the text. -/
theorem Current.spans_of_unmarked {next : ℕ} {tree : SyntaxTree} {text : List α}
    (h : Current metric next tree text) (hlt : metric.bytesOf text < 2 ^ 32)
    (hunmarked : tree.label.hasChanges = false) : Spans metric tree text := by
  obtain ⟨front, own, back, rfl, hstart, hown⟩ := h.stands 0 tree.tree (.here _)
    (by rw [SyntaxTree.label_tree]; exact hunmarked)
  have htotal := h.fits.totalBytes_eq hlt
  simp only [Metric.bytesOf_append] at htotal hlt
  rw [hown.totalBytes_eq (by omega)] at htotal
  have hfront : front = [] := metric.bytesOf_eq_zero_iff.mp hstart.symm
  have hback : back = [] := metric.bytesOf_eq_zero_iff.mp (by omega)
  rw [hfront, hback, List.append_nil, List.nil_append]
  exact Spans.of_fits hown (h.known tree (Or.inl rfl) hunmarked)

/-- **A current tree offers its unmarked nodes** to the next parse. -/
theorem Current.offers {next : ℕ} {tree : SyntaxTree} {text : List α}
    (h : Current metric next tree text) (hlt : metric.bytesOf text < 2 ^ 32) :
    Offers metric text next tree where
  adds := h.fits.bytesAddUp hlt
  node cursor hroot hunmarked := by
    have hlocated := located_cursor cursor
    have hnode := cursor.hasNode
    rw [hroot] at hlocated hnode
    obtain ⟨front, own, back, htext, hstart, hown⟩ := h.stands _ _ hlocated
      (by rw [SyntaxTree.label_tree]; exact hunmarked)
    refine ⟨metric.lengthOf front, metric.lengthOf (front ++ own), hstart.symm, own,
      ⟨front, back, htext, rfl, rfl⟩, Spans.of_fits hown (h.known _ hnode hunmarked),
        h.settled _ hnode hunmarked⟩

/-! ## Edits -/

section Edited

variable {edit : TSInputEdit} {front removed added back : List α}

/-- An unmarked node of an edited text fits the piece at its place. -/
theorem StandsOver.edited {tree node node' : Tree} {position position' : ℕ}
    (hfits : Fits metric False (tsTreeEdit edit tree) (front ++ (added ++ back)))
    (hlocated : Located (tsTreeEdit edit tree) position' node')
    (h : StandsOver metric (front ++ (removed ++ back)) position node)
    (hlt : metric.bytesOf (front ++ (removed ++ back)) < 2 ^ 32)
    (hsurvives : Survives tsTreeTotalBytes tree (metric.bytesOf front) (metric.bytesOf removed)
      (metric.bytesOf added) position' node' position node) :
    StandsOver metric (front ++ (added ++ back)) position' node' := by
  obtain ⟨before, own, behind, htext, hstart, hown⟩ := h
  have hnode' : Fits metric True node' own := by
    rw [hsurvives.same, fits_setOffset_iff]
    exact hown
  have htotal : tsTreeTotalBytes node.label = metric.bytesOf own := by
    refine hown.totalBytes_eq ?_
    rw [htext] at hlt
    simp only [Metric.bytesOf_append] at hlt
    omega
  cases hsurvives.unaffected with
  | ahead hposition hreach =>
      obtain ⟨middle, hfront, -⟩ := metric.exists_prefix
        (htext.trans (List.append_assoc before own behind).symm) (by
          rw [Metric.bytesOf_append]
          omega)
      refine ⟨before, own, middle ++ (added ++ back), ?_, hposition.trans hstart, hnode'⟩
      rw [hfront, List.append_assoc, List.append_assoc]
  | behind hposition hbehind =>
      rw [← List.append_assoc] at htext
      obtain ⟨middle, hbefore, hback⟩ := metric.exists_prefix htext.symm (by
        rw [Metric.bytesOf_append]
        omega)
      refine ⟨front ++ (added ++ middle), own, behind, ?_, ?_, hnode'⟩
      · rw [hback, List.append_assoc, List.append_assoc]
      · rw [hstart, hbefore] at hposition
        simp only [Metric.bytesOf_append] at hposition ⊢
        omega
  | empty hzero hbefore hstop =>
      -- an empty node stands anywhere
      obtain ⟨before', own', behind', htext', hstart', -⟩ := hfits.located hlocated
      rw [hzero, eq_comm, metric.bytesOf_eq_zero_iff] at htotal
      exact ⟨before', [], own' ++ behind', by rw [htext', List.nil_append], hstart',
        htotal ▸ hnode'⟩

/-- Below a node that has moved the nodes know their places as they did. -/
theorem assigned_moved {self : NodeData} {children : List SyntaxTree} {offset : Length}
    (h : (node self children).All Assigned) :
    (node { self with offset := offset } children).All Assigned :=
  all_iff.mpr ⟨h.root, fun _ hchild => h.child hchild⟩

/-- A node that has moved is settled as it was. -/
theorem settled_moved {next : ℕ} {self : NodeData} {children : List SyntaxTree} {offset : Length}
    (h : (node self children).All (Settled next)) :
    (node { self with offset := offset } children).All (Settled next) := by
  refine all_iff.mpr ⟨?_, fun child hchild => h.child hchild⟩
  obtain ⟨⟨hunmarked, haddress, hparent, hcounted, hpadded⟩, hlinked⟩ := h.root
  refine ⟨⟨hunmarked, haddress, hparent, fun hne => ?_, hpadded⟩, hlinked⟩
  have hcounted := hcounted hne
  simp only [relevantChildCount_tree, children_node] at hcounted ⊢
  exact hcounted

/-- **An edit keeps a document current** when it is right about the bytes of the edit. -/
theorem Current.edited {next : ℕ} {tree : SyntaxTree}
    (h : Current metric next tree (front ++ (removed ++ back)))
    (hedit : EditOf metric False edit front removed added)
    (hlt : metric.bytesOf (front ++ (removed ++ back)) + metric.bytesOf added < 2 ^ 32) :
    Current metric next (tree.edited edit) (front ++ (added ++ back)) := by
  have htree : (tree.edited edit).tree = tsDocumentEdit edit tree.tree :=
    tree_overlay (touched_tsDocumentEdit edit tree.tree)
  have hltText : metric.bytesOf (front ++ (removed ++ back)) < 2 ^ 32 := by omega
  -- the description is right about the bytes, so `ts_document_edit` cuts nothing off
  have hdocument : tsDocumentEdit edit tree.tree = tsTreeEdit edit tree.tree := by
    have htotal := h.fits.totalBytes_eq hltText
    simp only [Metric.bytesOf_append] at htotal
    rw [tsDocumentEdit, if_neg (by rw [hedit.startByte_eq]; omega),
      if_neg (by rw [hedit.startByte_eq, hedit.bytesRemoved_eq]; omega)]
  have hfits := fits_tsTreeEdit hedit hlt h.fits
  -- an unmarked node is an old one, but for its offset
  have hkept : ∀ node', HasNode (tree.edited edit) node' → node'.label.hasChanges = false →
      ∃ self children, HasNode tree (.node self children) ∧ self.hasChanges = false ∧
        node' = .node { self with offset := node'.label.offset } children := by
    intro node' hnode' hunmarked
    obtain ⟨⟨self, children⟩, hold, hchildren, hlabel⟩ :=
      overlay_unmarked (touched_tsDocumentEdit edit tree.tree) hnode' hunmarked
    refine ⟨self, children, hold, ?_, RoseTree.ext hlabel hchildren⟩
    rw [hlabel] at hunmarked
    exact hunmarked
  refine ⟨?_, fun position' node' hlocated hunmarked => ?_, fun node' hnode' hunmarked => ?_,
    fun node' hnode' hunmarked => ?_, fun node' hnode' hunmarked => ?_⟩
  · rw [htree, hdocument]
    exact hfits
  · rw [htree, hdocument] at hlocated
    -- what survives stands over what is the same text as before
    obtain ⟨position, old, hsurvives⟩ := survives_tsTreeEdit reach_totalBytes hedit hlt h.fits
      trivial hlocated hunmarked
    have hold : old.label.hasChanges = false := by
      rw [hsurvives.same, label_setOffset] at hunmarked
      exact hunmarked
    exact (h.stands position old hsurvives.located hold).edited hfits hlocated hltText hsurvives
  · obtain ⟨self, children, hold, hunmarked, hsame⟩ := hkept node' hnode' hunmarked
    rw [hsame]
    exact settled_moved (h.settled _ hold hunmarked)
  · obtain ⟨self, children, hold, hunmarked, hsame⟩ := hkept node' hnode' hunmarked
    rw [hsame]
    exact assigned_moved (h.assigned _ hold hunmarked)
  · obtain ⟨self, children, hold, hunmarked, hsame⟩ := hkept node' hnode' hunmarked
    have hknown := h.known _ hold hunmarked
    rw [hsame]
    exact all_iff.mpr ⟨⟨hknown.root.padding, hknown.root.size⟩, fun child hchild =>
      hknown.child hchild⟩

end Edited

end TreeSitterTextStorage
