import TreeSitterTextStorage.Runtime.Spans

/-! # Linking a finished tree

At the end of a parse `ts_tree_assign_parents` tells every node where it stands below its parent,
and skips the nodes that know it already because they come from an earlier tree. A tree is *settled*
below an address when everything in it was allocated below the address and what its nodes know of
their places is right; this is what all steps of a parse keep, and what makes skipping right. -/

namespace TreeSitterTextStorage

open RoseTree

/-! ## Assigning parents -/

mutual
/-- `ts_tree_assign_parents`. The source keeps the nodes to be visited on a path, in an order that
does not matter. -/
def tsTreeAssignParents : SyntaxTree → SyntaxTree
  | .node self children => .node self (assignParentsAmong self.address 0 Length.zero children)
/-- The loop of `ts_tree_assign_parents` over the children of the node at an address. -/
def assignParentsAmong (parent index : ℕ) (offset : Length) : List SyntaxTree → List SyntaxTree
  | [] => []
  | child :: rest =>
      assignParent parent index offset child ::
        assignParentsAmong parent (index + 1) (lengthAdd offset child.totalSize) rest
/-- One turn of the loop. -/
def assignParent (parent index : ℕ) (offset : Length) : SyntaxTree → SyntaxTree
  | .node self children =>
      if self.parent ≠ some parent ∨ self.index ≠ index then
        .node { self with parent := some parent, index := index, offset := offset }
          (assignParentsAmong self.address 0 Length.zero children)
      else .node self children
end

/-- The children of the node at an address know their places, from an index and an offset on. -/
def AssignedAmong (parent : ℕ) : ℕ → Length → List SyntaxTree → Prop
  | _, _, [] => True
  | index, offset, child :: rest =>
      (child.label.parent = some parent ∧ child.label.index = index ∧ child.label.offset = offset) ∧
        AssignedAmong parent (index + 1) (lengthAdd offset child.totalSize) rest

/-- The children of a node know their places. -/
def Assigned (tree : SyntaxTree) : Prop :=
  AssignedAmong tree.label.address 0 Length.zero tree.children

/-- A child that takes itself for a child of the node at an address is right, and so is everything
below it. -/
def LinkedAmong (parent : ℕ) : ℕ → Length → List SyntaxTree → Prop
  | _, _, [] => True
  | index, offset, child :: rest =>
      (child.label.parent = some parent → child.label.index = index →
        child.label.offset = offset ∧ child.All Assigned) ∧
        LinkedAmong parent (index + 1) (lengthAdd offset child.totalSize) rest

/-- A node as the constructors of a parse leave it, which has allocated up to an address. -/
structure Constructed (next : ℕ) (tree : SyntaxTree) : Prop where
  /-- The node is as it was built. -/
  unmarked : tree.label.hasChanges = false
  /-- The node was allocated below the address. -/
  address_lt : tree.label.address < next
  /-- So was every parent the node knows of. -/
  parent_lt : ∀ parent, tree.label.parent = some parent → parent < next
  /-- The counts of the node are those that handles compute. -/
  counted : tree.children ≠ [] →
    tree.label.visibleChildCount = relevantChildCount true tree.tree ∧
      tree.label.namedChildCount = relevantChildCount false tree.tree
  /-- The node has the padding of its first child. -/
  padded : ∀ first, tree.children.head? = some first → tree.label.padding = first.label.padding

/-- A node of a parse that has allocated up to an address. -/
structure Settled (next : ℕ) (tree : SyntaxTree) : Prop extends Constructed next tree where
  /-- The children that take themselves for children of the node are right. -/
  linked : LinkedAmong tree.label.address 0 Length.zero tree.children

theorem Settled.mono {next next' : ℕ} {tree : SyntaxTree} (h : Settled next tree)
    (hle : next ≤ next') : Settled next' tree :=
  { h with
    address_lt := Nat.lt_of_lt_of_le h.address_lt hle
    parent_lt := fun parent hparent => Nat.lt_of_lt_of_le (h.parent_lt parent hparent) hle }

/-- Nobody takes itself for a child of a node that is not allocated yet. -/
theorem linkedAmong_of_lt {next index : ℕ} {offset : Length} {children : List SyntaxTree}
    (h : ∀ child ∈ children, Settled next child) : LinkedAmong next index offset children := by
  induction children generalizing index offset with
  | nil => trivial
  | cons child rest ih =>
      refine ⟨fun hparent => ?_, ih fun child hchild => h child (List.mem_cons_of_mem _ hchild)⟩
      exact absurd ((h child List.mem_cons_self).parent_lt next hparent) (Nat.lt_irrefl next)

/-! ## Assigning parents is right -/

@[simp] theorem totalSize_assignParent (parent index : ℕ) (offset : Length) (tree : SyntaxTree) :
    (assignParent parent index offset tree).totalSize = tree.totalSize := by
  obtain ⟨self, children⟩ := tree
  rw [assignParent]
  split <;> rfl

@[simp] theorem padding_assignParent (parent index : ℕ) (offset : Length) (tree : SyntaxTree) :
    (assignParent parent index offset tree).label.padding = tree.label.padding := by
  obtain ⟨self, children⟩ := tree
  rw [assignParent]
  split <;> rfl

/-- **Every node knows its place** behind `ts_tree_assign_parents`, the nodes that were skipped
included. -/
theorem all_assigned_assignParents {next : ℕ} {tree : SyntaxTree} (h : tree.All (Settled next)) :
    (tsTreeAssignParents tree).All Assigned := by
  -- the children of a node, from any index and offset on
  have hamong : ∀ (children : List SyntaxTree), (∀ child ∈ children, child.All (Settled next) ∧
      (tsTreeAssignParents child).All Assigned) → ∀ parent index offset,
      LinkedAmong parent index offset children →
        AssignedAmong parent index offset (assignParentsAmong parent index offset children) ∧
          ∀ child ∈ assignParentsAmong parent index offset children, child.All Assigned := by
    intro children
    induction children with
    | nil => exact fun _ parent index offset _ =>
      ⟨trivial, fun child hchild => absurd hchild List.not_mem_nil⟩
    | cons child rest ihRest =>
        intro hall parent index offset hlinked
        obtain ⟨hchild, hrest⟩ := hlinked
        obtain ⟨hassigned, hbelow⟩ := ihRest (fun c hc => hall c (List.mem_cons_of_mem _ hc)) parent
          (index + 1) (lengthAdd offset child.totalSize) hrest
        have hplaced : ((assignParent parent index offset child).label.parent = some parent ∧
            (assignParent parent index offset child).label.index = index ∧
            (assignParent parent index offset child).label.offset = offset) ∧
            (assignParent parent index offset child).All Assigned := by
          have hown := (hall child List.mem_cons_self).2
          obtain ⟨self, grandchildren⟩ := child
          rw [assignParent]
          split
          · exact ⟨⟨rfl, rfl, rfl⟩, all_iff.mpr ⟨hown.root, fun c hc => hown.child hc⟩⟩
          · next hskip =>
              rw [not_or, not_not, not_not] at hskip
              obtain ⟨hoffset, hdone⟩ := hchild hskip.1 hskip.2
              exact ⟨⟨hskip.1, hskip.2, hoffset⟩, hdone⟩
        rw [assignParentsAmong]
        refine ⟨⟨hplaced.1, ?_⟩, fun c hc => ?_⟩
        · rwa [totalSize_assignParent]
        · rcases List.mem_cons.mp hc with rfl | hc
          · exact hplaced.2
          · exact hbelow c hc
  induction tree using RoseTree.induct with
  | node self children ih =>
      have hsettled := h.root
      obtain ⟨hassigned, hbelow⟩ := hamong children
        (fun child hchild => ⟨h.child hchild, ih child hchild (h.child hchild)⟩)
        self.address 0 Length.zero hsettled.linked
      rw [tsTreeAssignParents]
      exact all_iff.mpr ⟨hassigned, hbelow⟩

/-- **What holds of every node** still does behind `ts_tree_assign_parents`, when it goes on to hold
of a node that is told its place. -/
theorem all_assignParents {p : SyntaxTree → Prop}
    (hp : ∀ {self : NodeData} {children : List SyntaxTree} {place : Option ℕ} (index : ℕ)
      (offset : Length),
      p (.node self children) →
      (place = self.parent ∨ ∃ above, p above ∧ place = some above.label.address) →
      p (.node { self with parent := place, index := index, offset := offset }
        (assignParentsAmong self.address 0 Length.zero children)))
    {tree : SyntaxTree} (h : tree.All p) : (tsTreeAssignParents tree).All p := by
  -- a node at any place
  suffices hplaced : ∀ (place : Option ℕ) (index : ℕ) (offset : Length),
      (place = tree.label.parent ∨ ∃ above, p above ∧ place = some above.label.address) →
        (node { tree.label with parent := place, index := index, offset := offset }
          (assignParentsAmong tree.label.address 0 Length.zero tree.children)).All p by
    obtain ⟨self, children⟩ := tree
    exact hplaced self.parent self.index self.offset (Or.inl rfl)
  induction tree using RoseTree.induct with
  | node self children ih =>
      intro place index offset hplace
      refine all_iff.mpr ⟨hp index offset h.root hplace, ?_⟩
      rw [children_node]
      suffices hamong : ∀ (cs : List SyntaxTree), (∀ c ∈ cs, c ∈ children) → ∀ index offset,
          ∀ c ∈ assignParentsAmong self.address index offset cs, c.All p from
        hamong children (fun c hc => hc) 0 Length.zero
      intro cs
      induction cs with
      | nil => exact fun _ index offset c hc => absurd hc List.not_mem_nil
      | cons child rest ihRest =>
          intro hsub index offset c hc
          have hmem := hsub child List.mem_cons_self
          rw [assignParentsAmong] at hc
          rcases List.mem_cons.mp hc with rfl | hc
          · have hchild := ih child hmem (h.child hmem) (some self.address) index offset
              (Or.inr ⟨_, h.root, rfl⟩)
            obtain ⟨childSelf, grandchildren⟩ := child
            rw [assignParent]
            split
            · exact hchild
            · exact h.child hmem
          · exact ihRest (fun c hc => hsub c (List.mem_cons_of_mem _ hc)) _ _ c hc

/-- A node counts its children. -/
theorem relevantChildCount_tree (includeAnonymous : Bool) (tree : SyntaxTree) :
    relevantChildCount includeAnonymous tree.tree =
      relevantCount includeAnonymous (tree.children.map SyntaxTree.tree) := by
  obtain ⟨self, children⟩ := tree
  rw [SyntaxTree.tree, map, mapList_eq]
  rfl

/-- Nodes count the same children whatever they know of their places. -/
theorem relevantCount_assignParents (includeAnonymous : Bool) (tree : SyntaxTree) (parent index : ℕ)
    (offset : Length) :
    relevantCount includeAnonymous
        ((assignParentsAmong parent index offset tree.children).map SyntaxTree.tree) =
      relevantCount includeAnonymous (tree.children.map SyntaxTree.tree) := by
  induction tree using RoseTree.induct generalizing parent index offset with
  | node self children ih =>
      rw [children_node]
      clear self
      induction children generalizing index offset with
      | nil => rfl
      | cons child rest ihRest =>
          have hchild := ih child List.mem_cons_self child.label.address 0 Length.zero
          rw [assignParentsAmong, List.map_cons, List.map_cons, relevantCount, relevantCount,
            ihRest fun c hc => ih c (List.mem_cons_of_mem _ hc)]
          congr 1
          obtain ⟨childSelf, grandchildren⟩ := child
          rw [assignParent]
          split
          · rw [relevantChildCount_tree, relevantChildCount_tree, SyntaxTree.label_tree,
              SyntaxTree.label_tree]
            exact congrArg (fun count => if childSelf.visible then
              if includeAnonymous || childSelf.named then 1 else 0 else count) hchild
          · rfl

/-- Nodes that know their places are right when they say so. -/
theorem AssignedAmong.linked {parent index : ℕ} {offset : Length} {children : List SyntaxTree}
    (h : AssignedAmong parent index offset children)
    (hall : ∀ child ∈ children, child.All Assigned) : LinkedAmong parent index offset children := by
  induction children generalizing index offset with
  | nil => trivial
  | cons child rest ih =>
      obtain ⟨⟨-, -, hoffset⟩, hrest⟩ := h
      exact ⟨fun _ _ => ⟨hoffset, hall child List.mem_cons_self⟩,
        ih hrest fun c hc => hall c (List.mem_cons_of_mem _ hc)⟩

/-- **A settled tree** is settled behind `ts_tree_assign_parents`. -/
theorem all_settled_assignParents {next : ℕ} {tree : SyntaxTree} (h : tree.All (Settled next)) :
    (tsTreeAssignParents tree).All (Settled next) := by
  have hassigned := all_assigned_assignParents h
  have hconstructed : (tsTreeAssignParents tree).All (Constructed next) := by
    refine all_assignParents ?_ (h.imp fun _ hv => hv.toConstructed)
    intro self children place index offset hnode hplace
    refine ⟨hnode.unmarked, hnode.address_lt, fun parent hparent => ?_, fun hne =>
      ?_, fun first hfirst => ?_⟩
    · -- a new parent is a node of the tree
      rcases hplace with hsame | ⟨above, habove, hsome⟩
      · exact hnode.parent_lt parent (hsame.symm.trans hparent)
      · rw [label_node] at hparent
        rw [hsome, Option.some.injEq] at hparent
        exact hparent ▸ habove.address_lt
    · -- the counts do not depend on places
      have hchildren : children ≠ [] := by
        rintro rfl
        exact hne rfl
      have hcount : ∀ includeAnonymous, relevantChildCount includeAnonymous
          (SyntaxTree.tree (.node { self with parent := place, index := index, offset := offset }
            (assignParentsAmong self.address 0 Length.zero children))) =
            relevantChildCount includeAnonymous (SyntaxTree.tree (.node self children)) := by
        intro includeAnonymous
        rw [relevantChildCount_tree, relevantChildCount_tree]
        exact relevantCount_assignParents includeAnonymous (.node self children) self.address
          0 Length.zero
      obtain ⟨hvisible, hnamed⟩ := hnode.counted hchildren
      exact ⟨hvisible.trans (hcount true).symm, hnamed.trans (hcount false).symm⟩
    · cases children with
      | nil => exact absurd hfirst (Option.some_ne_none first).symm
      | cons child rest =>
          rw [children_node, assignParentsAmong, List.head?_cons, Option.some.injEq] at hfirst
          rw [← hfirst, padding_assignParent]
          exact hnode.padded child rfl
  intro v hv
  exact ⟨hconstructed v hv, (hassigned v hv).linked fun child hchild =>
    (hassigned.all v hv).child hchild⟩

section Fits

variable {α : Type} {metric : Metric α}

/-- Assigning parents leaves what a tree spans. -/
theorem spans_assignParents {tree : SyntaxTree} {text : List α} (h : Spans metric tree text) :
    Spans metric (tsTreeAssignParents tree) text := by
  -- places are not part of what a tree spans; this carries it through the children
  have hamong : ∀ (children : List SyntaxTree),
      (∀ child ∈ children, ∀ text, Spans metric child text →
      Spans metric (tsTreeAssignParents child) text) → ∀ parent index offset text,
      SpanAmong metric children text → SpanAmong metric
      (assignParentsAmong parent index offset children) text := by
    intro children
    induction children with
    | nil => exact fun _ parent index offset text hspan => hspan
    | cons child rest ihRest =>
        intro hall parent index offset text hspan
        rw [SpanAmong] at hspan
        obtain ⟨front, back, rfl, hchild, hrest⟩ := hspan
        rw [assignParentsAmong, SpanAmong]
        refine ⟨front, back, rfl, ?_, ihRest (fun c hc =>
          hall c (List.mem_cons_of_mem _ hc)) _ _ _ _ hrest⟩
        have hown := hall child List.mem_cons_self front hchild
        obtain ⟨self, grandchildren⟩ := child
        rw [assignParent]
        -- a child that knows its place is left alone
        split
        · rw [tsTreeAssignParents] at hown
          exact (spans_node_congr rfl rfl).mp hown
        · exact hchild
  induction tree using RoseTree.induct generalizing text with
  | node self children ih =>
      rw [tsTreeAssignParents, Spans]
      rw [Spans] at h
      refine ⟨h.1, fun hne => hamong children (fun c hc text hspan => ih c hc hspan) _ _
        _ _ (h.2 ?_)⟩
      rintro rfl
      exact hne rfl

/-- The first of some children behind a piece of a text knows the piece, and the others stand behind
its own text. -/
theorem AssignedAmong.behind {parent index : ℕ} {passed own : List α} {child : SyntaxTree}
    {rest : List SyntaxTree} (h : AssignedAmong parent index (metric.lengthOf passed)
      (child :: rest))
    (hchild : Spans metric child own) (hlt : metric.bytesOf (passed ++ own) < 2 ^ 32) :
    child.label.offset = metric.lengthOf passed ∧
      AssignedAmong parent (index + 1) (metric.lengthOf (passed ++ own)) rest := by
  obtain ⟨⟨-, -, hoffset⟩, hrest⟩ := h
  rw [hchild.totalSize_eq (metric.bytesOf_right_lt hlt), metric.lengthAdd_lengthOf hlt] at hrest
  exact ⟨hoffset, hrest⟩

/-- **A tree that spans a text fits it** when its nodes know their places. -/
theorem Spans.fits {tree : SyntaxTree} {text : List α} (h : Spans metric tree text)
    (hassigned : tree.All Assigned) (hlt : metric.bytesOf text < 2 ^ 32) :
    Fits metric True tree.tree text := by
  have hmeasures : ∀ {len : Length} {text : List α}, len = metric.lengthOf text →
      Measures metric True len text := by
    rintro len text rfl
    exact ⟨rfl, fun _ => Or.inl rfl, fun _ => rfl⟩
  induction tree using RoseTree.induct generalizing text with
  | node self children ih =>
      have hplaces := hassigned.root
      rw [Spans] at h
      obtain ⟨⟨front, content, htext, hpadding, hsize⟩, hchildren⟩ := h
      rw [SyntaxTree.tree, map, mapList_eq, Fits]
      refine ⟨⟨front, content, htext, hmeasures hpadding, hmeasures hsize⟩, fun hne => ?_⟩
      -- the children, behind any piece of the text
      suffices hamong : ∀ (cs : List SyntaxTree), (∀ c ∈ cs, c ∈ children) →
          ∀ parent index passed text, metric.bytesOf (passed ++ text) < 2 ^ 32 →
          AssignedAmong parent index (metric.lengthOf passed) cs → SpanAmong metric cs text →
            FitsAmong metric True passed (cs.map (map NodeData.toTreeData)) text by
        refine hamong children (fun c hc => hc) _ 0 [] text hlt hplaces (hchildren ?_)
        rintro rfl
        exact hne rfl
      intro cs
      induction cs with
      | nil => exact fun _ parent index passed text _ _ hspan => hspan
      | cons child rest ihRest =>
          intro hsub parent index passed text hlt hplaced hspan
          rw [SpanAmong] at hspan
          obtain ⟨front, back, rfl, hchild, hrest⟩ := hspan
          rw [← List.append_assoc] at hlt
          have hltFront := metric.bytesOf_left_lt hlt
          obtain ⟨hoffset, hplacedRest⟩ := hplaced.behind hchild hltFront
          rw [List.map_cons, FitsAmong]
          refine ⟨front, back, rfl, ?_, ?_, ?_⟩
          · rw [label_map]
            exact hmeasures hoffset
          · have hmem := hsub child List.mem_cons_self
            exact ih child hmem hchild (hassigned.child hmem) (metric.bytesOf_right_lt hltFront)
          · exact ihRest (fun c hc => hsub c (List.mem_cons_of_mem _ hc)) _ _ _ _ hlt
              hplacedRest hrest

end Fits

/-! ## The trees of a parse -/

section Built

variable {α : Type} (metric : Metric α)

/-- A tree of a parse that has allocated up to an address: it spans a text and is settled. -/
structure Built (next : ℕ) (tree : SyntaxTree) (text : List α) : Prop where
  /-- The tree spans the text. -/
  spans : Spans metric tree text
  /-- The nodes of the tree are settled. -/
  settled : tree.All (Settled next)

/-- Trees of a parse that span a text together. -/
structure BuiltAmong (next : ℕ) (trees : List SyntaxTree) (text : List α) : Prop where
  /-- The trees span the text. -/
  spans : SpanAmong metric trees text
  /-- The nodes of the trees are settled. -/
  settled : ∀ tree ∈ trees, tree.All (Settled next)

variable {metric} {next next' : ℕ} {tree : SyntaxTree} {trees trees' : List SyntaxTree}
  {text : List α}

theorem Built.mono (h : Built metric next tree text) (hle : next ≤ next') :
    Built metric next' tree text :=
  ⟨h.spans, h.settled.imp fun _ hv => hv.mono hle⟩

theorem BuiltAmong.mono (h : BuiltAmong metric next trees text) (hle : next ≤ next') :
    BuiltAmong metric next' trees text :=
  ⟨h.spans, fun _ htree => (h.settled _ htree).imp fun _ hv => hv.mono hle⟩

theorem builtAmong_nil : BuiltAmong metric next [] ([] : List α) :=
  ⟨rfl, fun _ htree => absurd htree List.not_mem_nil⟩

theorem builtAmong_singleton : BuiltAmong metric next [tree] text ↔
    Built metric next tree text := by
  constructor
  · intro h
    exact ⟨spanAmong_singleton.mp h.spans, h.settled tree (List.mem_singleton_self tree)⟩
  · intro h
    refine ⟨spanAmong_singleton.mpr h.spans, fun tree' htree' => ?_⟩
    rw [List.mem_singleton.mp htree']
    exact h.settled

theorem builtAmong_append : BuiltAmong metric next (trees ++ trees') text ↔
    ∃ front back, text = front ++ back ∧ BuiltAmong metric next trees front ∧
      BuiltAmong metric next trees' back := by
  constructor
  · rintro ⟨hspan, hsettled⟩
    obtain ⟨front, back, htext, hfront, hback⟩ := spanAmong_append.mp hspan
    exact ⟨front, back, htext, ⟨hfront, fun tree htree =>
      hsettled tree (List.mem_append_left _ htree)⟩,
      ⟨hback, fun tree htree => hsettled tree (List.mem_append_right _ htree)⟩⟩
  · rintro ⟨front, back, htext, hfront, hback⟩
    refine ⟨spanAmong_append.mpr ⟨front, back, htext, hfront.spans, hback.spans⟩,
      fun tree htree => ?_⟩
    rcases List.mem_append.mp htree with htree | htree
    · exact hfront.settled tree htree
    · exact hback.settled tree htree

theorem builtAmong_cons : BuiltAmong metric next (tree :: trees) text ↔
    ∃ front back, text = front ++ back ∧ Built metric next tree front ∧
      BuiltAmong metric next trees back := by
  have happend := @builtAmong_append α metric next [tree] trees text
  rw [List.singleton_append] at happend
  simp only [happend, builtAmong_singleton]

/-- The children of a tree of a parse. -/
theorem Built.children (h : Built metric next tree text) (hne : tree.children ≠ []) :
    BuiltAmong metric next tree.children text :=
  ⟨h.spans.children hne, fun _ hchild => h.settled.child hchild⟩

/-- A tree without children is settled when its root is. -/
theorem Built.of_leaf {self : NodeData} (hspans : Spans metric (.node self []) text)
    (hunmarked : self.hasChanges = false) (haddress : self.address < next)
    (hparent : self.parent = none) : Built metric next (.node self []) text := by
  refine ⟨hspans, all_iff.mpr ⟨⟨⟨hunmarked, haddress, fun parent h => ?_, fun hne => absurd rfl hne,
    fun first hfirst => absurd hfirst (Option.some_ne_none first).symm⟩, trivial⟩,
      fun child hchild => absurd hchild List.not_mem_nil⟩⟩
  rw [label_node, hparent] at h
  exact absurd h (Option.some_ne_none parent).symm

/-- Fields that say nothing about lengths, places and counts do not matter. -/
theorem Built.congr {self self' : NodeData} {children : List SyntaxTree}
    (h : Built metric next (.node self children) text) (hpadding : self.padding = self'.padding)
    (hsize : self.size = self'.size) (hunmarked : self.hasChanges = self'.hasChanges)
    (haddress : self.address = self'.address) (hparent : self.parent = self'.parent)
    (hvisible : self.visibleChildCount = self'.visibleChildCount)
    (hnamed : self.namedChildCount = self'.namedChildCount) :
    Built metric next (.node self' children) text := by
  have hroot := h.settled.root
  refine ⟨(spans_node_congr hpadding hsize).mp h.spans,
    all_iff.mpr ⟨?_, fun c hc => h.settled.child hc⟩⟩
  obtain ⟨⟨h1, h2, h3, h4, h5⟩, h6⟩ := hroot
  simp only [label_node, children_node] at h1 h2 h3 h4 h5 h6
  refine ⟨⟨hunmarked ▸ h1, haddress ▸ h2, hparent ▸ h3, fun hne => ?_, hpadding ▸ h5⟩,
    haddress ▸ h6⟩
  simp only [label_node, ← hvisible, ← hnamed]
  exact h4 hne

/-! ### Counts -/

/-- What a child contributes to the counts of its parent. -/
theorem countChild_spec {self : NodeData} {child : SyntaxTree} (h : Settled next child) :
    (countChild self child).visibleChildCount =
        self.visibleChildCount + (if child.label.visible then 1
          else relevantChildCount true child.tree) ∧
      (countChild self child).namedChildCount =
        self.namedChildCount + (if child.label.visible then if child.label.named then 1 else 0
          else relevantChildCount false child.tree) := by
  unfold countChild
  by_cases hvisible : child.label.visible
  · simp only [if_pos hvisible]
    refine ⟨trivial, ?_⟩
    split <;> rfl
  · simp only [if_neg hvisible]
    by_cases hchildren : child.children.length > 0
    · obtain ⟨htrue, hfalse⟩ := h.counted (List.ne_nil_of_length_pos hchildren)
      simp only [if_pos hchildren, htrue, hfalse]
      exact ⟨trivial, trivial⟩
    · -- a hidden leaf contributes nothing
      obtain ⟨childSelf, grandchildren⟩ := child
      rw [children_node, gt_iff_lt, Nat.not_lt, Nat.le_zero, List.length_eq_zero_iff] at hchildren
      subst hchildren
      exact ⟨rfl, rfl⟩

/-- A turn of the loop of `ts_tree_set_children` changes counts only by counting the child. -/
theorem counts_takeChild (first : Bool) (self : NodeData) (child : SyntaxTree) :
    (takeChild first self child).visibleChildCount = (countChild self child).visibleChildCount ∧
      (takeChild first self child).namedChildCount = (countChild self child).namedChildCount := by
  cases first <;> simp only [takeChild, measureChild, countChild, if_true,
    Bool.false_eq_true, if_false]
  all_goals
    constructor
    all_goals
      split
      · split
        · rfl
        · split <;> rfl
      · split
        · rfl
        · split <;> rfl

/-- The loop of `ts_tree_set_children` counts the children. -/
theorem counts_foldl_takeChild {children : List SyntaxTree} {self : NodeData}
    (h : ∀ child ∈ children, Settled next child) :
    (children.foldl (takeChild false) self).visibleChildCount =
        self.visibleChildCount + relevantCount true (children.map SyntaxTree.tree) ∧
      (children.foldl (takeChild false) self).namedChildCount =
        self.namedChildCount + relevantCount false (children.map SyntaxTree.tree) := by
  induction children generalizing self with
  | nil => exact ⟨rfl, rfl⟩
  | cons child rest ih =>
      obtain ⟨hvisible, hnamed⟩ := @ih (takeChild false self child)
        fun c hc => h c (List.mem_cons_of_mem _ hc)
      obtain ⟨hv, hn⟩ := counts_takeChild false self child
      obtain ⟨hv', hn'⟩ := @countChild_spec next self child (h child List.mem_cons_self)
      rw [List.foldl_cons, hvisible, hnamed, hv, hn, hv', hn', List.map_cons, relevantCount,
        relevantCount]
      have hlabel : child.tree.label = child.label.toTreeData := label_map _ _
      rw [hlabel]
      constructor
      · rw [Nat.add_assoc]
        rfl
      · rw [Nat.add_assoc]
        rfl

/-! ### Nodes -/

/-- A new node with built children. -/
theorem Built.of_children {self : NodeData} {children : List SyntaxTree}
    (hspans : Spans metric (.node self children) text)
    (hchildren : ∀ child ∈ children, child.All (Settled next)) (hunmarked : self.hasChanges = false)
    (haddress : self.address = next) (hparent : ∀ parent, self.parent = some parent → parent < next)
    (hcounted : children ≠ [] →
      self.visibleChildCount = relevantCount true (children.map SyntaxTree.tree) ∧
        self.namedChildCount = relevantCount false (children.map SyntaxTree.tree))
    (hpadded : ∀ first, children.head? = some first → self.padding = first.label.padding) :
    Built metric (next + 1) (.node self children) text := by
  refine ⟨hspans, all_iff.mpr ⟨⟨⟨hunmarked, ?_, fun parent h => ?_, fun hne => ?_, hpadded⟩, ?_⟩,
    fun child hchild =>
    (hchildren child hchild).imp fun _ hv => hv.mono (Nat.le_succ next)⟩⟩
  · exact Nat.lt_succ_of_le (Nat.le_of_eq haddress)
  · exact Nat.lt_succ_of_lt (hparent parent h)
  · rw [SyntaxTree.tree, map, mapList_eq]
    exact hcounted hne
  · rw [label_node, haddress]
    exact linkedAmong_of_lt fun child hchild => (hchildren child hchild).root

/-- The loop of `ts_tree_set_children` leaves a node where it is. -/
theorem identity_takeChild (first : Bool) (self : NodeData) (child : SyntaxTree) :
    (takeChild first self child).address = self.address ∧
      (takeChild first self child).parent = self.parent ∧
      (takeChild first self child).hasChanges = self.hasChanges := by
  have hcount : ∀ self : NodeData, (countChild self child).address = self.address ∧
      (countChild self child).parent = self.parent := by
    intro self
    unfold countChild
    split
    · exact ⟨rfl, rfl⟩
    · split <;> exact ⟨rfl, rfl⟩
  have hmeasure : (measureChild first self child).address = self.address ∧
      (measureChild first self child).parent = self.parent ∧
      (measureChild first self child).hasChanges = self.hasChanges := by
    unfold measureChild
    split <;> exact ⟨rfl, rfl, rfl⟩
  refine ⟨?_, ?_, ?_⟩
  · unfold takeChild
    split <;> exact (hcount _).1.trans hmeasure.1
  · unfold takeChild
    split <;> exact (hcount _).2.trans hmeasure.2.1
  · rw [toTreeData_takeChild]
    exact hmeasure.2.2

theorem identity_takeChildren (self : NodeData) (children : List SyntaxTree) :
    (takeChildren self children).address = self.address ∧
      (takeChildren self children).parent = self.parent ∧
      (takeChildren self children).hasChanges = self.hasChanges := by
  have hfold : ∀ (rest : List SyntaxTree) (self : NodeData),
      (rest.foldl (takeChild false) self).address = self.address ∧
        (rest.foldl (takeChild false) self).parent = self.parent ∧
        (rest.foldl (takeChild false) self).hasChanges = self.hasChanges := by
    intro rest
    induction rest with
    | nil => exact fun self => ⟨rfl, rfl, rfl⟩
    | cons child rest ih =>
        intro self
        obtain ⟨h1, h2, h3⟩ := identity_takeChild false self child
        obtain ⟨h1', h2', h3'⟩ := ih (takeChild false self child)
        exact ⟨h1'.trans h1, h2'.trans h2, h3'.trans h3⟩
  cases children with
  | nil => exact ⟨rfl, rfl, rfl⟩
  | cons child rest =>
      obtain ⟨h1, h2, h3⟩ := identity_takeChild true self child
      obtain ⟨h1', h2', h3'⟩ := hfold rest (takeChild true self child)
      exact ⟨h1'.trans h1, h2'.trans h2, h3'.trans h3⟩

/-- What `ts_tree_set_children` leaves of a node: its identity, and the counts of its children. -/
theorem identity_setChildren (self : NodeData) {children : List SyntaxTree}
    (h : ∀ child ∈ children, Settled next child) :
    (tsTreeSetChildren self children).label.address = self.address ∧
      (tsTreeSetChildren self children).label.parent = self.parent ∧
      (tsTreeSetChildren self children).label.hasChanges = self.hasChanges ∧
      (tsTreeSetChildren self children).label.visibleChildCount =
        relevantCount true (children.map SyntaxTree.tree) ∧
      (tsTreeSetChildren self children).label.namedChildCount =
        relevantCount false (children.map SyntaxTree.tree) := by
  set started : NodeData :=
    { self with namedChildCount := 0, visibleChildCount := 0, errorCost := 0 } with hstarted
  have hends : ∀ self : NodeData, (takeEnds self children).address = self.address ∧
      (takeEnds self children).parent = self.parent ∧
      (takeEnds self children).visibleChildCount = self.visibleChildCount ∧
      (takeEnds self children).namedChildCount = self.namedChildCount := by
    intro self
    unfold takeEnds
    split <;> exact ⟨rfl, rfl, rfl, rfl⟩
  have hcounts : (takeChildren started children).visibleChildCount =
      relevantCount true (children.map SyntaxTree.tree) ∧
      (takeChildren started children).namedChildCount =
        relevantCount false (children.map SyntaxTree.tree) := by
    cases children with
    | nil => exact ⟨rfl, rfl⟩
    | cons child rest =>
        obtain ⟨hv, hn⟩ := counts_takeChild true started child
        obtain ⟨hv', hn'⟩ := @countChild_spec next started child (h child List.mem_cons_self)
        obtain ⟨hvs, hns⟩ := @counts_foldl_takeChild next rest (takeChild true started child)
          fun c hc => h c (List.mem_cons_of_mem _ hc)
        have hlabel : child.tree.label = child.label.toTreeData := label_map _ _
        rw [takeChildren, hvs, hns, hv, hn, hv', hn', List.map_cons, relevantCount,
          relevantCount, hlabel]
        exact ⟨by rw [hstarted, Nat.zero_add]; rfl, by rw [hstarted, Nat.zero_add]; rfl⟩
  obtain ⟨haddress, hparent, hunmarked⟩ := identity_takeChildren started children
  rw [toTreeData_setChildren, ← hstarted]
  rw [tsTreeSetChildren, label_node, ← hstarted]
  refine ⟨?_, ?_, hunmarked, ?_, ?_⟩
  · rw [(hends _).1]
    split <;> exact haddress
  · rw [(hends _).2.1]
    split <;> exact hparent
  · rw [(hends _).2.2.1]
    split <;> exact hcounts.1
  · rw [(hends _).2.2.2]
    split <;> exact hcounts.2

/-- **Setting the children** of a new node builds it. -/
theorem built_setChildren {self : NodeData} {children : List SyntaxTree}
    (h : BuiltAmong metric next children text) (hne : children ≠ [])
    (hlt : metric.bytesOf text < 2 ^ 32)
    (hunmarked : self.hasChanges = false) (haddress : self.address = next)
    (hparent : ∀ parent, self.parent = some parent → parent < next) :
    Built metric (next + 1) (tsTreeSetChildren self children) text := by
  obtain ⟨h1, h2, h3, h4⟩ := identity_setChildren self fun child hchild =>
    (h.settled child hchild).root
  exact Built.of_children (spans_setChildren h.spans hne hlt) h.settled (h3.trans hunmarked)
    (h1.trans haddress) (fun parent hp => hparent parent (h2 ▸ hp)) (fun _ => h4)
    fun _ => padding_setChildren

/-- **`ts_tree_make_node`** builds a node. -/
theorem built_makeNode {symbol : UInt16} {children : List SyntaxTree} {metadata : TSSymbolMetadata}
    (h : BuiltAmong metric next children text) (hlt : metric.bytesOf text < 2 ^ 32) :
    Built metric (next + 1) (tsTreeMakeNode next symbol children metadata) text := by
  obtain ⟨h1, h2, h3, h4⟩ := identity_setChildren
    (tsTreeMakeLeaf next symbol Length.zero Length.zero metadata).label
    fun child hchild => (h.settled child hchild).root
  exact Built.of_children (spans_makeNode h.spans hlt) h.settled h3 h1
    (fun parent hp => absurd (h2.symm.trans hp) (Option.some_ne_none parent).symm) (fun _ => h4)
    fun _ => padding_setChildren

/-- Error nodes give way to their children, which are built as well. -/
theorem builtAmong_spliceErrors (h : BuiltAmong metric next trees text) :
    BuiltAmong metric next (spliceErrors trees) text := by
  refine ⟨spanAmong_spliceErrors h.spans, fun tree htree => ?_⟩
  obtain ⟨child, hchild, htree⟩ := List.mem_flatMap.mp htree
  split at htree
  · exact (h.settled child hchild).child htree
  · rw [List.mem_singleton.mp htree]
    exact h.settled child hchild

/-- `ts_tree_make_error_node` builds a node. -/
theorem built_makeErrorNode (h : BuiltAmong metric next trees text)
    (hlt : metric.bytesOf text < 2 ^ 32) :
    Built metric (next + 1) (tsTreeMakeErrorNode next trees) text := by
  have hnode := @built_makeNode _ metric next text tsBuiltinSymError _
    { visible := true, named := true, structural := false, extra := false }
    (builtAmong_spliceErrors h) hlt
  exact hnode.congr rfl rfl rfl rfl rfl rfl rfl

/-- `ts_tree_make_copy` builds a node. -/
theorem built_makeCopy (h : Built metric next tree text) :
    Built metric (next + 1) (tsTreeMakeCopy next tree) text := by
  obtain ⟨self, children⟩ := tree
  have hroot := h.settled.root
  refine Built.of_children ((spans_node_congr rfl rfl).mp h.spans)
    (fun child hchild => h.settled.child hchild) hroot.unmarked rfl hroot.parent_lt
    (fun hne => ?_) hroot.padded
  have hcounted := hroot.counted hne
  rw [SyntaxTree.tree, map, mapList_eq] at hcounted
  exact hcounted

/-- `ts_tree_make_leaf` builds a node. -/
theorem built_makeLeaf {sym : UInt16} {front content : List α} {metadata : TSSymbolMetadata} :
    Built metric (next + 1)
      (tsTreeMakeLeaf next sym (metric.lengthOf front) (metric.lengthOf content) metadata)
      (front ++ content) :=
  Built.of_leaf spans_makeLeaf rfl (Nat.lt_succ_self next) rfl

/-- `ts_tree_make_error` builds a node. -/
theorem built_makeError {front content : List α} {lookaheadChar : ℤ} :
    Built metric (next + 1)
      (tsTreeMakeError next (metric.lengthOf content) (metric.lengthOf front) lookaheadChar)
      (front ++ content) :=
  Built.of_leaf spans_makeError rfl (Nat.lt_succ_self next) rfl

end Built

/-! ## Trees that lead through a text -/

section Leads

variable {α : Type} (metric : Metric α) (text : List α)

/-- A tree of a parse leads from one position of a text to another: it spans what lies
between them. -/
def Leads (next : ℕ) (p q : Length) (tree : SyntaxTree) : Prop :=
  ∃ own, Stretch metric text p q own ∧ Built metric next tree own

/-- Trees of a parse lead from one position of a text to another, one behind the other. -/
def LeadAmong (next : ℕ) (p q : Length) (trees : List SyntaxTree) : Prop :=
  ∃ own, Stretch metric text p q own ∧ BuiltAmong metric next trees own

variable {metric text} {next next' : ℕ} {p q : Length} {tree : SyntaxTree}
  {trees trees' : List SyntaxTree}

theorem Leads.mono (h : Leads metric text next p q tree) (hle : next ≤ next') :
    Leads metric text next' p q tree := by
  obtain ⟨own, hown, hbuilt⟩ := h
  exact ⟨own, hown, hbuilt.mono hle⟩

theorem LeadAmong.mono (h : LeadAmong metric text next p q trees) (hle : next ≤ next') :
    LeadAmong metric text next' p q trees := by
  obtain ⟨own, hown, hbuilt⟩ := h
  exact ⟨own, hown, hbuilt.mono hle⟩

/-- No trees lead nowhere. -/
theorem leadAmong_nil_iff : LeadAmong metric text next p q [] ↔ p = q ∧
    Stretch metric text p p [] := by
  constructor
  · rintro ⟨own, hown, hbuilt⟩
    obtain rfl : own = [] := hbuilt.spans
    have hstart := hown.start
    obtain ⟨front, back, -, rfl, rfl⟩ := hown
    rw [List.append_nil] at *
    exact ⟨rfl, hstart⟩
  · rintro ⟨rfl, hstop⟩
    exact ⟨[], hstop, builtAmong_nil⟩

theorem leadAmong_singleton : LeadAmong metric text next p q [tree] ↔
    Leads metric text next p q tree := by
  simp only [LeadAmong, Leads, builtAmong_singleton]

/-- Trees lead on where others have led to. -/
theorem leadAmong_append : LeadAmong metric text next p q (trees ++ trees') ↔
    ∃ r, LeadAmong metric text next p r trees ∧ LeadAmong metric text next r q trees' := by
  constructor
  · rintro ⟨own, hown, hbuilt⟩
    obtain ⟨front, back, rfl, hfront, hback⟩ := builtAmong_append.mp hbuilt
    obtain ⟨r, hp, hq⟩ := hown.split
    exact ⟨r, ⟨front, hp, hfront⟩, ⟨back, hq, hback⟩⟩
  · rintro ⟨r, ⟨front, hp, hfront⟩, ⟨back, hq, hback⟩⟩
    exact ⟨front ++ back, hp.trans hq, builtAmong_append.mpr ⟨front, back, rfl, hfront, hback⟩⟩

theorem leadAmong_cons : LeadAmong metric text next p q (tree :: trees) ↔
    ∃ r, Leads metric text next p r tree ∧ LeadAmong metric text next r q trees := by
  have happend := @leadAmong_append α metric text next p q [tree] trees
  rw [List.singleton_append] at happend
  simp only [happend, leadAmong_singleton]

/-- The children of a tree lead where the tree does. -/
theorem Leads.children (h : Leads metric text next p q tree) (hne : tree.children ≠ []) :
    LeadAmong metric text next p q tree.children := by
  obtain ⟨own, hown, hbuilt⟩ := h
  exact ⟨own, hown, hbuilt.children hne⟩

/-- A tree starts at a position. -/
theorem Leads.start (h : Leads metric text next p q tree) : Stretch metric text p p [] := by
  obtain ⟨own, hown, -⟩ := h
  exact hown.start

/-- A node of trees leads where the trees do. -/
theorem LeadAmong.makeNode {symbol : UInt16} {metadata : TSSymbolMetadata}
    (h : LeadAmong metric text next p q trees) (hlt : metric.bytesOf text < 2 ^ 32) :
    Leads metric text (next + 1) p q (tsTreeMakeNode next symbol trees metadata) := by
  obtain ⟨own, hown, hbuilt⟩ := h
  exact ⟨own, hown, built_makeNode hbuilt (Nat.lt_of_le_of_lt hown.bytesOf_le hlt)⟩

/-- An error node of trees leads where the trees do. -/
theorem LeadAmong.makeErrorNode (h : LeadAmong metric text next p q trees)
    (hlt : metric.bytesOf text < 2 ^ 32) :
    Leads metric text (next + 1) p q (tsTreeMakeErrorNode next trees) := by
  obtain ⟨own, hown, hbuilt⟩ := h
  exact ⟨own, hown, built_makeErrorNode hbuilt (Nat.lt_of_le_of_lt hown.bytesOf_le hlt)⟩

/-- A copy leads where the tree does. -/
theorem Leads.makeCopy (h : Leads metric text next p q tree) :
    Leads metric text (next + 1) p q (tsTreeMakeCopy next tree) := by
  obtain ⟨own, hown, hbuilt⟩ := h
  exact ⟨own, hown, built_makeCopy hbuilt⟩

end Leads

end TreeSitterTextStorage
