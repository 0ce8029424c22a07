import TreeSitterTextStorage.Runtime.Building

/-! # Trees span pieces of a text

While a parse runs, characters are known and offsets are not set yet. A tree *spans* a piece of a
text when every padding and size in it is the length of its own part of the piece, and the
constructors of trees turn trees that span neighbouring pieces into a tree that spans them together.
Positions of a text are the lengths of its prefixes, and a *stretch* leads from one to another. -/

namespace TreeSitterTextStorage

open RoseTree

variable {α : Type} (metric : Metric α)

/-! ## Lengths of texts -/

/-- The length of a text, with its characters. -/
def Metric.lengthOf (text : List α) : Length :=
  ⟨metric.bytesOf text, text.length, metric.pointOf text⟩

namespace Metric

@[simp] theorem lengthOf_nil : metric.lengthOf [] = Length.zero := rfl

/-- A text has no more characters than bytes. -/
theorem length_le_bytesOf (text : List α) : text.length ≤ metric.bytesOf text := by
  induction text with
  | nil => exact Nat.le_refl 0
  | cons a text ih =>
      have hpos := metric.size_pos a
      have hsum : metric.bytesOf (a :: text) = metric.size a + metric.bytesOf text := by
        rw [bytesOf, bytesOf, List.map_cons, List.sum_cons]
      rw [List.length_cons, hsum]
      omega

/-- The characters of a text are known. -/
@[simp] theorem hasUnknownChars_lengthOf (text : List α) :
    (metric.lengthOf text).hasUnknownChars = false := by
  rw [Length.hasUnknownChars, decide_eq_false_iff_not]
  rintro ⟨hbytes, hchars⟩
  have hnil : text = [] := List.length_eq_zero_iff.mp hchars
  subst hnil
  exact absurd hbytes (Nat.lt_irrefl 0)

/-- `length_add` on the lengths of two pieces of a text. -/
theorem lengthAdd_lengthOf {front back : List α} (h : metric.bytesOf (front ++ back) < 2 ^ 32) :
    lengthAdd (metric.lengthOf front) (metric.lengthOf back) = metric.lengthOf (front ++ back) := by
  rw [lengthAdd, hasUnknownChars_lengthOf, hasUnknownChars_lengthOf]
  show Length.mk _ _ _ = Length.mk _ _ _
  rw [Length.mk.injEq]
  exact ⟨metric.wrapAdd_bytesOf h, List.length_append.symm, metric.pointAdd_pointOf h⟩

/-- `length_sub` on the lengths of a text and of a prefix. -/
theorem lengthSub_lengthOf {front back : List α} (h : metric.bytesOf (front ++ back) < 2 ^ 32) :
    lengthSub (metric.lengthOf (front ++ back)) (metric.lengthOf front) = metric.lengthOf back := by
  have hle := metric.length_le_bytesOf (front ++ back)
  rw [lengthSub, hasUnknownChars_lengthOf, hasUnknownChars_lengthOf]
  show Length.mk _ _ _ = Length.mk _ _ _
  rw [Length.mk.injEq]
  refine ⟨metric.wrapSub_bytesOf h, ?_, metric.pointSub_pointOf h⟩
  show wrapSub (front ++ back).length front.length = back.length
  rw [List.length_append] at hle ⊢
  rw [wrapSub_of_le (by omega) (by omega), Nat.add_sub_cancel_left]

end Metric

/-! ## Stretches of a text -/

/-- A stretch of a text from one position to another. -/
def Stretch (text : List α) (start stop : Length) (own : List α) : Prop :=
  ∃ front back, text = front ++ (own ++ back) ∧ start = metric.lengthOf front ∧
    stop = metric.lengthOf (front ++ own)

namespace Stretch

variable {metric} {text own own' : List α} {p q r p' q' : Length}

/-- The start of a text. -/
theorem zero (text : List α) : Stretch metric text Length.zero Length.zero [] :=
  ⟨[], text, rfl, rfl, rfl⟩

/-- The start of a stretch is a position. -/
theorem start (h : Stretch metric text p q own) : Stretch metric text p p [] := by
  obtain ⟨front, back, htext, hp, -⟩ := h
  exact ⟨front, own ++ back, htext, hp, by rw [List.append_nil, hp]⟩

/-- The end of a stretch is a position. -/
theorem stop (h : Stretch metric text p q own) : Stretch metric text q q [] := by
  obtain ⟨front, back, htext, -, hq⟩ := h
  exact ⟨front ++ own, back, by rw [htext]; simp, hq, by rw [List.append_nil, hq]⟩

/-- Prefixes of a text with as many characters are the same. -/
theorem front_unique {front back front' back' : List α} (h : text = front ++ back)
    (h' : text = front' ++ back') (hchars : front.length = front'.length) :
    front = front' ∧ back = back' := by
  exact List.append_inj (h.symm.trans h') hchars

/-- **Positions are known by their characters.** -/
theorem eq_of_chars (h : Stretch metric text p q own) (h' : Stretch metric text p' q' own')
    (hchars : p.chars = p'.chars) : p = p' := by
  obtain ⟨front, back, htext, rfl, -⟩ := h
  obtain ⟨front', back', htext', rfl, -⟩ := h'
  rw [(front_unique htext htext' hchars).1]

/-- Positions are known by their bytes. -/
theorem eq_of_bytes (h : Stretch metric text p q own) (h' : Stretch metric text p' q' own')
    (hbytes : p.bytes = p'.bytes) : p = p' := by
  obtain ⟨front, back, htext, rfl, -⟩ := h
  obtain ⟨front', back', htext', rfl, -⟩ := h'
  obtain ⟨middle, hfront, -⟩ := metric.exists_prefix (htext.symm.trans htext')
    (Nat.le_of_eq hbytes.symm)
  have hmiddle : metric.bytesOf middle = 0 := by
    have hsum : metric.bytesOf front = metric.bytesOf front' := hbytes
    rw [hfront, Metric.bytesOf_append] at hsum
    omega
  rw [Metric.bytesOf_eq_zero_iff] at hmiddle
  rw [hfront, hmiddle, List.append_nil]

/-- Between two positions there is one text. -/
theorem unique (h : Stretch metric text p q own) (h' : Stretch metric text p q own') :
    own = own' := by
  obtain ⟨front, back, htext, hp, hq⟩ := h
  obtain ⟨front', back', htext', hp', hq'⟩ := h'
  obtain ⟨rfl, hrest⟩ := front_unique htext htext' (congrArg Length.chars (hp.symm.trans hp'))
  have hlength := congrArg Length.chars (hq.symm.trans hq')
  simp only [Metric.lengthOf, List.length_append, Nat.add_left_cancel_iff] at hlength
  exact (List.append_inj hrest hlength).1

/-- **Stretches compose.** -/
theorem trans (h : Stretch metric text p q own) (h' : Stretch metric text q r own') :
    Stretch metric text p r (own ++ own') := by
  obtain ⟨front, back, htext, hp, hq⟩ := h
  obtain ⟨front', back', htext', hq', hr⟩ := h'
  obtain ⟨rfl, hrest⟩ := front_unique ((List.append_assoc front own back).symm ▸ htext) htext'
    (congrArg Length.chars (hq.symm.trans hq'))
  exact ⟨front, back', by rw [htext, hrest]; simp, hp, by rw [hr, List.append_assoc]⟩

/-- A stretch of two pieces goes through a position between them. -/
theorem split (h : Stretch metric text p r (own ++ own')) :
    ∃ q, Stretch metric text p q own ∧ Stretch metric text q r own' := by
  obtain ⟨front, back, htext, hp, hr⟩ := h
  refine ⟨metric.lengthOf (front ++ own), ⟨front, own' ++ back, by rw [htext]; simp, hp, rfl⟩,
    ⟨front ++ own, back, by rw [htext]; simp, rfl, by rw [hr, List.append_assoc]⟩⟩

/-- A piece of a text is no longer than the text. -/
theorem bytesOf_le (h : Stretch metric text p q own) :
    metric.bytesOf own ≤ metric.bytesOf text := by
  obtain ⟨front, back, htext, -, -⟩ := h
  rw [htext]
  simp only [Metric.bytesOf_append]
  omega

/-- `length_add` moves along a stretch. -/
theorem lengthAdd_eq (hlt : metric.bytesOf text < 2 ^ 32) (h : Stretch metric text p q own) :
    lengthAdd p (metric.lengthOf own) = q := by
  obtain ⟨front, back, htext, rfl, rfl⟩ := h
  refine metric.lengthAdd_lengthOf ?_
  rw [htext] at hlt
  simp only [Metric.bytesOf_append] at hlt ⊢
  omega

/-- `length_sub` measures a stretch. -/
theorem lengthSub_eq (hlt : metric.bytesOf text < 2 ^ 32) (h : Stretch metric text p q own) :
    lengthSub q p = metric.lengthOf own := by
  obtain ⟨front, back, htext, rfl, rfl⟩ := h
  refine metric.lengthSub_lengthOf ?_
  rw [htext] at hlt
  simp only [Metric.bytesOf_append] at hlt ⊢
  omega

/-- Two stretches of as many bytes that end together start together. -/
theorem start_unique (h : Stretch metric text p q own) (h' : Stretch metric text p' q own')
    (hbytes : metric.bytesOf own = metric.bytesOf own') : p = p' ∧ own = own' := by
  have hp : p = p' := by
    refine h.eq_of_bytes h' ?_
    obtain ⟨front, back, -, hp, hq⟩ := h
    obtain ⟨front', back', -, hp', hq'⟩ := h'
    have hsum := congrArg Length.bytes (hq.symm.trans hq')
    simp only [Metric.lengthOf, Metric.bytesOf_append] at hsum
    rw [hp, hp']
    simp only [Metric.lengthOf]
    omega
  subst hp
  exact ⟨rfl, h.unique h'⟩

end Stretch

/-! ## Trees -/

mutual
/-- A tree spans a text: its padding and its size are the lengths of two pieces that make up the
text, and so do the texts of its children, if it has any. -/
def Spans : SyntaxTree → List α → Prop
  | .node self children, text =>
      (∃ front content, text = front ++ content ∧ self.padding = metric.lengthOf front ∧
        self.size = metric.lengthOf content) ∧ (children ≠ [] → SpanAmong children text)
/-- A list of trees spans a text: the trees span pieces that make it up. -/
def SpanAmong : List SyntaxTree → List α → Prop
  | [], text => text = []
  | child :: rest, text => ∃ front back, text = front ++ back ∧ Spans child front ∧
    SpanAmong rest back
end

variable {metric}

/-- The length of a tree is that of its text. -/
theorem Spans.totalSize_eq {tree : SyntaxTree} {text : List α} (h : Spans metric tree text)
    (hlt : metric.bytesOf text < 2 ^ 32) : tree.totalSize = metric.lengthOf text := by
  obtain ⟨self, children⟩ := tree
  rw [Spans] at h
  obtain ⟨⟨front, content, rfl, hpadding, hsize⟩, -⟩ := h
  show lengthAdd self.padding self.size = _
  rw [hpadding, hsize, metric.lengthAdd_lengthOf hlt]

/-- The bytes of a tree are those of its text. -/
theorem Spans.bytes_eq {tree : SyntaxTree} {text : List α} (h : Spans metric tree text) :
    tree.label.padding.bytes + tree.label.size.bytes = metric.bytesOf text := by
  obtain ⟨self, children⟩ := tree
  rw [Spans] at h
  obtain ⟨⟨front, content, rfl, hpadding, hsize⟩, -⟩ := h
  rw [label_node, hpadding, hsize, Metric.bytesOf_append]
  rfl

theorem spanAmong_singleton {tree : SyntaxTree} {text : List α} :
    SpanAmong metric [tree] text ↔ Spans metric tree text := by
  rw [SpanAmong]
  constructor
  · rintro ⟨front, back, rfl, htree, hback⟩
    rw [SpanAmong] at hback
    rwa [hback, List.append_nil]
  · intro h
    exact ⟨text, [], (List.append_nil text).symm, h, rfl⟩

/-- **Neighbouring trees** span their texts together. -/
theorem spanAmong_append {trees trees' : List SyntaxTree} {text : List α} :
    SpanAmong metric (trees ++ trees') text ↔
      ∃ front back, text = front ++ back ∧ SpanAmong metric trees front ∧
        SpanAmong metric trees' back := by
  induction trees generalizing text with
  | nil =>
      constructor
      · exact fun h => ⟨[], text, rfl, rfl, h⟩
      · rintro ⟨front, back, rfl, hfront, hback⟩
        rw [SpanAmong] at hfront
        rwa [hfront]
  | cons tree trees ih =>
      rw [List.cons_append, SpanAmong]
      constructor
      · rintro ⟨front, rest, rfl, htree, hrest⟩
        obtain ⟨middle, back, rfl, hmiddle, hback⟩ := ih.mp hrest
        exact ⟨front ++ middle, back, (List.append_assoc _ _ _).symm,
          ⟨front, middle, rfl, htree, hmiddle⟩, hback⟩
      · rintro ⟨front, back, rfl, ⟨first, middle, rfl, htree, hmiddle⟩, hback⟩
        exact ⟨first, middle ++ back, List.append_assoc _ _ _, htree,
          ih.mpr ⟨middle, back, rfl, hmiddle, hback⟩⟩

/-- The children of a tree span its text. -/
theorem Spans.children {tree : SyntaxTree} {text : List α} (h : Spans metric tree text)
    (hne : tree.children ≠ []) : SpanAmong metric tree.children text := by
  obtain ⟨self, children⟩ := tree
  rw [Spans] at h
  exact h.2 hne

/-- A tree of a list spans a piece of what the list spans. -/
theorem SpanAmong.of_mem {tree : SyntaxTree} {trees : List SyntaxTree} {text : List α}
    (h : SpanAmong metric trees text) (hmem : tree ∈ trees) :
    ∃ own, Spans metric tree own ∧ metric.bytesOf own ≤ metric.bytesOf text := by
  induction trees generalizing text with
  | nil => exact absurd hmem List.not_mem_nil
  | cons first rest ih =>
      rw [SpanAmong] at h
      obtain ⟨front, back, rfl, hfirst, hrest⟩ := h
      rw [Metric.bytesOf_append]
      rcases List.mem_cons.mp hmem with rfl | hmem
      · exact ⟨front, hfirst, Nat.le_add_right _ _⟩
      · obtain ⟨own, hown, hle⟩ := ih hrest hmem
        exact ⟨own, hown, Nat.le_trans hle (Nat.le_add_left _ _)⟩

/-- What a tree spans is a matter of its padding, its size and its children. -/
theorem spans_node_congr {self self' : NodeData} {children : List SyntaxTree} {text : List α}
    (hpadding : self.padding = self'.padding) (hsize : self.size = self'.size) :
    Spans metric (.node self children) text ↔ Spans metric (.node self' children) text := by
  rw [Spans, Spans, hpadding, hsize]

/-! ## Constructors -/

/-- A leaf spans its padding and its size. -/
theorem spans_makeLeaf {address : ℕ} {sym : UInt16} {front content : List α}
    {metadata : TSSymbolMetadata} :
    Spans metric (tsTreeMakeLeaf address sym (metric.lengthOf front)
      (metric.lengthOf content) metadata) (front ++ content) := by
  rw [tsTreeMakeLeaf, Spans]
  exact ⟨⟨front, content, rfl, rfl, rfl⟩, fun hne => absurd rfl hne⟩

/-- An error leaf spans its padding and its size. -/
theorem spans_makeError {address : ℕ} {front content : List α} {lookaheadChar : ℤ} :
    Spans metric (tsTreeMakeError address (metric.lengthOf content) (metric.lengthOf front)
      lookaheadChar) (front ++ content) := by
  rw [tsTreeMakeError, Spans]
  exact ⟨⟨front, content, rfl, rfl, rfl⟩, fun hne => absurd rfl hne⟩

/-- Counting a child measures nothing. -/
@[simp] theorem toTreeData_countChild (self : NodeData) (child : SyntaxTree) :
    (countChild self child).toTreeData = self.toTreeData := by
  unfold countChild
  split
  · rfl
  · split <;> rfl

/-- A turn of the loop of `ts_tree_set_children` changes lengths only by measuring the child. -/
theorem toTreeData_takeChild (first : Bool) (self : NodeData) (child : SyntaxTree) :
    (takeChild first self child).toTreeData = (measureChild first self child).toTreeData := by
  unfold takeChild
  split
  · exact toTreeData_countChild _ child
  · exact toTreeData_countChild _ child

/-- The loop of `ts_tree_set_children` behind the first child leaves the padding of the node. -/
theorem padding_foldl_takeChild (children : List SyntaxTree) (self : NodeData) :
    (children.foldl (takeChild false) self).padding = self.padding := by
  induction children generalizing self with
  | nil => rfl
  | cons child rest ih =>
      rw [List.foldl_cons, ih, toTreeData_takeChild]
      rfl

/-- The loop of `ts_tree_set_children` behind the first child: the children that are taken span the
text behind that of the node. -/
theorem size_foldl_takeChild {children : List SyntaxTree} {self : NodeData} {content text : List α}
    (hsize : self.size = metric.lengthOf content) (hspan : SpanAmong metric children text)
    (hlt : metric.bytesOf (content ++ text) < 2 ^ 32) :
    (children.foldl (takeChild false) self).size = metric.lengthOf (content ++ text) := by
  induction children generalizing self content text with
  | nil =>
      rw [SpanAmong] at hspan
      rw [hspan, List.append_nil]
      exact hsize
  | cons child rest ih =>
      rw [SpanAmong] at hspan
      obtain ⟨front, back, rfl, hchild, hrest⟩ := hspan
      rw [List.foldl_cons, ← List.append_assoc]
      rw [← List.append_assoc] at hlt
      have hltChild : metric.bytesOf (content ++ front) < 2 ^ 32 := by
        rw [Metric.bytesOf_append] at hlt
        omega
      have hstep : (takeChild false self child).size = metric.lengthOf (content ++ front) := by
        rw [toTreeData_takeChild]
        show lengthAdd self.size child.totalSize = _
        rw [hsize, hchild.totalSize_eq, metric.lengthAdd_lengthOf hltChild]
        rw [Metric.bytesOf_append] at hltChild
        omega
      exact ih hstep hrest hlt

/-- The end of `ts_tree_set_children` measures nothing. -/
@[simp] theorem toTreeData_takeEnds (self : NodeData) (children : List SyntaxTree) :
    (takeEnds self children).toTreeData = self.toTreeData := by
  unfold takeEnds
  split <;> rfl

theorem children_setChildren (self : NodeData) (children : List SyntaxTree) :
    (tsTreeSetChildren self children).children = children := rfl

/-- The lengths that `ts_tree_set_children` leaves. -/
theorem toTreeData_setChildren (self : NodeData) (children : List SyntaxTree) :
    (tsTreeSetChildren self children).label.toTreeData =
      (takeChildren { self with namedChildCount := 0, visibleChildCount := 0, errorCost := 0 }
        children).toTreeData := by
  rw [tsTreeSetChildren, label_node, toTreeData_takeEnds]
  split <;> rfl

/-- `ts_tree_set_children` gives a node the padding of its first child. -/
theorem padding_setChildren {self : NodeData} {children : List SyntaxTree} {first : SyntaxTree}
    (h : children.head? = some first) :
    (tsTreeSetChildren self children).label.padding = first.label.padding := by
  cases children with
  | nil => exact absurd h (Option.some_ne_none first).symm
  | cons child rest =>
      rw [List.head?_cons, Option.some.injEq] at h
      rw [toTreeData_setChildren, takeChildren, padding_foldl_takeChild, toTreeData_takeChild, h]
      rfl

/-- **Setting the children** of a node makes it span their texts. -/
theorem spans_setChildren {self : NodeData} {children : List SyntaxTree} {text : List α}
    (hspan : SpanAmong metric children text) (hne : children ≠ [])
    (hlt : metric.bytesOf text < 2 ^ 32) : Spans metric (tsTreeSetChildren self children) text := by
  obtain ⟨child, rest, rfl⟩ := List.exists_cons_of_ne_nil hne
  have hall := hspan
  rw [SpanAmong] at hspan
  obtain ⟨front, back, rfl, hchild, hrest⟩ := hspan
  obtain ⟨childSelf, grandchildren⟩ := child
  rw [Spans] at hchild
  obtain ⟨⟨padding, content, rfl, hpadding, hsize⟩, -⟩ := hchild
  -- the node starts with the padding and the size of its first child
  set started := takeChild true
    { self with namedChildCount := 0, visibleChildCount := 0, errorCost := 0 }
    (.node childSelf grandchildren) with hstarted
  have hstart : started.size = childSelf.size := by
    rw [hstarted, toTreeData_takeChild]
    rfl
  rw [List.append_assoc, Metric.bytesOf_append] at hlt
  have hsiz := size_foldl_takeChild (hstart.trans hsize) hrest (by omega)
  show Spans metric (.node (tsTreeSetChildren self
    (.node childSelf grandchildren :: rest)).label _) _
  rw [Spans]
  refine ⟨⟨padding, content ++ back, List.append_assoc _ _ _, ?_, ?_⟩, fun _ => hall⟩
  · have hfirst : (tsTreeSetChildren self (.node childSelf grandchildren :: rest)).label.padding =
        (.node childSelf grandchildren : SyntaxTree).label.padding :=
      padding_setChildren List.head?_cons
    exact hfirst.trans hpadding
  · rw [toTreeData_setChildren]
    exact hsiz

/-- **`ts_tree_make_node`** spans the texts of its children. -/
theorem spans_makeNode {address : ℕ} {symbol : UInt16} {children : List SyntaxTree}
    {metadata : TSSymbolMetadata} {text : List α} (hspan : SpanAmong metric children text)
    (hlt : metric.bytesOf text < 2 ^ 32) :
    Spans metric (tsTreeMakeNode address symbol children metadata) text := by
  cases children with
  | nil =>
      rw [SpanAmong] at hspan
      subst hspan
      rw [tsTreeMakeNode, tsTreeSetChildren, Spans, toTreeData_takeEnds]
      refine ⟨⟨[], [], rfl, ?_, ?_⟩, fun hne => absurd rfl hne⟩
      · split <;> rfl
      · split <;> rfl
  | cons child rest => exact spans_setChildren hspan (List.cons_ne_nil child rest) hlt

/-- Error nodes give way to their children, which span the same text. -/
theorem spanAmong_spliceErrors {children : List SyntaxTree} {text : List α}
    (hspan : SpanAmong metric children text) : SpanAmong metric (spliceErrors children) text := by
  induction children generalizing text with
  | nil => exact hspan
  | cons child rest ih =>
      rw [SpanAmong] at hspan
      obtain ⟨front, back, rfl, hchild, hrest⟩ := hspan
      rw [spliceErrors, List.flatMap_cons, spanAmong_append]
      refine ⟨front, back, rfl, ?_, ih hrest⟩
      split
      · next herror => exact hchild.children (List.ne_nil_of_length_pos herror.2)
      · exact spanAmong_singleton.mpr hchild

/-! ## Arrays -/

/-- `ts_tree_array_remove_last_n` cuts an array in two. -/
theorem removeLastN_append {self kept removed : List SyntaxTree} {removeCount : ℕ}
    (h : tsTreeArrayRemoveLastN self removeCount = some (kept, removed)) :
    kept ++ removed = self := by
  rw [tsTreeArrayRemoveLastN] at h
  split at h
  · rw [Option.some.injEq, Prod.mk.injEq] at h
    rw [← h.1, ← h.2, List.append_nil]
  · obtain ⟨splitIndex, -, heq⟩ := Option.map_eq_some_iff.mp h
    rw [Prod.mk.injEq] at heq
    rw [← heq.1, ← heq.2, List.take_append_drop]

/-- `ts_tree_array_remove_trailing_extras` cuts an array in two. -/
theorem removeTrailingExtras_append (self : List SyntaxTree) :
    (tsTreeArrayRemoveTrailingExtras self).1 ++
    (tsTreeArrayRemoveTrailingExtras self).2 = self := by
  rw [tsTreeArrayRemoveTrailingExtras, ← List.reverse_append, List.takeWhile_append_dropWhile,
    List.reverse_reverse]

/-- Trees that `ts_tree_tokens_eq` takes for the same token span as many bytes. -/
theorem bytesOf_eq_of_tokensEq {self other : SyntaxTree} {text text' : List α}
    (h : tsTreeTokensEq self other = true) (hself : Spans metric self text)
    (hother : Spans metric other text') : metric.bytesOf text = metric.bytesOf text' := by
  rw [tsTreeTokensEq] at h
  split at h
  · exact absurd h Bool.false_ne_true
  · obtain ⟨-, hpadding, hsize, -⟩ := of_decide_eq_true h
    rw [← hself.bytes_eq, ← hother.bytes_eq, hpadding, hsize]

end TreeSitterTextStorage
