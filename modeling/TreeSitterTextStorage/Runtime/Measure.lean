import TreeSitterTextStorage.Library.Extent
import TreeSitterTextStorage.Runtime.Edit

/-! # Lengths measure text

What the lengths stored in a tree are for: they are the bytes, characters and extents of pieces of a
text. A tree *fits* a text when every node's padding and size measure a split of its piece of the
text, the pieces of its children make up its own, and every child's offset measures the pieces in
front of it. The wrapping arithmetic of `length.h` and `point.h` is exact on the measures of a text
shorter than `2^32` bytes. -/

namespace TreeSitterTextStorage

attribute [ext] TSPoint

/-! ## Points are extents -/

/-- The rows and columns of an extent, as a point. -/
def TSPoint.ofExtent (extent : Extent) : TSPoint := ⟨extent.row, extent.column⟩

/-- `point_add` adds extents when 32 bits hold the sum. -/
theorem pointAdd_ofExtent {a b : Extent} (h : (a + b).row + (a + b).column < 2 ^ 32) :
    pointAdd (.ofExtent a) (.ofExtent b) = .ofExtent (a + b) := by
  rw [Extent.row_add, Extent.column_add] at h
  show (if 0 < b.row then TSPoint.mk (wrapAdd a.row b.row) b.column
    else TSPoint.mk a.row (wrapAdd a.column b.column)) = TSPoint.mk _ _
  rw [Extent.row_add, Extent.column_add]
  by_cases hrow : 0 < b.row
  · rw [if_pos hrow] at h ⊢
    rw [if_pos hrow, wrapAdd_of_lt (by omega)]
  · rw [if_neg hrow] at h ⊢
    rw [if_neg hrow, wrapAdd_of_lt (by omega), Nat.eq_zero_of_not_pos hrow, Nat.add_zero]

/-- `point_sub` subtracts the extent of a prefix. -/
theorem pointSub_ofExtent {a b : Extent} (hle : b ≤ a) (h : a.row + a.column < 2 ^ 32) :
    pointSub (.ofExtent a) (.ofExtent b) = .ofExtent (a - b) := by
  rw [Extent.le_iff] at hle
  show (if b.row < a.row then TSPoint.mk (wrapSub a.row b.row) a.column
    else TSPoint.mk 0 (wrapSub a.column b.column)) = _
  rw [Extent.sub_def]
  by_cases hrow : b.row < a.row
  · rw [if_pos hrow, if_pos hrow, wrapSub_of_le (by omega) (by omega), TSPoint.ofExtent]
  · rw [if_neg hrow, if_neg hrow, wrapSub_of_le (by omega) (by omega), TSPoint.ofExtent]

/-- `point_min` is the minimum of extents. -/
theorem pointMin_ofExtent (a b : Extent) :
    pointMin (.ofExtent a) (.ofExtent b) = .ofExtent (min a b) := by
  show (if a.row < b.row ∨ a.row = b.row ∧ a.column < b.column then TSPoint.ofExtent a
    else TSPoint.ofExtent b) = _
  by_cases h : a < b
  · rw [if_pos (Extent.lt_iff.mp h), min_eq_left h.le]
  · rw [if_neg (mt Extent.lt_iff.mpr h), min_eq_right (not_lt.mp h)]

/-! ## Texts and their measures -/

/-- What the runtime measures of the symbols of a text. A symbol is whatever the lexer advances over
at once, or a part of it. -/
structure Metric (α : Type) extends Extent.Ruler α where
  /-- The number of bytes a symbol takes. -/
  size : α → ℕ
  /-- No symbol is empty. -/
  size_pos : ∀ a, 0 < size a
  /-- A symbol has no more columns than bytes. -/
  columns_le : ∀ a, columns a ≤ size a

namespace Metric

variable {α : Type} (metric : Metric α)

/-- The number of bytes of a text. -/
def bytesOf (text : List α) : ℕ := (text.map metric.size).sum

/-- The rows and columns of a text, as a point. -/
def pointOf (text : List α) : TSPoint := .ofExtent (metric.extent text)

@[simp] theorem bytesOf_nil : metric.bytesOf [] = 0 := rfl

@[simp] theorem bytesOf_append (front back : List α) :
    metric.bytesOf (front ++ back) = metric.bytesOf front + metric.bytesOf back := by
  rw [bytesOf, List.map_append, List.sum_append, bytesOf, bytesOf]

/-- Only the empty text has no bytes. -/
@[simp] theorem bytesOf_eq_zero_iff {text : List α} : metric.bytesOf text = 0 ↔ text = [] := by
  cases text with
  | nil => exact iff_of_true rfl rfl
  | cons a text =>
      have hpos := metric.size_pos a
      rw [bytesOf, List.map_cons, List.sum_cons]
      exact iff_of_false (by omega) (List.cons_ne_nil a text)

/-- A piece at the front of a short text is short. -/
theorem bytesOf_left_lt {front back : List α} {n : ℕ} (h : metric.bytesOf (front ++ back) < n) :
    metric.bytesOf front < n := by
  rw [bytesOf_append] at h
  exact Nat.lt_of_le_of_lt (Nat.le_add_right _ _) h

/-- A piece at the back of a short text is short. -/
theorem bytesOf_right_lt {front back : List α} {n : ℕ} (h : metric.bytesOf (front ++ back) < n) :
    metric.bytesOf back < n := by
  rw [bytesOf_append] at h
  exact Nat.lt_of_le_of_lt (Nat.le_add_left _ _) h

/-- The wrapping sum of the bytes of two pieces of a text. -/
theorem wrapAdd_bytesOf {front back : List α} (h : metric.bytesOf (front ++ back) < 2 ^ 32) :
    wrapAdd (metric.bytesOf front) (metric.bytesOf back) = metric.bytesOf (front ++ back) := by
  rw [bytesOf_append] at h ⊢
  exact wrapAdd_of_lt h

/-- The wrapping difference of the bytes of a text and of a prefix. -/
theorem wrapSub_bytesOf {front back : List α} (h : metric.bytesOf (front ++ back) < 2 ^ 32) :
    wrapSub (metric.bytesOf (front ++ back)) (metric.bytesOf front) = metric.bytesOf back := by
  rw [bytesOf_append] at h ⊢
  rw [wrapSub_of_le (by omega) h, Nat.add_sub_cancel_left]

/-- The rows and columns of a text are bounded by its bytes. -/
theorem pointOf_le (text : List α) :
    (metric.pointOf text).row + (metric.pointOf text).column ≤ metric.bytesOf text :=
  metric.extent_le metric.size_pos metric.columns_le text

/-- Of two splits of a text, the one with more bytes in front has the other's front as a prefix. -/
theorem exists_prefix {front back front' back' : List α} (h : front ++ back = front' ++ back')
    (hle : metric.bytesOf front' ≤ metric.bytesOf front) :
    ∃ middle, front = front' ++ middle ∧ back' = middle ++ back := by
  rcases List.append_eq_append_iff.mp h with ⟨middle, hfront, hback⟩ | ⟨middle, hfront, hback⟩
  · -- the other front is the longer one, so what is between them is empty
    have hnil : middle = [] := by
      rw [hfront, bytesOf_append] at hle
      rw [← metric.bytesOf_eq_zero_iff]
      omega
    subst hnil
    exact ⟨[], by simpa using hfront.symm, by simpa using hback.symm⟩
  · exact ⟨middle, hfront, hback⟩

/-- The point of a text in two pieces. -/
theorem pointOf_append (front back : List α) :
    metric.pointOf (front ++ back) = .ofExtent (metric.extent front + metric.extent back) := by
  rw [pointOf, metric.extent_append]

/-- `point_add` on the points of a text in two pieces. -/
theorem pointAdd_pointOf {front back : List α} (h : metric.bytesOf (front ++ back) < 2 ^ 32) :
    pointAdd (metric.pointOf front) (metric.pointOf back) = metric.pointOf (front ++ back) := by
  have hle := metric.pointOf_le (front ++ back)
  rw [pointOf_append] at hle ⊢
  exact pointAdd_ofExtent (Nat.lt_of_le_of_lt hle h)

/-- `point_sub` on the points of a text and of a prefix. -/
theorem pointSub_pointOf {front back : List α} (h : metric.bytesOf (front ++ back) < 2 ^ 32) :
    pointSub (metric.pointOf (front ++ back)) (metric.pointOf front) = metric.pointOf back := by
  have hle := metric.pointOf_le (front ++ back)
  rw [pointOf, pointOf, pointSub_ofExtent ?_ (Nat.lt_of_le_of_lt hle h),
    metric.extent_append_sub, pointOf]
  rw [metric.extent_append]
  exact Extent.le_add_right _ _

/-- `point_min` picks the point of the prefix, whichever of its arguments that is. -/
theorem pointMin_pointOf (front back : List α) :
    pointMin (metric.pointOf front) (metric.pointOf (front ++ back)) = metric.pointOf front ∧
      pointMin (metric.pointOf (front ++ back)) (metric.pointOf front) = metric.pointOf front := by
  have hle := Extent.le_add_right (metric.extent front) (metric.extent back)
  rw [pointOf_append, pointOf, pointMin_ofExtent, pointMin_ofExtent, min_eq_left hle,
    min_eq_right hle]
  exact ⟨rfl, rfl⟩

end Metric

/-! ## Lengths -/

section Measures

variable {α : Type} (metric : Metric α) (exact : Prop)

/-- A length measures a text. Its bytes are those of the text. When the measures are `exact`, so are
its rows and columns, and its characters unless they are unknown. -/
structure Measures (len : Length) (text : List α) : Prop where
  /-- The bytes of the text. -/
  bytes_eq : len.bytes = metric.bytesOf text
  /-- The characters of the text, unless they are unknown. -/
  chars_eq : exact → len.chars = text.length ∨ len.chars = 0
  /-- The rows and columns of the text. -/
  extent_eq : exact → len.extent = metric.pointOf text

variable {metric exact}

/-- `length_zero` measures the empty text. -/
theorem measures_zero : Measures metric exact Length.zero [] :=
  ⟨rfl, fun _ => Or.inl rfl, fun _ => rfl⟩

/-- `length_set_unknown_chars` leaves a measure. -/
theorem Measures.setUnknownChars {len : Length} {text : List α}
    (h : Measures metric exact len text) : Measures metric exact len.setUnknownChars text :=
  ⟨h.bytes_eq, fun _ => Or.inr rfl, h.extent_eq⟩

/-- `length_add` measures two pieces of a text together. -/
theorem Measures.add {a b : Length} {front back : List α} (ha : Measures metric exact a front)
    (hb : Measures metric exact b back) (hlt : metric.bytesOf (front ++ back) < 2 ^ 32) :
    Measures metric exact (lengthAdd a b) (front ++ back) where
  bytes_eq := by
    rw [Metric.bytesOf_append] at hlt ⊢
    rw [lengthAdd, ha.bytes_eq, hb.bytes_eq, wrapAdd_of_lt hlt]
  chars_eq hexact := by
    have hnil : ∀ {len : Length} {text : List α}, Measures metric exact len text → len.bytes = 0 →
        text.length = 0 := fun h hzero => by
      rw [List.length_eq_zero_iff, ← metric.bytesOf_eq_zero_iff, ← h.bytes_eq, hzero]
    rw [lengthAdd, List.length_append]
    show (if a.hasUnknownChars || b.hasUnknownChars then 0 else a.chars + b.chars) = _ ∨
      (if a.hasUnknownChars || b.hasUnknownChars then 0 else a.chars + b.chars) = 0
    split
    · exact Or.inr rfl
    · next hknown =>
        simp only [Length.hasUnknownChars, Bool.or_eq_true, decide_eq_true_iff, not_or,
          not_and] at hknown
        have hfront := hnil ha
        have hback := hnil hb
        rcases ha.chars_eq hexact with hca | hca <;> rcases hb.chars_eq hexact with hcb |
          hcb <;> omega
  extent_eq hexact := by
    rw [lengthAdd, ha.extent_eq hexact, hb.extent_eq hexact]
    exact metric.pointAdd_pointOf hlt

/-! ## Trees that fit a text -/

variable (metric exact)

mutual
/-- A tree fits a text: its padding and its size measure two pieces that make up the text, and so do
its children, if it has any. -/
def Fits : Tree → List α → Prop
  | .node self children, text =>
      (∃ front content, text = front ++ content ∧ Measures metric exact self.padding front ∧
        Measures metric exact self.size content) ∧
      (children ≠ [] → FitsAmong [] children text)
/-- A list of children fits the text behind the children passed so far: each one fits the next
piece, and its offset measures what has been passed. -/
def FitsAmong (passed : List α) : List Tree → List α → Prop
  | [], text => text = []
  | child :: rest, text =>
      ∃ front back, text = front ++ back ∧ Measures metric exact child.label.offset passed ∧
        Fits child front ∧ FitsAmong (passed ++ front) rest back
end

variable {metric exact}

/-- The padding and the size of a tree measure its text together. -/
theorem Fits.measures_totalSize {tree : Tree} {text : List α} (h : Fits metric exact tree text)
    (hlt : metric.bytesOf text < 2 ^ 32) : Measures metric
    exact (tsTreeTotalSize tree.label) text := by
  obtain ⟨self, children⟩ := tree
  rw [Fits] at h
  obtain ⟨⟨front, content, rfl, hpadding, hsize⟩, -⟩ := h
  exact hpadding.add hsize hlt

/-- The total bytes of a tree are those of its text. -/
theorem Fits.totalBytes_eq {tree : Tree} {text : List α} (h : Fits metric exact tree text)
    (hlt : metric.bytesOf text < 2 ^ 32) : tsTreeTotalBytes tree.label = metric.bytesOf text :=
  (h.measures_totalSize hlt).bytes_eq

/-- **Other measures**: a tree that fits a text fits what the text is mapped to, when all that
measures a piece of the text measures what the piece is mapped to. -/
theorem Fits.transfer {β : Type} {metric' : Metric β} {exact' : Prop} {g : List α → List β}
    (hnil : g [] = []) (happend : ∀ front back, g (front ++ back) = g front ++ g back)
    (hmeasures : ∀ {len : Length} {text : List α}, Measures metric exact len text →
      Measures metric' exact' len (g text))
    {tree : Tree} {text : List α} (h : Fits metric exact tree text) :
    Fits metric' exact' tree (g text) := by
  induction tree using RoseTree.induct generalizing text with
  | node self children ih =>
      rw [Fits] at h ⊢
      obtain ⟨⟨front, content, rfl, hpadding, hsize⟩, hchildren⟩ := h
      refine ⟨⟨g front, g content, happend _ _, hmeasures hpadding, hmeasures hsize⟩, fun hne => ?_⟩
      -- the children, behind any piece of the text
      suffices hamong : ∀ cs : List Tree, (∀ c ∈ cs, c ∈ children) → ∀ passed text,
          FitsAmong metric exact passed cs text → FitsAmong metric' exact' (g passed) cs (g text) by
        rw [← hnil]
        exact hamong children (fun c hc => hc) [] _ (hchildren hne)
      intro cs
      induction cs with
      | nil =>
          intro _ passed text hfit
          rw [FitsAmong] at hfit ⊢
          rw [hfit, hnil]
      | cons child rest ihRest =>
          intro hsub passed text hfit
          rw [FitsAmong] at hfit ⊢
          obtain ⟨front, back, rfl, hoffset, hchild, hrest⟩ := hfit
          refine ⟨g front, g back, happend _ _, hmeasures hoffset,
            ih child (hsub child List.mem_cons_self) hchild, ?_⟩
          rw [← happend]
          exact ihRest (fun c hc => hsub c (List.mem_cons_of_mem _ hc)) _ _ hrest

/-- A tree fits a text as far as its bytes go when it fits it at all. -/
theorem Fits.bytes {tree : Tree} {text : List α} (h : Fits metric exact tree text) :
    Fits metric False tree text :=
  Fits.transfer rfl (fun _ _ => rfl) (fun h => ⟨h.bytes_eq, False.elim, False.elim⟩) h

/-- The offset of a tree does not matter to its fit. -/
@[simp] theorem fits_setOffset_iff {offset : Length} {tree : Tree} {text : List α} :
    Fits metric exact (setOffset offset tree) text ↔ Fits metric exact tree text := by
  obtain ⟨self, children⟩ := tree
  rw [setOffset, Fits, Fits]

@[simp] theorem label_setOffset (offset : Length) (tree : Tree) :
    (setOffset offset tree).label = { tree.label with offset := offset } := by
  obtain ⟨self, children⟩ := tree
  rfl

@[simp] theorem children_setOffset (offset : Length) (tree : Tree) :
    (setOffset offset tree).children = tree.children := by
  obtain ⟨self, children⟩ := tree
  rfl

/-! ## Losing the lookahead -/

/-- `ts_tree_invalidate_lookahead` leaves the offset of a node alone. -/
@[simp] theorem offset_tsTreeInvalidateLookahead (editByteOffset : ℕ) (tree : Tree) :
    (tsTreeInvalidateLookahead editByteOffset tree).label.offset = tree.label.offset := by
  obtain ⟨self, children⟩ := tree
  rw [tsTreeInvalidateLookahead]
  split <;> rfl

/-- `ts_tree_invalidate_lookahead` leaves a tree that fits its text. -/
theorem Fits.invalidateLookahead {tree : Tree} {text : List α} (h : Fits metric exact tree text)
    (editByteOffset : ℕ) : Fits metric exact (tsTreeInvalidateLookahead editByteOffset
      tree) text := by
  induction tree using RoseTree.induct generalizing text editByteOffset with
  | node self children ih =>
      rw [tsTreeInvalidateLookahead]
      split
      · exact h
      · rw [Fits] at h ⊢
        obtain ⟨hown, hchildren⟩ := h
        refine ⟨hown, ?_⟩
        -- over the children, from any position on
        suffices hamong : ∀ (cs : List Tree), (∀ c ∈ cs, c ∈ children) → ∀ passed start text,
            FitsAmong metric exact passed cs text →
              FitsAmong metric exact passed (invalidateLookaheadAmong editByteOffset
                start cs) text by
          intro hne
          refine hamong children (fun c hc => hc) [] 0 text (hchildren ?_)
          rintro rfl
          exact hne rfl
        intro cs
        induction cs with
        | nil => exact fun _ passed start text hfit => hfit
        | cons child rest ihRest =>
            intro hsub passed start text hfit
            rw [invalidateLookaheadAmong]
            split
            · exact hfit
            · rw [FitsAmong] at hfit ⊢
              obtain ⟨front, back, htext, hoffset, hchild, hrest⟩ := hfit
              refine ⟨front, back, htext, ?_, ih child (hsub child List.mem_cons_self) hchild _, ?_⟩
              · rwa [offset_tsTreeInvalidateLookahead]
              · exact ihRest (fun c hc => hsub c (List.mem_cons_of_mem child hc)) _ _ _ hrest

end Measures

end TreeSitterTextStorage
