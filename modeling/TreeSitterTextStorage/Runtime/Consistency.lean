import TreeSitterTextStorage.Runtime.EditFits

/-! # The bytes of a tree add up

Whatever edits a document is told about, truthful or not, the byte counts stored in its tree stay
consistent: in every node the children's bytes add up to the node's, and every offset is the number
of bytes in front of the child. This is the fit to a text of which only the number of
bytes is known. -/

namespace TreeSitterTextStorage

mutual
/-- In every node of a tree the bytes of the children add up to those of the node, and the offset of
every child is the sum of the bytes in front of it. -/
def BytesAddUp : Tree → Prop
  | .node self children =>
      self.padding.bytes + self.size.bytes < 2 ^ 32 ∧
        (children ≠ [] → BytesAddUpAmong 0 (self.padding.bytes + self.size.bytes) children)
/-- The bytes of a list of children lead from one position to another. -/
def BytesAddUpAmong (start stop : ℕ) : List Tree → Prop
  | [] => start = stop
  | child :: rest =>
      child.label.offset.bytes = start ∧ BytesAddUp child ∧
        BytesAddUpAmong (start + tsTreeTotalBytes child.label) stop rest
end

/-- Text of which only the number of bytes is known. -/
def unitMetric : Metric Unit where
  newline _ := false
  columns _ := 0
  size _ := 1
  size_pos _ := Nat.one_pos
  columns_le _ := Nat.zero_le 1

/-- The bytes of such a text. -/
@[simp] theorem bytesOf_unitMetric (text : List Unit) : unitMetric.bytesOf text = text.length := by
  induction text with
  | nil => rfl
  | cons a text ih =>
      rw [Metric.bytesOf] at ih
      rw [Metric.bytesOf, List.map_cons, List.sum_cons, ih, List.length_cons, Nat.add_comm]
      rfl

/-- A length measures every such text with as many bytes. -/
theorem measures_unitMetric_iff {len : Length} {text : List Unit} :
    Measures unitMetric False len text ↔ len.bytes = text.length := by
  constructor
  · intro h
    rw [h.bytes_eq, bytesOf_unitMetric]
  · intro h
    exact ⟨by rw [h, bytesOf_unitMetric], False.elim, False.elim⟩

/-- The positions of a list of children are in order. -/
theorem BytesAddUpAmong.le {start stop : ℕ} {children : List Tree}
    (h : BytesAddUpAmong start stop children) : start ≤ stop := by
  induction children generalizing start with
  | nil => exact Nat.le_of_eq h
  | cons child rest ih =>
      rw [BytesAddUpAmong] at h
      exact Nat.le_trans (Nat.le_add_right _ _) (ih h.2.2)

/-- **Bytes add up** exactly in the trees that fit a text of which only the number of
bytes is known. -/
theorem fits_unitMetric_iff {tree : Tree} {text : List Unit} :
    Fits unitMetric False tree text ∧ text.length < 2 ^ 32 ↔
      BytesAddUp tree ∧ tsTreeTotalBytes tree.label = text.length := by
  induction tree using RoseTree.induct generalizing text with
  | node self children ih =>
      -- over the children, from any position on
      have hamong : ∀ cs : List Tree, (∀ c ∈ cs, c ∈ children) → ∀ passed text : List Unit,
          passed.length + text.length < 2 ^ 32 →
            (FitsAmong unitMetric False passed cs text ↔
              BytesAddUpAmong passed.length (passed.length + text.length) cs) := by
        intro cs
        induction cs with
        | nil =>
            intro _ passed text _
            rw [FitsAmong, BytesAddUpAmong, Nat.left_eq_add, List.length_eq_zero_iff]
        | cons child rest ihRest =>
            intro hsub passed text hlt
            have ihChild := fun {text} => @ih child (hsub child List.mem_cons_self) text
            have ihRest := ihRest fun c hc => hsub c (List.mem_cons_of_mem child hc)
            rw [FitsAmong, BytesAddUpAmong]
            simp only [measures_unitMetric_iff]
            constructor
            · rintro ⟨front, back, rfl, hoffset, hchild, hrest⟩
              rw [List.length_append] at hlt
              obtain ⟨hadd, htotal⟩ := ihChild.mp ⟨hchild, by omega⟩
              refine ⟨hoffset, hadd, ?_⟩
              rw [htotal, List.length_append, ← Nat.add_assoc, ← List.length_append]
              exact (ihRest _ _ (by rw [List.length_append]; omega)).mp hrest
            · rintro ⟨hoffset, hadd, hrest⟩
              have hle := hrest.le
              -- the child takes as much of the text as it has bytes
              let size := tsTreeTotalBytes child.label
              have hfront : (text.take size).length = size :=
                List.length_take_of_le (Nat.le_of_add_le_add_left hle)
              have hlength : passed.length + size + (text.drop size).length =
                  passed.length + text.length := by
                rw [List.length_drop]
                omega
              refine ⟨text.take size, text.drop size,
                (List.take_append_drop size text).symm, hoffset,
                (ihChild.mpr ⟨hadd, hfront.symm⟩).1, ?_⟩
              rw [ihRest _ _ (by rw [List.length_append]; omega), List.length_append,
                hfront, hlength]
              exact hrest
      rw [Fits, BytesAddUp]
      simp only [measures_unitMetric_iff]
      constructor
      · rintro ⟨⟨⟨front, content, rfl, hpadding, hsize⟩, hchildren⟩, hlt⟩
        rw [List.length_append] at hlt ⊢
        rw [hpadding, hsize]
        refine ⟨⟨hlt, fun hne => ?_⟩, ?_⟩
        · have hadd := (hamong children (fun c hc => hc) [] _ ?_).mp (hchildren hne)
          · simpa using hadd
          · simpa using hlt
        · rw [tsTreeTotalBytes, RoseTree.label_node, hpadding, hsize, wrapAdd_of_lt hlt]
      · rintro ⟨⟨hlt, hchildren⟩, htotal⟩
        rw [tsTreeTotalBytes, RoseTree.label_node, wrapAdd_of_lt hlt] at htotal
        refine ⟨⟨⟨text.take self.padding.bytes, text.drop self.padding.bytes,
          (List.take_append_drop _ _).symm, ?_, ?_⟩, fun hne => ?_⟩, by omega⟩
        · rw [List.length_take]
          omega
        · rw [List.length_drop]
          omega
        · rw [hamong children (fun c hc => hc) [] _ (by simp; omega)]
          simpa [htotal] using hchildren hne

/-- A tree that fits a text fits as many units. -/
theorem Fits.unit {α : Type} {metric : Metric α} {exact : Prop} {tree : Tree} {text : List α}
    (h : Fits metric exact tree text) :
    Fits unitMetric False tree (List.replicate (metric.bytesOf text) ()) := by
  refine Fits.transfer (g := fun text => List.replicate (metric.bytesOf text) ()) ?_
    (fun front back => ?_) (fun hlen => ?_) h
  · rw [metric.bytesOf_nil]
    rfl
  · rw [Metric.bytesOf_append, List.replicate_add]
  · rw [measures_unitMetric_iff, List.length_replicate, hlen.bytes_eq]

/-- The bytes of a tree that fits a text add up. -/
theorem Fits.bytesAddUp {α : Type} {metric : Metric α} {exact : Prop} {tree : Tree} {text : List α}
    (h : Fits metric exact tree text) (hlt : metric.bytesOf text < 2 ^ 32) : BytesAddUp tree :=
  (fits_unitMetric_iff.mp ⟨h.unit, by rwa [List.length_replicate]⟩).1

/-! ## Edits -/

/-- The total bytes of a tree whose bytes add up. -/
theorem BytesAddUp.fits {tree : Tree} (h : BytesAddUp tree) :
    Fits unitMetric False tree (List.replicate (tsTreeTotalBytes tree.label) ()) :=
  (fits_unitMetric_iff.mpr ⟨h, List.length_replicate.symm⟩).1

/-- An edit inside a tree keeps its bytes adding up, and its total follows. -/
theorem bytesAddUp_tsTreeEdit {edit : TSInputEdit} {tree : Tree} (h : BytesAddUp tree)
    (hle : edit.startByte + edit.bytesRemoved ≤ tsTreeTotalBytes tree.label)
    (hlt : tsTreeTotalBytes tree.label + edit.bytesAdded < 2 ^ 32) :
    BytesAddUp (tsTreeEdit edit tree) ∧
      tsTreeTotalBytes (tsTreeEdit edit tree).label =
        tsTreeTotalBytes tree.label - edit.bytesRemoved + edit.bytesAdded := by
  have hfits := h.fits
  obtain ⟨rest, hrest⟩ := Nat.exists_eq_add_of_le hle
  rw [hrest, Nat.add_assoc, List.replicate_add, List.replicate_add] at hfits
  have hedit : EditOf unitMetric False edit (List.replicate edit.startByte ())
      (List.replicate edit.bytesRemoved ()) (List.replicate edit.bytesAdded ()) := by
    refine ⟨?_, ?_, ?_, False.elim⟩
    all_goals rw [bytesOf_unitMetric, List.length_replicate]
  have hnew := fits_tsTreeEdit hedit (by simp; omega) hfits
  obtain ⟨hadd, htotal⟩ := fits_unitMetric_iff.mp ⟨hnew, by simp; omega⟩
  refine ⟨hadd, ?_⟩
  rw [htotal]
  simp only [List.length_append, List.length_replicate]
  omega

/-- **An edit keeps the bytes adding up**, whatever it is told to be. An edit that starts behind the
tree is ignored. Any other removes no more than there is behind its start, and adds what it says. -/
theorem bytesAddUp_tsDocumentEdit {edit : TSInputEdit} {tree : Tree} (h : BytesAddUp tree)
    (hlt : tsTreeTotalBytes tree.label + edit.bytesAdded < 2 ^ 32) :
    BytesAddUp (tsDocumentEdit edit tree) ∧
      tsTreeTotalBytes (tsDocumentEdit edit tree).label =
        if edit.startByte > tsTreeTotalBytes tree.label then tsTreeTotalBytes tree.label
        else tsTreeTotalBytes tree.label -
          min edit.bytesRemoved (tsTreeTotalBytes tree.label - edit.startByte) +
            edit.bytesAdded := by
  rw [tsDocumentEdit]
  by_cases hstart : edit.startByte > tsTreeTotalBytes tree.label
  · simp only [if_pos hstart]
    exact ⟨h, trivial⟩
  · simp only [if_neg hstart]
    by_cases hremoved : edit.bytesRemoved > tsTreeTotalBytes tree.label - edit.startByte
    · -- the removal is cut off
      rw [if_pos hremoved, Nat.min_eq_right (Nat.le_of_lt hremoved)]
      exact bytesAddUp_tsTreeEdit h (by simp only; omega) hlt
    · rw [if_neg hremoved, Nat.min_eq_left (by omega)]
      exact bytesAddUp_tsTreeEdit h (by omega) hlt

/-- **Bytes add up through every run of edits**, as long as 32 bits suffice for all
that is added. -/
theorem bytesAddUp_foldl {edits : List TSInputEdit} {tree : Tree} (h : BytesAddUp tree)
    (hlt : tsTreeTotalBytes tree.label + (edits.map TSInputEdit.bytesAdded).sum < 2 ^ 32) :
    BytesAddUp (edits.foldl (fun tree edit => tsDocumentEdit edit tree) tree) := by
  induction edits generalizing tree with
  | nil => exact h
  | cons edit edits ih =>
      rw [List.map_cons, List.sum_cons] at hlt
      obtain ⟨hadd, htotal⟩ := @bytesAddUp_tsDocumentEdit edit tree h (by omega)
      refine ih hadd ?_
      rw [htotal]
      split <;> omega

/-- The bytes of the tree of `[]` add up. -/
theorem bytesAddUp_bracketsTree : BytesAddUp bracketsTree :=
  ⟨by decide, fun _ => ⟨rfl, ⟨by decide, fun hne => absurd rfl hne⟩, rfl,
    ⟨by decide, fun hne => absurd rfl hne⟩, rfl⟩⟩

/-- The theorem on two descriptions that contradict the text `[]` and each other: a removal of a
hundred bytes at its second byte, and an insertion behind its end. -/
theorem bytesAddUp_foldl_brackets :
    BytesAddUp ([⟨1, 100, 7, ⟨5, 5⟩, ⟨0, 0⟩, ⟨9, 0⟩⟩, ⟨50, 0, 3, ⟨0, 0⟩, ⟨0, 0⟩, ⟨0, 3⟩⟩].foldl
      (fun tree edit => tsDocumentEdit edit tree) bracketsTree) :=
  bytesAddUp_foldl bytesAddUp_bracketsTree (by decide)

end TreeSitterTextStorage
