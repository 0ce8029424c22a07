import TreeSitterTextStorage.Library.Run
import TreeSitterTextStorage.Library.Splice
import TreeSitterTextStorage.Runtime.Measure

/-! # An edit of a tree is an edit of its text

`ts_tree_edit` changes lengths without looking at the text. Told truthfully where the edit starts,
what it removes and what it inserts, it turns a tree that fits the old text into a tree that fits
the new one. The proof follows its loop: what becomes of a child is said once, in `ChildEdit`, for
every place at which a child can stand to the edit. -/

namespace TreeSitterTextStorage

variable {α : Type} {metric : Metric α} {exact : Prop}

/-- An edit description is right about an edit: it says where the edit starts and how much it
removes and adds, in bytes and, when the measures are `exact`, in rows and columns. -/
structure EditOf (metric : Metric α) (exact : Prop) (edit : TSInputEdit)
    (front removed added : List α) : Prop where
  /-- The edit starts behind the front. -/
  startByte_eq : edit.startByte = metric.bytesOf front
  /-- The bytes of the removed text. -/
  bytesRemoved_eq : edit.bytesRemoved = metric.bytesOf removed
  /-- The bytes of the inserted text. -/
  bytesAdded_eq : edit.bytesAdded = metric.bytesOf added
  /-- The rows and columns of all three. -/
  points_eq : exact → edit.startPoint = metric.pointOf front ∧
    edit.extentRemoved = metric.pointOf removed ∧ edit.extentAdded = metric.pointOf added

section Ends

variable {edit : TSInputEdit} {front removed added : List α}

/-- `old_end_byte` and `old_end_point`. -/
theorem EditOf.oldEnd_eq (h : EditOf metric exact edit front removed added)
    (hlt : metric.bytesOf (front ++ removed) < 2 ^ 32) :
    wrapAdd edit.startByte edit.bytesRemoved = metric.bytesOf (front ++ removed) ∧
      (exact → pointAdd edit.startPoint edit.extentRemoved =
        metric.pointOf (front ++ removed)) := by
  rw [h.startByte_eq, h.bytesRemoved_eq, metric.wrapAdd_bytesOf hlt]
  refine ⟨rfl, fun hexact => ?_⟩
  obtain ⟨hstart, hremoved, -⟩ := h.points_eq hexact
  rw [hstart, hremoved, metric.pointAdd_pointOf hlt]

/-- `new_end_byte` and `new_end_point`. -/
theorem EditOf.newEnd_eq (h : EditOf metric exact edit front removed added)
    (hlt : metric.bytesOf (front ++ added) < 2 ^ 32) :
    wrapAdd edit.startByte edit.bytesAdded = metric.bytesOf (front ++ added) ∧
      (exact → pointAdd edit.startPoint edit.extentAdded = metric.pointOf (front ++ added)) := by
  rw [h.startByte_eq, h.bytesAdded_eq, metric.wrapAdd_bytesOf hlt]
  refine ⟨rfl, fun hexact => ?_⟩
  obtain ⟨hstart, -, hadded⟩ := h.points_eq hexact
  rw [hstart, hadded, metric.pointAdd_pointOf hlt]

end Ends

/-! ## The node's own lengths -/

section Own

variable {edit : TSInputEdit} {front removed added back : List α} {self : TreeData}
  {padding content : List α}
  (hedit : EditOf metric exact edit front removed added)
  (hpadding : Measures metric exact self.padding padding)
  (hsize : Measures metric exact self.size content)
  (htext : padding ++ content = front ++ (removed ++ back))
  (hlt : metric.bytesOf (front ++ (removed ++ back)) + metric.bytesOf added < 2 ^ 32)
include hedit hpadding hsize htext hlt

/-- An edit that starts in the padding leaves a padding that ends with what was inserted, or with
what the edit left of the padding. -/
theorem measures_editOwnLengths_of_lt (hfront : edit.startByte < self.padding.bytes) :
    ∃ padding' content', front ++ (added ++ back) = padding' ++ content' ∧
      Measures metric exact (editOwnLengths edit self).padding padding' ∧
      Measures metric exact (editOwnLengths edit self).size content' := by
  rw [editOwnLengths]
  simp only
  rw [if_pos hfront]
  simp only [Metric.bytesOf_append] at hlt
  obtain ⟨hold, holdPoint⟩ := hedit.oldEnd_eq (by rw [Metric.bytesOf_append]; omega)
  obtain ⟨hnew, hnewPoint⟩ := hedit.newEnd_eq (by rw [Metric.bytesOf_append]; omega)
  rw [hedit.startByte_eq, hpadding.bytes_eq] at hfront
  obtain ⟨middle, rfl, hmiddle⟩ := metric.exists_prefix htext (Nat.le_of_lt hfront)
  by_cases hinside : self.padding.setUnknownChars.bytes ≥ wrapAdd edit.startByte edit.bytesRemoved
  · -- the edit stays inside the padding
    rw [if_pos hinside]
    rw [hold, hpadding.setUnknownChars.bytes_eq, Metric.bytesOf_append, Metric.bytesOf_append]
      at hinside
    obtain ⟨trailing, rfl, rfl⟩ := metric.exists_prefix hmiddle.symm (by omega)
    simp only [Metric.bytesOf_append] at hlt
    rw [← List.append_assoc] at hpadding
    refine ⟨front ++ added ++ trailing, content, by simp, ⟨?_, fun _ => Or.inr rfl, ?_⟩, hsize⟩
    · show wrapAdd _ (wrapSub self.padding.bytes _) = _
      rw [hnew, hold, hpadding.bytes_eq, metric.wrapSub_bytesOf, metric.wrapAdd_bytesOf]
      all_goals simp only [Metric.bytesOf_append]; omega
    · intro hexact
      show pointAdd _ (pointSub self.padding.extent _) = _
      rw [hnewPoint hexact, holdPoint hexact, hpadding.extent_eq hexact, metric.pointSub_pointOf,
        metric.pointAdd_pointOf]
      all_goals simp only [Metric.bytesOf_append]; omega
  · -- the edit goes on into the content
    rw [if_neg hinside]
    rw [hold, hpadding.setUnknownChars.bytes_eq, Metric.bytesOf_append, Metric.bytesOf_append]
      at hinside
    obtain ⟨removedContent, rfl, rfl⟩ := metric.exists_prefix hmiddle (by omega)
    simp only [Metric.bytesOf_append] at hlt
    rw [← List.append_assoc] at hold holdPoint
    refine ⟨front ++ added, back, by simp, ⟨hnew, fun _ => Or.inr rfl, hnewPoint⟩,
      ⟨?_, fun _ => Or.inr rfl, ?_⟩⟩
    · show wrapSub self.size.bytes (wrapSub _ self.padding.bytes) = _
      rw [hold, hpadding.bytes_eq, hsize.bytes_eq, metric.wrapSub_bytesOf, metric.wrapSub_bytesOf]
      all_goals simp only [Metric.bytesOf_append]; omega
    · intro hexact
      show pointSub self.size.extent (pointSub _ self.padding.extent) = _
      rw [holdPoint hexact, hpadding.extent_eq hexact, hsize.extent_eq hexact,
        metric.pointSub_pointOf, metric.pointSub_pointOf]
      all_goals simp only [Metric.bytesOf_append]; omega

/-- An edit that starts behind the padding changes the content, but for an insertion right in front
of it, which becomes padding. -/
theorem measures_editOwnLengths_of_le (hfront : ¬ edit.startByte < self.padding.bytes) :
    ∃ padding' content', front ++ (added ++ back) = padding' ++ content' ∧
      Measures metric exact (editOwnLengths edit self).padding padding' ∧
      Measures metric exact (editOwnLengths edit self).size content' := by
  rw [editOwnLengths]
  simp only
  rw [if_neg hfront]
  rw [hedit.startByte_eq, hpadding.bytes_eq, Nat.not_lt] at hfront
  obtain ⟨middle, rfl, hmiddle⟩ := metric.exists_prefix htext.symm hfront
  simp only [Metric.bytesOf_append] at hlt
  by_cases hinsert : edit.startByte = self.padding.bytes ∧ edit.bytesRemoved = 0
  · rw [if_pos hinsert]
    rw [hedit.startByte_eq, hpadding.bytes_eq, hedit.bytesRemoved_eq, Metric.bytesOf_append,
      metric.bytesOf_eq_zero_iff] at hinsert
    obtain ⟨hmid, rfl⟩ := hinsert
    have hnil : middle = [] := by
      rw [← metric.bytesOf_eq_zero_iff]
      omega
    subst hnil
    refine ⟨padding ++ added, content, by simp [hmiddle], ⟨?_, fun _ => Or.inr rfl, ?_⟩, hsize⟩
    · show wrapAdd self.padding.bytes edit.bytesAdded = _
      rw [hpadding.bytes_eq, hedit.bytesAdded_eq, metric.wrapAdd_bytesOf]
      rw [Metric.bytesOf_append]
      omega
    · intro hexact
      show pointAdd self.padding.extent edit.extentAdded = _
      rw [hpadding.extent_eq hexact, (hedit.points_eq hexact).2.2, metric.pointAdd_pointOf]
      rw [Metric.bytesOf_append]
      omega
  · rw [if_neg hinsert]
    obtain ⟨hold, holdPoint⟩ := hedit.oldEnd_eq (by simp only [Metric.bytesOf_append]; omega)
    obtain ⟨hnew, hnewPoint⟩ := hedit.newEnd_eq (by simp only [Metric.bytesOf_append]; omega)
    have htotal := hpadding.add hsize (by rw [htext]; simp only [Metric.bytesOf_append]; omega)
    rw [htext, ← List.append_assoc] at htotal
    refine ⟨padding, middle ++ (added ++ back), by simp, hpadding, ⟨?_, fun _ => Or.inr rfl, ?_⟩⟩
    · show wrapSub (wrapAdd _ (wrapSub (lengthAdd self.padding self.size).bytes _))
        self.padding.bytes = _
      rw [htotal.bytes_eq, hold, hnew, hpadding.bytes_eq, metric.wrapSub_bytesOf,
        metric.wrapAdd_bytesOf, List.append_assoc, List.append_assoc, metric.wrapSub_bytesOf]
      all_goals simp only [Metric.bytesOf_append]; omega
    · intro hexact
      show pointSub (pointAdd _ (pointSub (lengthAdd self.padding self.size).extent _))
        self.padding.extent = _
      rw [htotal.extent_eq hexact, holdPoint hexact, hnewPoint hexact, hpadding.extent_eq hexact,
        metric.pointSub_pointOf, metric.pointAdd_pointOf, List.append_assoc, List.append_assoc,
        metric.pointSub_pointOf]
      all_goals simp only [Metric.bytesOf_append]; omega

/-- **The own lengths of an edited node** measure a split of the new text. -/
theorem measures_editOwnLengths :
    ∃ padding' content', front ++ (added ++ back) = padding' ++ content' ∧
      Measures metric exact (editOwnLengths edit self).padding padding' ∧
      Measures metric exact (editOwnLengths edit self).size content' := by
  by_cases hfront : edit.startByte < self.padding.bytes
  · exact measures_editOwnLengths_of_lt hedit hpadding hsize htext hlt hfront
  · exact measures_editOwnLengths_of_le hedit hpadding hsize htext hlt hfront

end Own

/-! ## The loop over the children -/

section Loop

/-- What becomes of a child whose text is `text`, behind children whose text was `passed` and is now
`passed'`: the four places where a child can stand to the edit. -/
inductive ChildEdit (metric : Metric α) (exact : Prop) (front removed added back : List α)
    (passed passed' : List α) (child : Tree) (text : List α) (child' : Tree) (text' : List α) : Prop
  /-- A child that ends in front of the edit only loses its lookahead. -/
  | ahead (rest : List α) (hfront : front = passed ++ (text ++ rest)) (hrest : rest ≠ [])
      (hpassed : passed' = passed) (htext : text' = text)
      (hchild : child' = tsTreeInvalidateLookahead (metric.bytesOf (text ++ rest)) child)
  /-- The first child that reaches the edit takes it, as far as its own text is removed. -/
  | taken (edit : TSInputEdit) (childFront childRemoved left childBack : List α)
      (hfront : front = passed ++ childFront) (hremoved : removed = childRemoved ++ left)
      (hold : text = childFront ++ (childRemoved ++ childBack)) (hcut : left = [] ∨ childBack = [])
      (hpassed : passed' = passed) (htext : text' = childFront ++ (added ++ childBack))
      (hedit : EditOf metric exact edit childFront childRemoved added)
      (hchild : child' = tsTreeEdit edit child)
  /-- A child behind it gives up what is still to be removed. -/
  | cut (edit : TSInputEdit) (gone childRemoved left childBack : List α)
      (hremoved : removed = gone ++ (childRemoved ++ left)) (hsome : childRemoved ++ left ≠ [])
      (hold : text = childRemoved ++ childBack) (hcut : left = [] ∨ childBack = [])
      (hpassed : passed = front ++ gone) (hpassed' : passed' = front ++ added)
      (htext : text' = childBack) (hedit : EditOf metric exact edit [] childRemoved [])
      (hchild : child' = tsTreeEdit edit child)
  /-- A child that starts behind the removed text loses its lookahead at most. -/
  | behind (offset : ℕ) (between rest : List α) (hback : back = between ++ (text ++ rest))
      (hpassed : passed = front ++ (removed ++ between))
      (hpassed' : passed' = front ++ (added ++ between)) (htext : text' = text)
      (hchild : child' = tsTreeInvalidateLookahead offset child)

/-- Where the loop stands when it has passed children whose text was `passed` and is
now `passed'`. -/
inductive LoopAt (metric : Metric α) (exact : Prop) (front removed added back : List α)
    (loop : EditLoop) (passed passed' : List α) : Prop
  /-- No child has reached the edit yet. -/
  | before (ahead : List α) (hfront : front = passed ++ ahead) (hpassed : passed' = passed)
      (hfound : loop.foundFirstChild = false) (hbytes : loop.remainingBytesToDelete = 0)
      (hextent : loop.remainingExtentToDelete = ⟨0, 0⟩)
      (hright : Measures metric exact loop.childRight passed)
  /-- The text has been inserted, and what is `left` of the removed text is still to be deleted. -/
  | behind (gone left between rest : List α) (hremoved : removed = gone ++ left)
      (hback : back = between ++ rest) (hcut : left = [] ∨ between = [])
      (hpassed : passed = front ++ (gone ++ between))
      (hpassed' : passed' = front ++ (added ++ between))
      (hfound : loop.foundFirstChild = true)
      (hbytes : loop.remainingBytesToDelete = metric.bytesOf left)
      (hextent : exact → loop.remainingExtentToDelete = metric.pointOf left)
      (hright : Measures metric exact loop.childRight passed')

/-- The children passed so far end where `child_right` says. -/
theorem LoopAt.measures_childRight {front removed added back passed passed' : List α}
    {loop : EditLoop} (h : LoopAt metric exact front removed added back loop passed passed') :
    Measures metric exact loop.childRight passed' := by
  cases h with
  | before ahead hfront hpassed hfound hbytes hextent hright => exact hpassed ▸ hright
  | behind gone left between rest hremoved hback hcut hpassed hpassed' hfound hbytes hextent
      hright => exact hright

/-- One turn of the loop on a child: the child becomes one that a place explains. Provided that it
fits its new text, the loop stands behind it, and has found the edit if that does not
start further on. -/
def LoopTurn (metric : Metric α) (exact : Prop) (edit : TSInputEdit)
    (front removed added back passed passed' : List α) (loop : EditLoop) (child : Tree)
    (text : List α) : Prop :=
  ∃ child' text' loop',
    (∀ children, tsTreeEditAmong edit loop (child :: children) =
      setOffset loop.childRight child' :: tsTreeEditAmong edit loop' children) ∧
    ChildEdit metric exact front removed added back passed passed' child text child' text' ∧
    (Fits metric exact child' text' →
      LoopAt metric exact front removed added back loop' (passed ++ text) (passed' ++ text') ∧
        (loop'.foundFirstChild = true ∨ front ≠ passed ++ text))

variable {edit : TSInputEdit} {front removed added back passed passed' text rest : List α}
  {loop : EditLoop} {child : Tree}
  (hedit : EditOf metric exact edit front removed added)
  (hlt : metric.bytesOf (front ++ (removed ++ back)) + metric.bytesOf added < 2 ^ 32)
  (hchild : Fits metric exact child text)
  (htext : passed ++ (text ++ rest) = front ++ (removed ++ back))
include hedit hlt hchild htext

/-- The turn of the loop at the first child that reaches the edit. -/
theorem loopTurn_reach {ahead : List α} (hfront : front = passed ++ ahead)
    (hbytes : loop.remainingBytesToDelete = 0)
    (hextent : loop.remainingExtentToDelete = ⟨0, 0⟩)
    (hright : Measures metric exact loop.childRight passed)
    (hreach : (!loop.foundFirstChild) = true ∧
      (lengthAdd loop.childRight (tsTreeTotalSize child.label)).bytes ≥ edit.startByte) :
    LoopTurn metric exact edit front removed added back passed passed loop child text := by
  subst hfront
  rw [List.append_assoc, List.append_cancel_left_eq] at htext
  have htotal := congrArg metric.bytesOf htext
  simp only [Metric.bytesOf_append] at hlt htotal
  obtain ⟨hold, holdPoint⟩ := hedit.oldEnd_eq (by simp only [Metric.bytesOf_append]; omega)
  have hsize := hchild.measures_totalSize (by omega)
  have hchildRight := hright.add hsize (by rw [Metric.bytesOf_append]; omega)
  have hle := hreach.2
  rw [hchildRight.bytes_eq, hedit.startByte_eq, Metric.bytesOf_append, Metric.bytesOf_append] at hle
  obtain ⟨middle, rfl, hmiddle⟩ := metric.exists_prefix htext (by omega)
  rw [← List.append_assoc] at hchildRight
  -- the child's edit starts where the edit starts in its text
  have hstart : wrapSub edit.startByte loop.childRight.bytes = metric.bytesOf ahead := by
    rw [hedit.startByte_eq, hright.bytes_eq, metric.wrapSub_bytesOf]
    rw [Metric.bytesOf_append]
    omega
  have hstartPoint : exact → pointSub edit.startPoint loop.childRight.extent =
      metric.pointOf ahead := fun hexact => by
    rw [(hedit.points_eq hexact).1, hright.extent_eq hexact, metric.pointSub_pointOf]
    rw [Metric.bytesOf_append]
    omega
  by_cases hover : wrapAdd edit.startByte edit.bytesRemoved >
      (lengthAdd loop.childRight (tsTreeTotalSize child.label)).bytes
  · -- the removal goes on behind the child
    have hgt := hover
    rw [hold, hchildRight.bytes_eq] at hgt
    simp only [Metric.bytesOf_append] at hgt
    obtain ⟨left, rfl, rfl⟩ := metric.exists_prefix hmiddle (by omega)
    simp only [Metric.bytesOf_append] at hlt
    rw [← List.append_assoc] at hold holdPoint
    have hremoved : wrapSub (lengthAdd loop.childRight (tsTreeTotalSize child.label)).bytes
        edit.startByte = metric.bytesOf middle := by
      rw [hchildRight.bytes_eq, hedit.startByte_eq, metric.wrapSub_bytesOf]
      simp only [Metric.bytesOf_append]
      omega
    refine ⟨tsTreeEdit ?childEdit child, ahead ++ (added ++ []), ?loop', fun children => ?_,
      .taken ?childEdit ahead middle left [] rfl rfl (by simp) (Or.inr rfl) rfl rfl ?_ rfl,
      fun hfits => ?_⟩
    rotate_left 2
    · rw [tsTreeEditAmong]
      simp only
      rw [if_pos hreach, if_pos hover, if_pos hover, if_pos hover, if_pos hover]
    · refine ⟨hstart, hremoved, hedit.bytesAdded_eq, fun hexact => ⟨hstartPoint hexact, ?_,
        (hedit.points_eq hexact).2.2⟩⟩
      show pointSub (lengthAdd loop.childRight _).extent edit.startPoint = _
      rw [hchildRight.extent_eq hexact, (hedit.points_eq hexact).1, metric.pointSub_pointOf]
      simp only [Metric.bytesOf_append]
      omega
    · refine ⟨?_, Or.inl rfl⟩
      refine .behind middle left [] back rfl rfl (Or.inr rfl) (by simp) (by simp) rfl ?_ ?_ ?_
      · show wrapSub _ (lengthAdd loop.childRight _).bytes = _
        rw [hold, hchildRight.bytes_eq, metric.wrapSub_bytesOf]
        simp only [Metric.bytesOf_append]
        omega
      · intro hexact
        show pointSub _ (lengthAdd loop.childRight _).extent = _
        rw [holdPoint hexact, hchildRight.extent_eq hexact, metric.pointSub_pointOf]
        simp only [Metric.bytesOf_append]
        omega
      · refine hright.add (hfits.measures_totalSize ?_) ?_
        all_goals simp only [Metric.bytesOf_append, Metric.bytesOf_nil]; omega
  · -- the removal ends inside the child
    have hle := hover
    rw [hold, hchildRight.bytes_eq, gt_iff_lt, not_lt] at hle
    simp only [Metric.bytesOf_append] at hle
    obtain ⟨childBack, rfl, rfl⟩ := metric.exists_prefix hmiddle.symm (by omega)
    simp only [Metric.bytesOf_append] at hlt
    refine ⟨tsTreeEdit ?wholeEdit child, ahead ++ (added ++ childBack), ?wholeLoop,
      fun children => ?_, .taken ?wholeEdit ahead removed [] childBack rfl (by simp) rfl
      (Or.inl rfl) rfl rfl ?_ rfl, fun hfits => ?_⟩
    rotate_left 2
    · rw [tsTreeEditAmong]
      simp only
      rw [if_pos hreach, if_neg hover, if_neg hover, if_neg hover, if_neg hover]
    · exact ⟨hstart, hedit.bytesRemoved_eq, hedit.bytesAdded_eq, fun hexact =>
        ⟨hstartPoint hexact, (hedit.points_eq hexact).2⟩⟩
    · refine ⟨?_, Or.inl rfl⟩
      refine .behind removed [] childBack rest (by simp) rfl (Or.inl rfl) (by simp) (by simp) rfl
        hbytes (fun _ => hextent) ?_
      refine hright.add (hfits.measures_totalSize ?_) ?_
      all_goals simp only [Metric.bytesOf_append]; omega

/-- A turn of the loop before a child has reached the edit. -/
theorem loopTurn_before {ahead : List α} (hfront : front = passed ++ ahead)
    (hfound : loop.foundFirstChild = false) (hbytes : loop.remainingBytesToDelete = 0)
    (hextent : loop.remainingExtentToDelete = ⟨0, 0⟩)
    (hright : Measures metric exact loop.childRight passed) :
    LoopTurn metric exact edit front removed added back passed passed loop child text := by
  by_cases hreach : (!loop.foundFirstChild) = true ∧
      (lengthAdd loop.childRight (tsTreeTotalSize child.label)).bytes ≥ edit.startByte
  · exact loopTurn_reach hedit hlt hchild htext hfront hbytes hextent hright hreach
  · -- the child ends in front of the edit
    subst hfront
    rw [List.append_assoc, List.append_cancel_left_eq] at htext
    have htotal := congrArg metric.bytesOf htext
    simp only [Metric.bytesOf_append] at hlt htotal
    have hsize := hchild.measures_totalSize (by omega)
    have hchildRight := hright.add hsize (by rw [Metric.bytesOf_append]; omega)
    have hgt := hreach
    rw [hfound, hchildRight.bytes_eq, hedit.startByte_eq, Metric.bytesOf_append,
      Metric.bytesOf_append, not_and] at hgt
    have hgt := hgt rfl
    obtain ⟨gap, rfl, hgap⟩ := metric.exists_prefix htext.symm (by omega)
    have hgapNe : gap ≠ [] := by
      rintro rfl
      rw [List.append_nil] at hgt
      omega
    have hoffset : wrapSub edit.startByte loop.childRight.bytes = metric.bytesOf (text ++ gap) := by
      rw [hedit.startByte_eq, hright.bytes_eq, metric.wrapSub_bytesOf]
      simp only [Metric.bytesOf_append] at hlt ⊢
      omega
    refine ⟨tsTreeInvalidateLookahead (metric.bytesOf (text ++ gap)) child, text, ?loop',
      fun children => ?_, .ahead gap rfl hgapNe rfl rfl rfl, fun hfits => ?_⟩
    rotate_left
    · rw [tsTreeEditAmong]
      simp only
      rw [if_neg hreach, if_neg (by omega), hoffset]
    · refine ⟨?_, Or.inr (by simpa using hgapNe)⟩
      refine .before gap (by simp) rfl hfound hbytes hextent ?_
      refine hright.add (hfits.measures_totalSize ?_) ?_
      all_goals simp only [Metric.bytesOf_append] at hlt ⊢; omega

/-- A turn of the loop at a child that still has to give something up. -/
theorem loopTurn_cut {gone left : List α} (hremoved : removed = gone ++ left)
    (hpassed : passed = front ++ gone) (hpassed' : passed' = front ++ added) (hleft : left ≠ [])
    (hfound : loop.foundFirstChild = true)
    (hbytes : loop.remainingBytesToDelete = metric.bytesOf left)
    (hextent : exact → loop.remainingExtentToDelete = metric.pointOf left)
    (hright : Measures metric exact loop.childRight passed') :
    LoopTurn metric exact edit front removed added back passed passed' loop child text := by
  subst hremoved hpassed hpassed'
  simp only [List.append_assoc, List.append_cancel_left_eq] at htext
  have htotal := congrArg metric.bytesOf htext
  simp only [Metric.bytesOf_append] at hlt htotal
  have hsize := hchild.measures_totalSize (by omega)
  have hpos : loop.remainingBytesToDelete > 0 := by
    rw [hbytes]
    exact Nat.pos_of_ne_zero fun h => hleft (metric.bytesOf_eq_zero_iff.mp h)
  have htotalBytes := hchild.totalBytes_eq (by omega)
  -- the child loses a prefix: all that is left to be deleted, or all of its text
  obtain ⟨childRemoved, childBack, left', after, rfl, rfl, rfl, hcut⟩ : ∃ childRemoved childBack left'
      after, text = childRemoved ++ childBack ∧ left = childRemoved ++ left' ∧
        back = childBack ++ after ∧ (left' = [] ∨ childBack = []) := by
    rcases Nat.le_total (metric.bytesOf left) (metric.bytesOf text) with hle | hle
    · obtain ⟨childBack, rfl, rfl⟩ := metric.exists_prefix htext hle
      exact ⟨left, childBack, [], rest, rfl, by simp, rfl, Or.inl rfl⟩
    · obtain ⟨left', rfl, rfl⟩ := metric.exists_prefix htext.symm hle
      exact ⟨text, [], left', back, by simp, rfl, rfl, Or.inr rfl⟩
  simp only [Metric.bytesOf_append] at hlt htotal hbytes htotalBytes
  have hmin : min loop.remainingBytesToDelete (tsTreeTotalBytes child.label) =
      metric.bytesOf childRemoved := by
    rw [hbytes, htotalBytes]
    rcases hcut with rfl | rfl <;> rw [metric.bytesOf_nil] <;> omega
  have hpointMin : exact → pointMin loop.remainingExtentToDelete
      (tsTreeTotalSize child.label).extent = metric.pointOf childRemoved := fun hexact => by
    rw [hextent hexact, hsize.extent_eq hexact]
    rcases hcut with rfl | rfl
    · rw [List.append_nil]
      exact (metric.pointMin_pointOf childRemoved childBack).1
    · rw [List.append_nil]
      exact (metric.pointMin_pointOf childRemoved left').2
  refine ⟨tsTreeEdit ?childEdit child, childBack, ?loop', fun children => ?_,
    .cut ?childEdit gone childRemoved left' childBack rfl hleft rfl hcut rfl rfl rfl ?_ rfl,
    fun hfits => ?_⟩
  rotate_left 2
  · rw [tsTreeEditAmong]
    simp only
    rw [if_neg (by simp [hfound]), if_pos hpos]
  · exact ⟨rfl, hmin, rfl, fun hexact => ⟨rfl, hpointMin hexact, rfl⟩⟩
  · refine ⟨?_, Or.inl hfound⟩
    refine .behind (gone ++ childRemoved) left' childBack after (by simp) rfl hcut (by simp)
      (by simp) hfound ?_ ?_ ?_
    · show loop.remainingBytesToDelete - min _ _ = _
      rw [hmin, hbytes, Nat.add_sub_cancel_left]
    · intro hexact
      show pointSub loop.remainingExtentToDelete (pointMin _ _) = _
      rw [hpointMin hexact, hextent hexact, metric.pointSub_pointOf]
      rw [Metric.bytesOf_append]
      omega
    · refine hright.add (hfits.measures_totalSize (by omega)) ?_
      simp only [Metric.bytesOf_append]
      omega

/-- A turn of the loop once the text has been inserted. -/
theorem loopTurn_behind {gone left between after : List α} (hremoved : removed = gone ++ left)
    (hback : back = between ++ after) (hcut : left = [] ∨ between = [])
    (hpassed : passed = front ++ (gone ++ between))
    (hpassed' : passed' = front ++ (added ++ between))
    (hfound : loop.foundFirstChild = true)
    (hbytes : loop.remainingBytesToDelete = metric.bytesOf left)
    (hextent : exact → loop.remainingExtentToDelete = metric.pointOf left)
    (hright : Measures metric exact loop.childRight passed') :
    LoopTurn metric exact edit front removed added back passed passed' loop child text := by
  by_cases hleft : left = []
  · -- nothing is left to be deleted
    subst hleft hremoved hback hpassed hpassed'
    simp only [List.append_nil] at htext hlt hedit hbytes hextent ⊢
    simp only [List.append_assoc, List.append_cancel_left_eq] at htext
    subst htext
    simp only [Metric.bytesOf_append] at hlt
    refine ⟨tsTreeInvalidateLookahead (wrapSub edit.startByte loop.childRight.bytes) child, text,
      ?loop', fun children => ?_, .behind _ between rest rfl rfl rfl rfl rfl, fun hfits => ?_⟩
    rotate_left
    · rw [tsTreeEditAmong]
      simp only
      rw [if_neg (by simp [hfound]), if_neg (by rw [hbytes]; exact Nat.lt_irrefl 0)]
    · refine ⟨?_, Or.inl hfound⟩
      refine .behind gone [] (between ++ text) rest (by simp) (by simp) (Or.inl rfl) (by simp)
        (by simp) hfound hbytes hextent ?_
      refine hright.add (hfits.measures_totalSize (by omega)) ?_
      simp only [Metric.bytesOf_append]
      omega
  · have hbetween : between = [] := hcut.resolve_left hleft
    subst hbetween
    rw [List.append_nil] at hpassed hpassed'
    exact loopTurn_cut hedit hlt hchild htext hremoved hpassed hpassed' hleft hfound hbytes hextent
      hright

/-- **One turn of the loop**, wherever it stands. -/
theorem loopTurn_of_loopAt
    (hat : LoopAt metric exact front removed added back loop passed passed') :
    LoopTurn metric exact edit front removed added back passed passed' loop child text := by
  cases hat with
  | before ahead hfront hpassed hfound hbytes hextent hright =>
      subst hpassed
      exact loopTurn_before hedit hlt hchild htext hfront hfound hbytes hextent hright
  | behind gone left between after hremoved hback hcut hpassed hpassed' hfound hbytes hextent
      hright =>
      exact loopTurn_behind hedit hlt hchild htext hremoved hback hcut hpassed hpassed' hfound
        hbytes hextent hright

end Loop

/-! ## Trees -/

section Trees

/-- What an edited child fits, when edits of the child keep its fit. -/
theorem ChildEdit.fits {front removed added back passed passed' text text' : List α}
    {child child' : Tree}
    (h : ChildEdit metric exact front removed added back passed passed' child text child' text')
    (hchild : Fits metric exact child text)
    (hlt : metric.bytesOf text + metric.bytesOf added < 2 ^ 32)
    (ih : ∀ edit front removed added back, EditOf metric exact edit front removed added →
      metric.bytesOf (front ++ (removed ++ back)) + metric.bytesOf added < 2 ^ 32 →
      Fits metric exact child (front ++ (removed ++ back)) →
      Fits metric exact (tsTreeEdit edit child) (front ++ (added ++ back))) :
    Fits metric exact child' text' := by
  cases h with
  | ahead rest hfront hrest hpassed htext hchild' =>
      rw [hchild', htext]
      exact hchild.invalidateLookahead _
  | taken edit childFront childRemoved left childBack hfront hremoved hold hcut hpassed htext hedit
      hchild' =>
      subst hchild' htext hold
      exact ih edit childFront childRemoved added childBack hedit hlt hchild
  | cut edit gone childRemoved left childBack hremoved hsome hold hcut hpassed hpassed' htext hedit
      hchild' =>
      subst hchild' htext hold
      refine ih edit [] childRemoved [] text' hedit ?_ hchild
      rw [List.nil_append, metric.bytesOf_nil]
      omega
  | behind offset between rest hback hpassed hpassed' htext hchild' =>
      rw [hchild', htext]
      exact hchild.invalidateLookahead _

/-- The loop over children that fit a text, wherever it stands: they come to fit what the edit makes
of the text. It has to reach the edit. -/
theorem fitsAmong_tsTreeEditAmong {edit : TSInputEdit} {front removed added back : List α}
    (hedit : EditOf metric exact edit front removed added)
    (hlt : metric.bytesOf (front ++ (removed ++ back)) + metric.bytesOf added < 2 ^ 32)
    {children : List Tree}
    (ih : ∀ child ∈ children, ∀ edit front removed added back,
      EditOf metric exact edit front removed added →
      metric.bytesOf (front ++ (removed ++ back)) + metric.bytesOf added < 2 ^ 32 →
      Fits metric exact child (front ++ (removed ++ back)) →
      Fits metric exact (tsTreeEdit edit child) (front ++ (added ++ back)))
    {loop : EditLoop} {passed passed' rest : List α}
    (hat : LoopAt metric exact front removed added back loop passed passed')
    (hreach : children = [] → loop.foundFirstChild = true ∨ front ≠ passed)
    (hfits : FitsAmong metric exact passed children rest)
    (htext : passed ++ rest = front ++ (removed ++ back)) :
    ∃ rest', passed' ++ rest' = front ++ (added ++ back) ∧
      FitsAmong metric exact passed' (tsTreeEditAmong edit loop children) rest' := by
  induction children generalizing loop passed passed' rest with
  | nil =>
      rw [FitsAmong] at hfits
      subst hfits
      refine ⟨[], ?_, by rw [tsTreeEditAmong, FitsAmong]⟩
      rw [List.append_nil] at htext ⊢
      cases hat with
      | before ahead hfront hpassed hfound hbytes hextent hright =>
          -- the edit would start behind the text
          subst hfront
          rw [List.append_assoc, List.self_eq_append_right, List.append_eq_nil_iff] at htext
          have hnot := hreach rfl
          rw [hfound, htext.1, List.append_nil] at hnot
          exact absurd hnot (by simp)
      | behind gone left between after hremoved hback hcut hpassed hpassed' hfound hbytes hextent
          hright =>
          subst hremoved hback hpassed hpassed'
          simp only [List.append_assoc, List.append_cancel_left_eq] at htext
          have hlen := congrArg List.length htext
          simp only [List.length_append] at hlen
          have hafter : after = [] := List.length_eq_zero_iff.mp (by omega)
          rw [hafter, List.append_nil]
  | cons child children ihChildren =>
      rw [FitsAmong] at hfits
      obtain ⟨text, rest, rfl, hoffset, hchild, hrest⟩ := hfits
      have htotal := congrArg metric.bytesOf htext
      simp only [Metric.bytesOf_append] at htotal
      obtain ⟨child', text', loop', hturn, hchildEdit, hnext⟩ :=
        loopTurn_of_loopAt hedit hlt hchild htext hat
      have hchild' : Fits metric exact child' text' := by
        refine hchildEdit.fits hchild ?_ (ih child List.mem_cons_self)
        simp only [Metric.bytesOf_append] at hlt
        omega
      obtain ⟨hat', hreach'⟩ := hnext hchild'
      obtain ⟨rest', htext', hrest'⟩ := ihChildren
        (fun c hc => ih c (List.mem_cons_of_mem child hc)) hat' (fun _ => hreach') hrest
        (by rw [List.append_assoc, htext])
      refine ⟨text' ++ rest', by rw [← List.append_assoc, htext'], ?_⟩
      rw [hturn, FitsAmong]
      refine ⟨text', rest', rfl, ?_, fits_setOffset_iff.mpr hchild', hrest'⟩
      rw [label_setOffset]
      exact hat.measures_childRight

/-- **`ts_tree_edit` edits the text of a tree**: a tree that fits a text fits the edited text, when
the edit is described truthfully. -/
theorem fits_tsTreeEdit {edit : TSInputEdit} {front removed added back : List α} {tree : Tree}
    (hedit : EditOf metric exact edit front removed added)
    (hlt : metric.bytesOf (front ++ (removed ++ back)) + metric.bytesOf added < 2 ^ 32)
    (hfits : Fits metric exact tree (front ++ (removed ++ back))) :
    Fits metric exact (tsTreeEdit edit tree) (front ++ (added ++ back)) := by
  induction tree using RoseTree.induct generalizing edit front removed added back with
  | node self children ih =>
      rw [Fits] at hfits
      obtain ⟨⟨padding, content, htext, hpadding, hsize⟩, hchildren⟩ := hfits
      rw [tsTreeEdit, Fits]
      refine ⟨measures_editOwnLengths hedit hpadding hsize htext.symm hlt, fun hne => ?_⟩
      have hne' : children ≠ [] := by
        rintro rfl
        exact hne rfl
      have hstart : LoopAt metric exact front removed added back ⟨false, 0, ⟨0, 0⟩, Length.zero⟩
          [] [] := .before front rfl rfl rfl rfl rfl measures_zero
      obtain ⟨text', htext', hamong⟩ := fitsAmong_tsTreeEditAmong hedit hlt
        (fun child hchild edit front removed added back hedit hlt hfits =>
          ih child hchild hedit hlt hfits)
        hstart (fun h => absurd h hne') (hchildren hne') rfl
      rw [List.nil_append] at htext'
      exact htext' ▸ hamong

/-- `ts_document_edit` edits the text of a tree as well: a truthful description starts inside the
text and removes nothing behind it, so nothing is cut off. -/
theorem fits_tsDocumentEdit {edit : TSInputEdit} {front removed added back : List α} {tree : Tree}
    (hedit : EditOf metric exact edit front removed added)
    (hlt : metric.bytesOf (front ++ (removed ++ back)) + metric.bytesOf added < 2 ^ 32)
    (hfits : Fits metric exact tree (front ++ (removed ++ back))) :
    Fits metric exact (tsDocumentEdit edit tree) (front ++ (added ++ back)) := by
  have htotal := hfits.totalBytes_eq (by omega)
  simp only [Metric.bytesOf_append] at htotal
  rw [tsDocumentEdit]
  rw [if_neg (by rw [hedit.startByte_eq]; omega),
    if_neg (by rw [hedit.startByte_eq, hedit.bytesRemoved_eq]; omega)]
  exact fits_tsTreeEdit hedit hlt hfits

end Trees

/-! ## Runs of edits -/

/-- The replacement of a segment of a text. -/
structure Replacement (α : Type) where
  /-- The position of the first replaced symbol. -/
  lo : ℕ
  /-- The position behind the last replaced symbol. -/
  hi : ℕ
  /-- The symbols put in their place. -/
  str : List α

namespace Replacement

variable (metric : Metric α)

/-- The text after a replacement. -/
def apply (edit : Replacement α) (text : List α) : List α :=
  Splice.splice edit.lo edit.hi edit.str text

/-- The description that an editor owes the runtime for a replacement. -/
def describe (edit : Replacement α) (text : List α) : TSInputEdit where
  startByte := metric.bytesOf (text.take edit.lo)
  bytesRemoved := metric.bytesOf ((text.take edit.hi).drop edit.lo)
  bytesAdded := metric.bytesOf edit.str
  startPoint := metric.pointOf (text.take edit.lo)
  extentRemoved := metric.pointOf ((text.take edit.hi).drop edit.lo)
  extentAdded := metric.pointOf edit.str

/-- The bounds of a replacement are in order, and 32 bits suffice for the bytes that it brings
together. -/
structure Admissible (text : List α) (edit : Replacement α) : Prop where
  /-- The segment is not turned around. -/
  ordered : edit.lo ≤ edit.hi
  /-- No more than `2^32` bytes are in play. -/
  bytes_lt : metric.bytesOf text + metric.bytesOf edit.str < 2 ^ 32

/-- One step of an editing session: the tree is told about a replacement of its text. -/
def step (state : Tree × List α) (edit : Replacement α) : Option (Unit × (Tree × List α)) :=
  some ((), (tsDocumentEdit (edit.describe metric state.2) state.1, edit.apply state.2))

/-- A described replacement keeps the fit of a tree. -/
theorem fits_step {tree : Tree} {text : List α} {edit : Replacement α}
    (hfits : Fits metric exact tree text) (hok : Admissible metric text edit) :
    Fits metric exact (tsDocumentEdit (edit.describe metric text) tree) (edit.apply text) := by
  have hsplit : text.take edit.lo ++ ((text.take edit.hi).drop edit.lo ++ text.drop
    edit.hi) = text := by
    rw [← List.append_assoc]
    have htake : text.take edit.lo = (text.take edit.hi).take edit.lo := by
      rw [List.take_take, Nat.min_eq_left hok.ordered]
    rw [htake, List.take_append_drop, List.take_append_drop]
  rw [apply, Splice.splice, List.append_assoc]
  have hedit : EditOf metric exact (edit.describe metric text) (text.take edit.lo)
      ((text.take edit.hi).drop edit.lo) edit.str := ⟨rfl, rfl, rfl, fun _ => ⟨rfl, rfl, rfl⟩⟩
  refine fits_tsDocumentEdit hedit ?_ ?_
  · rw [hsplit]
    exact hok.bytes_lt
  · rw [hsplit]
    exact hfits

/-- **A tree follows its text** through every session of described edits. -/
theorem fits_run {tree tree' : Tree} {text text' : List α} {edits : List (Replacement α)}
    (hfits : Fits metric exact tree text)
    (hok : Machine.Throughout (step metric) (fun state => Admissible metric state.2)
      (tree, text) edits)
    (hrun : Machine.run (step metric) (tree, text) edits = some (tree', text')) :
    Fits metric exact tree' text' := by
  refine Machine.run_invariant_of_throughout (fun state => Fits metric exact state.1 state.2)
    (fun state edit output next hstate hgood hstep => ?_) hfits hok hrun
  rw [step, Option.some.injEq, Prod.mk.injEq] at hstep
  rw [← hstep.2]
  exact fits_step metric hstate hgood

end Replacement

/-! ## Two brackets -/

/-- UTF-16 text without surrogate pairs: every unit is a character of two bytes. -/
def planeMetric : Metric UInt16 where
  newline unit := decide (unit = 10)
  columns _ := 1
  size _ := 2
  size_pos _ := Nat.two_pos
  columns_le _ := Nat.le_succ 1

/-- The tree of `[]`, two brackets in an array. -/
def bracketsTree : Tree :=
  .node { symbol := 15, visible := true, named := true, padding := ⟨0, 0, ⟨0, 0⟩⟩,
          size := ⟨4, 2, ⟨0, 2⟩⟩, offset := Length.zero, bytesScanned := 5 }
    [.node { symbol := 5, visible := true, named := false, padding := ⟨0, 0, ⟨0, 0⟩⟩,
             size := ⟨2, 1, ⟨0, 1⟩⟩, offset := Length.zero, bytesScanned := 3 } [],
     .node { symbol := 6, visible := true, named := false, padding := ⟨0, 0, ⟨0, 0⟩⟩,
             size := ⟨2, 1, ⟨0, 1⟩⟩, offset := ⟨2, 1, ⟨0, 1⟩⟩, bytesScanned := 3 } []]

/-- The tree of `[]` fits its text. -/
theorem fits_bracketsTree : Fits planeMetric True bracketsTree [0x5b, 0x5d] := by
  rw [bracketsTree, Fits]
  refine ⟨⟨[], [0x5b, 0x5d], rfl, ⟨rfl, fun _ => .inl rfl, fun _ => rfl⟩,
    ⟨rfl, fun _ => .inl rfl, fun _ => rfl⟩⟩, fun _ => ?_⟩
  refine ⟨[0x5b], [0x5d], rfl, measures_zero, ⟨⟨[], [0x5b], rfl, measures_zero,
    ⟨rfl, fun _ => .inl rfl, fun _ => rfl⟩⟩, fun hne => absurd rfl hne⟩, ?_⟩
  exact ⟨[0x5d], [], rfl, ⟨rfl, fun _ => .inl rfl, fun _ => rfl⟩, ⟨⟨[], [0x5d], rfl, measures_zero,
    ⟨rfl, fun _ => .inl rfl, fun _ => rfl⟩⟩, fun hne => absurd rfl hne⟩, rfl⟩

/-- The theorem on a session that puts a line end and a digit between the brackets and then takes
the closing bracket away. -/
theorem Replacement.fits_run_brackets :
    Fits planeMetric True
      (tsDocumentEdit ((⟨3, 4, []⟩ : Replacement UInt16).describe planeMetric
        [0x5b, 10, 0x31, 0x5d]) (tsDocumentEdit
        ((⟨1, 1, [10, 0x31]⟩ : Replacement UInt16).describe planeMetric [0x5b, 0x5d]) bracketsTree))
      [0x5b, 10, 0x31] :=
  @Replacement.fits_run _ True planeMetric bracketsTree _ _ _ [⟨1, 1, [10, 0x31]⟩, ⟨3, 4, []⟩]
    fits_bracketsTree ⟨⟨by decide, by decide⟩, fun _ _ hstep => by
      rw [Replacement.step, Option.some.injEq, Prod.mk.injEq] at hstep
      rw [← hstep.2]
      exact ⟨⟨by decide, by decide⟩, fun _ _ _ => trivial⟩⟩ rfl

end TreeSitterTextStorage
