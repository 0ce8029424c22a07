import TreeSitterTextStorage.Runtime.Tree

/-! # Editing a syntax tree

`ts_tree_edit` and `ts_document_edit`: how an edit description changes the lengths and offsets
stored in a tree, and marks the nodes it touches as changed, before the next parse. -/

namespace TreeSitterTextStorage

mutual
/-- `ts_tree_invalidate_lookahead`. -/
def tsTreeInvalidateLookahead (editByteOffset : ℕ) : Tree → Tree
  | .node self children =>
      if editByteOffset ≥ self.bytesScanned then .node self children
      else .node { self with hasChanges := true }
        (invalidateLookaheadAmong editByteOffset 0 children)
/-- The loop of `ts_tree_invalidate_lookahead` over the children. -/
def invalidateLookaheadAmong (editByteOffset childStartByte : ℕ) : List Tree → List Tree
  | [] => []
  | child :: rest =>
      if childStartByte > editByteOffset then child :: rest
      else
        tsTreeInvalidateLookahead (wrapSub editByteOffset childStartByte) child ::
          invalidateLookaheadAmong editByteOffset
            (wrapAdd childStartByte (tsTreeTotalBytes child.label)) rest
end

/-- The part of `ts_tree_edit` in front of the loop: the node's own padding and size. -/
def editOwnLengths (edit : TSInputEdit) (self : TreeData) : TreeData :=
  let oldEndByte := wrapAdd edit.startByte edit.bytesRemoved
  let newEndByte := wrapAdd edit.startByte edit.bytesAdded
  let oldEndPoint := pointAdd edit.startPoint edit.extentRemoved
  let newEndPoint := pointAdd edit.startPoint edit.extentAdded
  let self := { self with hasChanges := true }
  if edit.startByte < self.padding.bytes then
    let padding := self.padding.setUnknownChars
    -- the edit stays inside the padding, or goes on into the content
    if padding.bytes ≥ oldEndByte then
      let trailingPaddingBytes := wrapSub padding.bytes oldEndByte
      let trailingPaddingExtent := pointSub padding.extent oldEndPoint
      { self with
        padding := { padding with
          bytes := wrapAdd newEndByte trailingPaddingBytes
          extent := pointAdd newEndPoint trailingPaddingExtent } }
    else
      let size := self.size.setUnknownChars
      let removedContentBytes := wrapSub oldEndByte padding.bytes
      let removedContentExtent := pointSub oldEndPoint padding.extent
      { self with
        size := { size with
          bytes := wrapSub size.bytes removedContentBytes
          extent := pointSub size.extent removedContentExtent }
        padding := { padding with bytes := newEndByte, extent := newEndPoint } }
  -- an insertion right in front of the content counts as padding
  else if edit.startByte = self.padding.bytes ∧ edit.bytesRemoved = 0 then
    let padding := self.padding.setUnknownChars
    { self with
      padding := { padding with
        bytes := wrapAdd padding.bytes edit.bytesAdded
        extent := pointAdd padding.extent edit.extentAdded } }
  else
    let size := self.size.setUnknownChars
    let trailingContentBytes := wrapSub (tsTreeTotalBytes self) oldEndByte
    let trailingContentExtent := pointSub (tsTreeTotalExtent self) oldEndPoint
    { self with
      size := { size with
        bytes := wrapSub (wrapAdd newEndByte trailingContentBytes) self.padding.bytes
        extent := pointSub (pointAdd newEndPoint trailingContentExtent) self.padding.extent } }

/-- What the loop of `ts_tree_edit` carries from child to child. -/
structure EditLoop where
  /-- `found_first_child`. -/
  foundFirstChild : Bool
  /-- `remaining_bytes_to_delete`. -/
  remainingBytesToDelete : ℕ
  /-- `remaining_extent_to_delete`. -/
  remainingExtentToDelete : TSPoint
  /-- `child_right`: where the children passed so far end. -/
  childRight : Length

mutual
/-- `ts_tree_edit`. The source asserts first that the removal ends inside the node, for the node and
for every child that it edits; this assertion is left out here. -/
def tsTreeEdit (edit : TSInputEdit) : Tree → Tree
  | .node self children =>
      .node (editOwnLengths edit self)
        (tsTreeEditAmong edit ⟨false, 0, ⟨0, 0⟩, Length.zero⟩ children)
/-- The loop of `ts_tree_edit` over the children: the first child that reaches the edit takes it,
the children behind give up what it still removes, and the others only lose their lookahead. -/
def tsTreeEditAmong (edit : TSInputEdit) (loop : EditLoop) : List Tree → List Tree
  | [] => []
  | child :: rest =>
      let oldEndByte := wrapAdd edit.startByte edit.bytesRemoved
      let oldEndPoint := pointAdd edit.startPoint edit.extentRemoved
      let childLeft := loop.childRight
      let childRight := lengthAdd childLeft (tsTreeTotalSize child.label)
      -- the first child that reaches the edit takes it, up to its own end
      if !loop.foundFirstChild ∧ childRight.bytes ≥ edit.startByte then
        let overlaps := oldEndByte > childRight.bytes
        let childEdit : TSInputEdit :=
          { startByte := wrapSub edit.startByte childLeft.bytes
            bytesAdded := edit.bytesAdded
            bytesRemoved :=
              if overlaps then wrapSub childRight.bytes edit.startByte else edit.bytesRemoved
            startPoint := pointSub edit.startPoint childLeft.extent
            extentAdded := edit.extentAdded
            extentRemoved :=
              if overlaps then pointSub childRight.extent edit.startPoint
              else edit.extentRemoved }
        let edited := tsTreeEdit childEdit child
        setOffset childLeft edited ::
          tsTreeEditAmong edit
            { foundFirstChild := true
              remainingBytesToDelete :=
                if overlaps then wrapSub oldEndByte childRight.bytes
                else loop.remainingBytesToDelete
              remainingExtentToDelete :=
                if overlaps then pointSub oldEndPoint childRight.extent
                else loop.remainingExtentToDelete
              childRight := lengthAdd childLeft (tsTreeTotalSize edited.label) } rest
      -- a child behind it gives up what is still to be removed
      else if loop.remainingBytesToDelete > 0 then
        let childEdit : TSInputEdit :=
          { startByte := 0
            bytesAdded := 0
            bytesRemoved := min loop.remainingBytesToDelete (tsTreeTotalBytes child.label)
            startPoint := ⟨0, 0⟩
            extentAdded := ⟨0, 0⟩
            extentRemoved :=
              pointMin loop.remainingExtentToDelete (tsTreeTotalSize child.label).extent }
        let edited := tsTreeEdit childEdit child
        setOffset childLeft edited ::
          tsTreeEditAmong edit
            { loop with
              remainingBytesToDelete := loop.remainingBytesToDelete - childEdit.bytesRemoved
              remainingExtentToDelete :=
                pointSub loop.remainingExtentToDelete childEdit.extentRemoved
              childRight := lengthAdd childLeft (tsTreeTotalSize edited.label) } rest
      else
        let edited := tsTreeInvalidateLookahead (wrapSub edit.startByte childLeft.bytes) child
        setOffset childLeft edited ::
          tsTreeEditAmong edit
            { loop with childRight := lengthAdd childLeft (tsTreeTotalSize edited.label) } rest
/-- The assignment `child->context.offset = child_left`. -/
def setOffset (offset : Length) : Tree → Tree
  | .node self children => .node { self with offset := offset } children
end

/-- `ts_document_edit` on the tree of a document. -/
def tsDocumentEdit (edit : TSInputEdit) (tree : Tree) : Tree :=
  let maxBytes := tsTreeTotalBytes tree.label
  -- the runtime ignores an edit behind the text and cuts off a removal that reaches beyond it
  if edit.startByte > maxBytes then tree
  else if edit.bytesRemoved > maxBytes - edit.startByte then
    tsTreeEdit { edit with bytesRemoved := maxBytes - edit.startByte } tree
  else tsTreeEdit edit tree

/-- An edit that starts inside the text of a tree marks its root as changed, so the next parse does
not return early. -/
theorem hasChanges_tsDocumentEdit {edit : TSInputEdit} {tree : Tree}
    (h : edit.startByte ≤ tsTreeTotalBytes tree.label) :
    (tsDocumentEdit edit tree).label.hasChanges = true := by
  have hown : ∀ (e : TSInputEdit) (t : Tree), (tsTreeEdit e t).label.hasChanges = true := by
    rintro e ⟨self, children⟩
    rw [tsTreeEdit, RoseTree.label_node, editOwnLengths]
    simp only
    -- every branch starts from the node marked as changed
    split
    · split <;> rfl
    · split <;> rfl
  rw [tsDocumentEdit, if_neg (not_lt.mpr h)]
  split
  · exact hown _ tree
  · exact hown _ tree

end TreeSitterTextStorage
