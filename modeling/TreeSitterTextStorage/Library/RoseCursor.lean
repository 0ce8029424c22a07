import TreeSitterTextStorage.Library.RoseTree

/-! # Cursors in rose trees

A cursor stands at a node of a rose tree and knows the way back: the nodes above it, each with the
index of the child through which the cursor has come. Cursors move to a child, to their parent, and
to the node that follows the subtree they stand at in document order. A cursor carries the proof
that its way back is one, so moving cannot leave the tree. -/

universe u

namespace RoseTree

variable {α : Type u}

/-! ## Sizes -/

mutual
/-- The number of nodes of a tree. -/
def size : RoseTree α → ℕ
  | .node _ children => sizeList children + 1
/-- The number of nodes of a list of trees. -/
def sizeList : List (RoseTree α) → ℕ
  | [] => 0
  | t :: ts => t.size + sizeList ts
end

theorem size_pos (t : RoseTree α) : 0 < t.size := by
  cases t with
  | node label children => exact Nat.succ_pos _

theorem size_eq (t : RoseTree α) : t.size = sizeList t.children + 1 := by
  cases t with
  | node label children => rfl

/-- The trees from an index on, split at the first one. -/
theorem sizeList_drop {ts : List (RoseTree α)} {i : ℕ} {t : RoseTree α} (h : ts[i]? = some t) :
    sizeList (ts.drop i) = t.size + sizeList (ts.drop (i + 1)) := by
  obtain ⟨hlt, rfl⟩ := List.getElem?_eq_some_iff.mp h
  rw [List.drop_eq_getElem_cons hlt, sizeList]

/-! ## Cursors -/

/-- A way back from a node: each entry is the node above together with the index of the child below
it, innermost first. -/
inductive Links : RoseTree α → List (RoseTree α × ℕ) → Prop
  /-- The root has no way back. -/
  | top (t : RoseTree α) : Links t []
  /-- A child goes back to its parent. -/
  | child {t above : RoseTree α} {index : ℕ} {up : List (RoseTree α × ℕ)}
      (hchild : above.children[index]? = some t) (hup : Links above up) :
      Links t ((above, index) :: up)

/-- The way back goes on from the parent. -/
theorem Links.up {t above : RoseTree α} {index : ℕ} {up : List (RoseTree α × ℕ)}
    (h : Links t ((above, index) :: up)) : Links above up := by
  cases h with
  | child _ hup => exact hup

/-- A node of a tree with the way back to the root. -/
structure Cursor (α : Type u) where
  /-- The node the cursor stands at. -/
  tree : RoseTree α
  /-- The nodes above, innermost first, each with the index of the child on the way. -/
  ancestors : List (RoseTree α × ℕ)
  /-- The ancestors are a way back. -/
  links : Links tree ancestors

namespace Cursor

/-- The cursor at the root of a tree. -/
def top (t : RoseTree α) : Cursor α := ⟨t, [], .top t⟩

/-- The root of the tree of a way back. -/
def rootOf : RoseTree α → List (RoseTree α × ℕ) → RoseTree α
  | t, [] => t
  | _, (above, _) :: up => rootOf above up

/-- The root of the tree a cursor stands in. -/
def root (c : Cursor α) : RoseTree α := rootOf c.tree c.ancestors

/-- The cursor at a child. -/
def child (c : Cursor α) (index : ℕ) : Option (Cursor α) :=
  match h : c.tree.children[index]? with
  | none => none
  | some t => some ⟨t, (c.tree, index) :: c.ancestors, .child h c.links⟩

/-- The cursor at the parent. -/
def parent (c : Cursor α) : Option (Cursor α) :=
  match c with
  | ⟨_, [], _⟩ => none
  | ⟨_, (above, _) :: up, links⟩ => some ⟨above, up, links.up⟩

/-- The index of the node among its siblings. -/
def index (c : Cursor α) : ℕ := (c.ancestors.head?.map Prod.snd).getD 0

/-- The node that follows a subtree: the next sibling of its root, or else of the nearest node above
that has one. -/
def behindFrom : (t : RoseTree α) → (up : List (RoseTree α × ℕ)) → Links t up → Option (Cursor α)
  | _, [], _ => none
  | _, (above, index) :: up, links =>
      match h : above.children[index + 1]? with
      | some next => some ⟨next, (above, index + 1) :: up, .child h links.up⟩
      | none => behindFrom above up links.up

/-- The cursor at the node that follows the subtree of a cursor in document order. -/
def behind (c : Cursor α) : Option (Cursor α) := behindFrom c.tree c.ancestors c.links

/-- A child, spelled out. -/
theorem child_eq_some_iff {c d : Cursor α} {index : ℕ} :
    c.child index = some d ↔
      c.tree.children[index]? = some d.tree ∧ d.ancestors = (c.tree, index) :: c.ancestors := by
  rw [child]
  split
  · next h => simp [h]
  · next t h =>
      obtain ⟨tree, ancestors, links⟩ := d
      simp only [Option.some.injEq, Cursor.mk.injEq, h]
      exact and_congr_right fun _ => eq_comm

/-- A parent, spelled out. -/
theorem parent_eq_some_iff {c d : Cursor α} :
    c.parent = some d ↔ c.ancestors = (d.tree, c.index) :: d.ancestors := by
  obtain ⟨tree, ancestors, links⟩ := c
  obtain ⟨tree', ancestors', links'⟩ := d
  cases ancestors with
  | nil => simp [parent]
  | cons entry up =>
      obtain ⟨above, index⟩ := entry
      simp [parent, Cursor.index]

/-- A node is the child of its parent at its index. -/
theorem child_of_parent {c d : Cursor α} (h : c.parent = some d) : d.child c.index = some c := by
  have hup := parent_eq_some_iff.mp h
  have hlinks := c.links
  rw [hup] at hlinks
  cases hlinks with
  | child hchild _ => exact child_eq_some_iff.mpr ⟨hchild, hup⟩

/-- Moving to a child stays in the tree. -/
theorem root_of_child {c d : Cursor α} {index : ℕ} (h : c.child index = some d) :
    d.root = c.root := by
  rw [root, (child_eq_some_iff.mp h).2, rootOf, root]

/-- Moving to the parent stays in the tree. -/
theorem root_of_parent {c d : Cursor α} (h : c.parent = some d) : d.root = c.root := by
  rw [root, root, parent_eq_some_iff.mp h, rootOf]

/-- A cursor stands at a node of its tree. -/
theorem hasNode (c : Cursor α) : HasNode c.root c.tree := by
  obtain ⟨tree, ancestors, links⟩ := c
  show HasNode (rootOf tree ancestors) tree
  induction links with
  | top t => exact Or.inl rfl
  | child hchild _ ih =>
      have hbelow := below_of_mem (List.mem_of_getElem? hchild)
      rcases ih with habove | habove
      · exact Or.inr (habove ▸ hbelow)
      · exact Or.inr (habove.trans hbelow)

/-- The node that follows a subtree is a later sibling of a node on the way back. -/
theorem behind_induction {motive : Cursor α → Cursor α → Prop}
    (sibling : ∀ c above next : Cursor α, c.parent = some above →
      above.child (c.index + 1) = some next → motive c next)
    (up : ∀ c above next : Cursor α, c.parent = some above →
      above.tree.children[c.index + 1]? = none → above.behind = some next → motive above next →
      motive c next)
    {c next : Cursor α} (h : c.behind = some next) : motive c next := by
  obtain ⟨tree, ancestors, links⟩ := c
  induction ancestors generalizing tree with
  | nil => exact absurd h (by simp [behind, behindFrom])
  | cons entry rest ih =>
      obtain ⟨above, index⟩ := entry
      rw [behind, behindFrom] at h
      split at h
      · next sib hsib =>
          rw [Option.some.injEq] at h
          subst h
          exact sibling _ ⟨above, rest, links.up⟩ _ rfl (child_eq_some_iff.mpr ⟨hsib, rfl⟩)
      · next hsib => exact up _ ⟨above, rest, links.up⟩ _ rfl hsib h (ih above links.up h)

/-- Moving behind a subtree stays in the tree. -/
theorem root_of_behind {c d : Cursor α} (h : c.behind = some d) : d.root = c.root := by
  refine behind_induction (motive := fun c d => d.root = c.root) ?_ ?_ h
  · intro c above next hparent hchild
    rw [root_of_child hchild, root_of_parent hparent]
  · intro c above next hparent _ _ ih
    rw [ih, root_of_parent hparent]

/-! ## What is left of a walk -/

/-- The number of nodes behind the children on a way back. -/
def remainingBehind : List (RoseTree α × ℕ) → ℕ
  | [] => 0
  | (above, index) :: up => sizeList (above.children.drop (index + 1)) + remainingBehind up

/-- The number of nodes from a cursor on, in document order. -/
def remaining (c : Cursor α) : ℕ := c.tree.size + remainingBehind c.ancestors

/-- The first child has fewer nodes left. -/
theorem remaining_of_child_zero {c d : Cursor α} (h : c.child 0 = some d) :
    d.remaining < c.remaining := by
  obtain ⟨hchild, hup⟩ := child_eq_some_iff.mp h
  have hdrop := sizeList_drop hchild
  rw [List.drop_zero] at hdrop
  rw [remaining, remaining, hup, remainingBehind, c.tree.size_eq, hdrop]
  omega

/-- What follows a subtree is what was left without it. -/
theorem remaining_of_behind {c d : Cursor α} (h : c.behind = some d) :
    d.remaining + c.tree.size = c.remaining := by
  have hbehind : d.remaining = remainingBehind c.ancestors := by
    refine behind_induction (motive := fun c d => d.remaining = remainingBehind c.ancestors) ?_ ?_ h
    · intro c above next hparent hchild
      obtain ⟨hnext, hup⟩ := child_eq_some_iff.mp hchild
      rw [remaining, parent_eq_some_iff.mp hparent, hup, remainingBehind, remainingBehind,
        sizeList_drop hnext]
      omega
    · intro c above next hparent hnone _ ih
      rw [ih, parent_eq_some_iff.mp hparent, remainingBehind,
        List.drop_of_length_le (List.getElem?_eq_none_iff.mp hnone), sizeList, Nat.zero_add]
  rw [hbehind, remaining]
  omega

/-- The first leaf below a node: first children all the way down. -/
def firstLeaf (c : Cursor α) : Cursor α :=
  match _h : c.child 0 with
  | none => c
  | some d => d.firstLeaf
termination_by c.remaining
decreasing_by exact remaining_of_child_zero _h

/-- What holds of a node and passes from nodes to their first children holds of its first leaf. -/
theorem firstLeaf_induction {motive : Cursor α → Prop}
    (step : ∀ c d : Cursor α, c.child 0 = some d → motive c → motive d) {c : Cursor α}
    (h : motive c) : motive c.firstLeaf := by
  induction c using firstLeaf.induct with
  | case1 c hleaf =>
      rw [firstLeaf]
      split
      · exact h
      · next d hchild => rw [hleaf] at hchild; exact absurd hchild (by simp)
  | case2 c d hchild ih =>
      rw [firstLeaf]
      split
      · exact h
      · next d' hchild' =>
          rw [hchild, Option.some.injEq] at hchild'
          exact hchild' ▸ ih (step c d hchild h)

end Cursor

end RoseTree
