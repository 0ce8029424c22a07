import Mathlib.Data.List.Basic
import Mathlib.Data.List.Chain
import Mathlib.Logic.Relation

/-! # Labelled rose trees

Finite trees with a label at every node and an ordered list of children, with an induction principle
over the children, the relation between a node and the nodes below it, the *descent* that enters the
first child satisfying a predicate until no child does, and the *outermost* nodes satisfying a
predicate. -/

universe u v w

/-- A finite tree with a label at every node and any number of ordered children. -/
inductive RoseTree (α : Type u) where
  /-- A node with its label and its children. -/
  | node (label : α) (children : List (RoseTree α))

namespace RoseTree

variable {α : Type u}

/-- The label at the root of a tree. -/
def label : RoseTree α → α
  | .node label _ => label

/-- The subtrees directly below the root of a tree. -/
def children : RoseTree α → List (RoseTree α)
  | .node _ children => children

@[simp] theorem label_node (a : α) (ts : List (RoseTree α)) : (node a ts).label = a := rfl

@[simp] theorem children_node (a : α) (ts : List (RoseTree α)) : (node a ts).children = ts := rfl

/-- **Induction over a rose tree**: the hypothesis speaks about every child. -/
@[elab_as_elim, induction_eliminator]
theorem induct {motive : RoseTree α → Prop}
    (node : ∀ label children, (∀ t ∈ children, motive t) → motive (.node label children))
    (t : RoseTree α) : motive t :=
  RoseTree.rec (motive_1 := motive) (motive_2 := fun ts => ∀ t ∈ ts, motive t) node
    (fun _ h => absurd h List.not_mem_nil)
    (fun _ _ ihHead ihTail t ht => by
      rcases List.mem_cons.mp ht with rfl | ht
      · exact ihHead
      · exact ihTail t ht)
    t

/-! ## Height -/

mutual
/-- The number of nodes on a longest path from the root. -/
def height : RoseTree α → ℕ
  | .node _ children => heightList children + 1
/-- The largest height in a list of trees. -/
def heightList : List (RoseTree α) → ℕ
  | [] => 0
  | t :: ts => max t.height (heightList ts)
end

/-- A tree of a list is at most as high as the list. -/
theorem height_le_heightList {t : RoseTree α} {ts : List (RoseTree α)} (h : t ∈ ts) :
    t.height ≤ heightList ts := by
  induction ts with
  | nil => exact absurd h List.not_mem_nil
  | cons head tail ih =>
      rw [heightList]
      rcases List.mem_cons.mp h with rfl | h
      · exact Nat.le_max_left _ _
      · exact Nat.le_trans (ih h) (Nat.le_max_right _ _)

/-! ## Proper descendants -/

/-- `v` lies below `t`: it is a child of `t`, or a child of such a node, and so on. -/
def Below : RoseTree α → RoseTree α → Prop := Relation.TransGen fun t c => c ∈ t.children

/-- `v` is a node of `t`: its root or a node below it. -/
def HasNode (t v : RoseTree α) : Prop := v = t ∨ Below t v

/-- A child lies below its parent. -/
theorem below_of_mem {t c : RoseTree α} (h : c ∈ t.children) : Below t c := Relation.TransGen.single h

/-- What lies below a child lies below its parent. -/
theorem Below.of_child {t c v : RoseTree α} (h : c ∈ t.children) (hv : Below c v) : Below t v :=
  Relation.TransGen.head h hv

/-- What lies below a node is one of its children or lies below one of them. -/
theorem below_iff {t v : RoseTree α} : Below t v ↔ ∃ c ∈ t.children, HasNode c v := by
  constructor
  · intro h
    cases Relation.TransGen.head'_iff.mp h with
    | intro c hc =>
        refine ⟨c, hc.1, ?_⟩
        rcases Relation.reflTransGen_iff_eq_or_transGen.mp hc.2 with rfl | hbelow
        · exact Or.inl rfl
        · exact Or.inr hbelow
  · rintro ⟨c, hc, rfl | hv⟩
    · exact below_of_mem hc
    · exact hv.of_child hc

/-- A node below another one is less high. -/
theorem Below.height_lt {t v : RoseTree α} (h : Below t v) : v.height < t.height := by
  have hchild : ∀ {a b : RoseTree α}, b ∈ a.children → b.height < a.height := by
    rintro ⟨label, children⟩ b hb
    exact Nat.lt_succ_of_le (height_le_heightList hb)
  induction h with
  | single hc => exact hchild hc
  | tail _ hc ih => exact (hchild hc).trans ih

/-- Of two nodes at most one lies below the other. -/
theorem Below.asymm {t v : RoseTree α} (h : Below t v) : ¬ Below v t := fun h' =>
  Nat.lt_asymm h.height_lt h'.height_lt

/-- No node lies below itself. -/
theorem Below.ne {t v : RoseTree α} (h : Below t v) : t ≠ v := by
  rintro rfl
  exact Nat.lt_irrefl _ h.height_lt

/-! ## Descent -/

mutual
/-- The nodes met below the root when the first child that satisfies `p` is entered, and so on
until no child does. -/
def descent (p : RoseTree α → Bool) : RoseTree α → List (RoseTree α)
  | .node _ children => descentList p children
/-- The descent that starts by choosing among a list of siblings. -/
def descentList (p : RoseTree α → Bool) : List (RoseTree α) → List (RoseTree α)
  | [] => []
  | t :: ts => if p t then t :: descent p t else descentList p ts
end

/-- Choosing among siblings finds the first one that satisfies the predicate and continues there. -/
theorem descentList_eq (p : RoseTree α → Bool) (ts : List (RoseTree α)) :
    descentList p ts = match ts.find? p with
      | some t => t :: descent p t
      | none => [] := by
  induction ts with
  | nil => rfl
  | cons t ts ih =>
      rw [descentList]
      by_cases h : p t
      · rw [if_pos h, List.find?_cons_of_pos h]
      · rw [if_neg h, List.find?_cons_of_neg h, ih]

/-- One step of the descent. -/
theorem descent_eq (p : RoseTree α → Bool) (t : RoseTree α) :
    descent p t = match t.children.find? p with
      | some c => c :: descent p c
      | none => [] := by
  cases t with
  | node label children => rw [descent, descentList_eq, children_node]

/-- The descent enters the first child that satisfies the predicate. -/
theorem descent_of_find {p : RoseTree α → Bool} {t c : RoseTree α}
    (h : t.children.find? p = some c) : descent p t = c :: descent p c := by
  rw [descent_eq, h]

/-- The descent stops where no child satisfies the predicate. -/
theorem descent_of_find_none {p : RoseTree α → Bool} {t : RoseTree α}
    (h : t.children.find? p = none) : descent p t = [] := by
  rw [descent_eq, h]

/-- The descent is empty exactly when no child satisfies the predicate. -/
theorem descent_eq_nil_iff {p : RoseTree α → Bool} {t : RoseTree α} :
    descent p t = [] ↔ ∀ c ∈ t.children, p c = false := by
  cases h : t.children.find? p with
  | none =>
      refine iff_of_true (descent_of_find_none h) ?_
      intro c hc
      simpa using List.find?_eq_none.mp h c hc
  | some c =>
      rw [descent_of_find h]
      refine iff_of_false (List.cons_ne_nil c _) ?_
      intro hall
      have hc := hall c (List.mem_of_find?_eq_some h)
      rw [List.find?_some h] at hc
      exact Bool.noConfusion hc

/-- Every node of the descent satisfies the predicate. -/
theorem of_mem_descent {p : RoseTree α → Bool} {t v : RoseTree α} (hv : v ∈ descent p t) :
    p v = true := by
  induction t with
  | node label children ih =>
      cases h : (node label children).children.find? p with
      | none =>
          rw [descent_of_find_none h] at hv
          exact absurd hv List.not_mem_nil
      | some c =>
          rw [descent_of_find h] at hv
          rcases List.mem_cons.mp hv with rfl | hv
          · exact List.find?_some h
          · exact ih c (List.mem_of_find?_eq_some h) hv

/-- On a descent every node is a child of the one before. -/
theorem isChain_descent (p : RoseTree α → Bool) (t : RoseTree α) :
    (t :: descent p t).IsChain fun a b => b ∈ a.children := by
  induction t with
  | node label children ih =>
      cases h : (node label children).children.find? p with
      | none =>
          rw [descent_of_find_none h]
          exact List.isChain_singleton _
      | some c =>
          have hc : c ∈ children := List.mem_of_find?_eq_some h
          rw [descent_of_find h, List.isChain_cons_cons]
          exact ⟨hc, ih c hc⟩

/-- On a descent every node lies below all the nodes before it. -/
theorem pairwise_descent (p : RoseTree α → Bool) (t : RoseTree α) :
    (t :: descent p t).Pairwise Below := by
  have htrans : IsTrans (RoseTree α) Below := ⟨fun _ _ _ => Relation.TransGen.trans⟩
  rw [← List.isChain_iff_pairwise]
  exact (isChain_descent p t).imp fun _ _ => below_of_mem

/-- The nodes of a descent lie below its root. -/
theorem below_of_mem_descent {p : RoseTree α → Bool} {t v : RoseTree α} (hv : v ∈ descent p t) :
    Below t v := (List.pairwise_cons.mp (pairwise_descent p t)).1 v hv

/-- The last node of the descent, the root when the descent is empty. -/
def deepest (p : RoseTree α → Bool) (t : RoseTree α) : RoseTree α := (descent p t).getLastD t

/-- The deepest node is the root when no child satisfies the predicate. -/
theorem deepest_of_find_none {p : RoseTree α → Bool} {t : RoseTree α}
    (h : t.children.find? p = none) : deepest p t = t := by
  rw [deepest, descent_of_find_none h, List.getLastD_nil]

/-- The deepest node is the one below the child that is entered. -/
theorem deepest_of_find {p : RoseTree α → Bool} {t c : RoseTree α}
    (h : t.children.find? p = some c) : deepest p t = deepest p c := by
  rw [deepest, descent_of_find h, List.getLastD_cons, deepest]

/-- Below the last node of a descent no child satisfies the predicate. -/
theorem descent_deepest (p : RoseTree α → Bool) (t : RoseTree α) :
    descent p (deepest p t) = [] := by
  induction t with
  | node label children ih =>
      cases h : (node label children).children.find? p with
      | none => rw [deepest_of_find_none h, descent_of_find_none h]
      | some c =>
          rw [deepest_of_find h]
          exact ih c (List.mem_of_find?_eq_some h)

/-- The last node of a descent that goes anywhere lies on it. -/
theorem deepest_mem {p : RoseTree α → Bool} {t : RoseTree α} (h : descent p t ≠ []) :
    deepest p t ∈ descent p t := by
  rw [deepest]
  cases hdescent : descent p t with
  | nil => exact absurd hdescent h
  | cons c rest =>
      rw [List.getLastD_cons]
      exact List.getLastD_mem_cons

/-- The last node of a descent that goes nowhere is the root. -/
theorem deepest_of_descent_eq_nil {p : RoseTree α → Bool} {t : RoseTree α} (h : descent p t = []) :
    deepest p t = t := by
  rw [deepest, h, List.getLastD_nil]

/-- The last node of the descent is the root or lies on the descent. -/
theorem deepest_eq_or_mem (p : RoseTree α → Bool) (t : RoseTree α) :
    deepest p t = t ∨ deepest p t ∈ descent p t := by
  by_cases h : descent p t = []
  · exact Or.inl (deepest_of_descent_eq_nil h)
  · exact Or.inr (deepest_mem h)

/-! ## Outermost nodes -/

mutual
/-- The nodes that satisfy `q` and lie below no other node that does, in document order. -/
def outermost (q : RoseTree α → Bool) : RoseTree α → List (RoseTree α)
  | .node label children =>
      if q (.node label children) then [.node label children] else outermostList q children
/-- The outermost nodes of a list of trees. -/
def outermostList (q : RoseTree α → Bool) : List (RoseTree α) → List (RoseTree α)
  | [] => []
  | t :: ts => outermost q t ++ outermostList q ts
end

/-- The outermost nodes of a list of trees are collected tree by tree. -/
theorem outermostList_eq_flatMap (q : RoseTree α → Bool) (ts : List (RoseTree α)) :
    outermostList q ts = ts.flatMap (outermost q) := by
  induction ts with
  | nil => rfl
  | cons t ts ih => rw [outermostList, ih, List.flatMap_cons]

/-- The outermost nodes of a tree: the root if it satisfies the predicate, else those of the
children. -/
theorem outermost_eq (q : RoseTree α → Bool) (t : RoseTree α) :
    outermost q t = if q t then [t] else t.children.flatMap (outermost q) := by
  cases t with
  | node label children => rw [outermost, outermostList_eq_flatMap, children_node]

/-- A tree is its label and its children. -/
theorem ext {t u : RoseTree α} (hlabel : t.label = u.label) (hchildren : t.children = u.children) :
    t = u := by
  cases t with
  | node a ts => cases u with
    | node b us =>
        obtain rfl : a = b := hlabel
        obtain rfl : ts = us := hchildren
        rfl

/-! ## Properties of all nodes -/

/-- Every node of a tree satisfies a predicate. -/
def All (p : RoseTree α → Prop) (t : RoseTree α) : Prop := ∀ v, HasNode t v → p v

/-- A predicate holds of all nodes when it holds of the root and of all nodes of the children. -/
theorem all_iff {p : RoseTree α → Prop} {t : RoseTree α} :
    t.All p ↔ p t ∧ ∀ c ∈ t.children, c.All p := by
  constructor
  · intro h
    refine ⟨h t (Or.inl rfl), fun c hc v hv => h v (Or.inr ?_)⟩
    exact below_iff.mpr ⟨c, hc, hv⟩
  · rintro ⟨hroot, hchildren⟩ v (rfl | hv)
    · exact hroot
    · obtain ⟨c, hc, hnode⟩ := below_iff.mp hv
      exact hchildren c hc v hnode

/-- What every node satisfies, the root does. -/
theorem All.root {p : RoseTree α → Prop} {t : RoseTree α} (h : t.All p) : p t := (all_iff.mp h).1

/-- What every node satisfies, every node of a child does. -/
theorem All.child {p : RoseTree α → Prop} {t c : RoseTree α} (h : t.All p) (hc : c ∈ t.children) :
    c.All p := (all_iff.mp h).2 c hc

/-- What holds of all nodes of a tree holds of all nodes below any of them. -/
theorem All.all {p : RoseTree α → Prop} {t : RoseTree α} (h : t.All p) : t.All (All p) := by
  intro v hv u hu
  rcases hu with rfl | hbelow
  · exact h _ hv
  · rcases hv with rfl | habove
    · exact h _ (Or.inr hbelow)
    · exact h _ (Or.inr (habove.trans hbelow))

/-- A weaker predicate. -/
theorem All.imp {p q : RoseTree α → Prop} {t : RoseTree α} (h : t.All p) (hpq : ∀ v, p v → q v) :
    t.All q := fun v hv => hpq v (h v hv)

section Decidable

variable {p : RoseTree α → Prop} [DecidablePred p]

mutual
instance decidableAll : (t : RoseTree α) → Decidable (t.All p)
  | .node label children =>
      have := decidableAllList children
      decidable_of_iff' (p (.node label children) ∧ ∀ c ∈ children, c.All p) all_iff
instance decidableAllList : (ts : List (RoseTree α)) → Decidable (∀ t ∈ ts, t.All p)
  | [] => isTrue fun _ ht => absurd ht List.not_mem_nil
  | t :: ts =>
      have := decidableAll t
      have := decidableAllList ts
      decidable_of_iff' (t.All p ∧ ∀ u ∈ ts, u.All p) List.forall_mem_cons
end

end Decidable

/-! ## Relabelling -/

variable {β : Type v}

mutual
/-- The tree with other labels. -/
def map (f : α → β) : RoseTree α → RoseTree β
  | .node label children => .node (f label) (mapList f children)
/-- The trees with other labels. -/
def mapList (f : α → β) : List (RoseTree α) → List (RoseTree β)
  | [] => []
  | t :: ts => map f t :: mapList f ts
end

@[simp] theorem mapList_eq (f : α → β) (ts : List (RoseTree α)) : mapList f ts = ts.map (map f) := by
  induction ts with
  | nil => rfl
  | cons t ts ih => rw [mapList, ih, List.map_cons]

@[simp] theorem label_map (f : α → β) (t : RoseTree α) : (t.map f).label = f t.label := by
  cases t with
  | node label children => rfl

@[simp] theorem children_map (f : α → β) (t : RoseTree α) :
    (t.map f).children = t.children.map (map f) := by
  cases t with
  | node label children => rw [map, mapList_eq, children_node, children_node]

/-! ## Pairing -/

variable {γ : Type w}

mutual
/-- The tree with the labels that a function makes of the labels of two trees of one shape. -/
def zipWith (f : α → β → γ) : RoseTree α → RoseTree β → RoseTree γ
  | .node a ts, .node b us => .node (f a b) (zipWithList f ts us)
/-- The trees with the labels that a function makes of the labels of two lists of trees. -/
def zipWithList (f : α → β → γ) : List (RoseTree α) → List (RoseTree β) → List (RoseTree γ)
  | t :: ts, u :: us => zipWith f t u :: zipWithList f ts us
  | _, _ => []
end

@[simp] theorem label_zipWith (f : α → β → γ) (t : RoseTree α) (u : RoseTree β) :
    (zipWith f t u).label = f t.label u.label := by
  cases t with
  | node a ts => cases u with
    | node b us => rfl

@[simp] theorem children_zipWith (f : α → β → γ) (t : RoseTree α) (u : RoseTree β) :
    (zipWith f t u).children = List.zipWith (zipWith f) t.children u.children := by
  have hlist : ∀ (ts : List (RoseTree α)) (us : List (RoseTree β)),
      zipWithList f ts us = List.zipWith (zipWith f) ts us := by
    intro ts
    induction ts with
    | nil => intro us; rfl
    | cons t ts ih =>
        intro us
        cases us with
        | nil => rfl
        | cons u us => rw [zipWithList, ih, List.zipWith_cons_cons]
  cases t with
  | node a ts => cases u with
    | node b us => rw [zipWith, hlist, children_node, children_node, children_node]

end RoseTree
