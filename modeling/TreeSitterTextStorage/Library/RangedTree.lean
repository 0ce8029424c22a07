import Mathlib.Order.Lattice
import TreeSitterTextStorage.Library.RoseTree

/-! # Trees of nested half-open ranges

Rose trees whose labels carry a half-open range `[start, stop)` over a linear order. In a
*well-formed* tree children are ordered, pairwise disjoint and inside their parent, with gaps and
empty ranges allowed. For such trees this file relates two ways of reading a point of the order:
the descent through the nodes covering the point, and a traversal that collects the outermost nodes
with some property. It also says when two points have the same covering nodes. -/

universe u v

/-- Labels that carry a half-open range `[start, stop)`. -/
class Ranged (α : Type u) (β : outParam (Type v)) where
  /-- The first point of the range. -/
  start : α → β
  /-- The first point behind the range. -/
  stop : α → β

namespace RangedTree

open RoseTree Ranged

variable {α : Type u} {β : Type v} [LinearOrder β] [Ranged α β]

/-- Whether the range of a node contains the point `x`. -/
def covers (x : β) (t : RoseTree α) : Bool := decide (start t.label ≤ x ∧ x < stop t.label)

@[simp] theorem covers_iff {x : β} {t : RoseTree α} :
    covers x t = true ↔ start t.label ≤ x ∧ x < stop t.label := by
  rw [covers, decide_eq_true_iff]

@[simp] theorem covers_eq_false_iff {x : β} {t : RoseTree α} :
    covers x t = false ↔ (start t.label ≤ x → stop t.label ≤ x) := by
  rw [covers, decide_eq_false_iff_not, not_and, not_lt]

mutual
/-- Every range of the tree is ordered, children lie inside their parent, and siblings are ordered
and pairwise disjoint. -/
def WellFormed : RoseTree α → Prop
  | .node label children =>
      start label ≤ stop label ∧
        (∀ c ∈ children, start label ≤ start c.label ∧ stop c.label ≤ stop label) ∧
        children.Pairwise (fun a b => stop a.label ≤ start b.label) ∧
        WellFormedList children
/-- Every tree of the list is well formed. -/
def WellFormedList : List (RoseTree α) → Prop
  | [] => True
  | t :: ts => WellFormed t ∧ WellFormedList ts
end

mutual
instance decidableWellFormed : (t : RoseTree α) → Decidable (WellFormed t)
  | .node _ children =>
      have := decidableWellFormedList children
      inferInstanceAs (Decidable (_ ∧ _ ∧ _ ∧ _))
instance decidableWellFormedList : (ts : List (RoseTree α)) → Decidable (WellFormedList ts)
  | [] => inferInstanceAs (Decidable True)
  | t :: ts =>
      have := decidableWellFormed t
      have := decidableWellFormedList ts
      inferInstanceAs (Decidable (_ ∧ _))
end

/-- A list of trees is well formed when each of its trees is. -/
theorem wellFormedList_iff {ts : List (RoseTree α)} :
    WellFormedList ts ↔ ∀ t ∈ ts, WellFormed t := by
  induction ts with
  | nil => exact iff_of_true trivial fun t h => absurd h List.not_mem_nil
  | cons t ts ih => rw [WellFormedList, ih, List.forall_mem_cons]

/-- A node without children is well formed when its range is ordered. -/
theorem wellFormed_leaf {label : α} (h : start label ≤ stop label) :
    WellFormed (RoseTree.node label []) :=
  ⟨h, fun _ hc => absurd hc List.not_mem_nil, List.Pairwise.nil, trivial⟩

namespace WellFormed

variable {t c : RoseTree α} {x y : β}

/-- The range of a well-formed tree is ordered. -/
theorem start_le_stop (h : WellFormed t) : start t.label ≤ stop t.label := by
  cases t with
  | node label children => exact h.1

/-- The range of a child lies inside the range of its parent. -/
theorem child_within (h : WellFormed t) (hc : c ∈ t.children) :
    start t.label ≤ start c.label ∧ stop c.label ≤ stop t.label := by
  cases t with
  | node label children => exact h.2.1 c hc

/-- Siblings are ordered and disjoint. -/
theorem pairwise_children (h : WellFormed t) :
    t.children.Pairwise fun a b => stop a.label ≤ start b.label := by
  cases t with
  | node label children => exact h.2.2.1

/-- The children of a well-formed tree are well formed. -/
theorem child (h : WellFormed t) (hc : c ∈ t.children) : WellFormed c := by
  cases t with
  | node label children => exact wellFormedList_iff.mp h.2.2.2 c hc

/-- What a child covers its parent covers. -/
theorem covers_of_child (h : WellFormed t) (hc : c ∈ t.children) (hx : covers x c = true) :
    covers x t = true := by
  rw [covers_iff] at hx ⊢
  obtain ⟨hstart, hstop⟩ := h.child_within hc
  exact ⟨le_trans hstart hx.1, lt_of_lt_of_le hx.2 hstop⟩

end WellFormed

/-! ## Arranging trees -/

/-- Well-formed trees lie between two points, one behind the other. -/
structure Arranged (x y : β) (ts : List (RoseTree α)) : Prop where
  /-- Every tree lies between the points. -/
  within : ∀ t ∈ ts, x ≤ start t.label ∧ stop t.label ≤ y
  /-- The trees are ordered and disjoint. -/
  pairwise : ts.Pairwise fun a b => stop a.label ≤ start b.label
  /-- Every tree is well formed. -/
  wellFormed : WellFormedList ts

section Arranged

variable {x y z : β} {t : RoseTree α} {ts us : List (RoseTree α)}

/-- A node is well formed when its children are arranged in its range. -/
theorem wellFormed_node_iff {label : α} :
    WellFormed (RoseTree.node label ts) ↔
      start label ≤ stop label ∧ Arranged (start label) (stop label) ts := by
  rw [WellFormed]
  constructor
  · rintro ⟨hrange, hwithin, hpair, hall⟩
    exact ⟨hrange, hwithin, hpair, hall⟩
  · rintro ⟨hrange, hwithin, hpair, hall⟩
    exact ⟨hrange, hwithin, hpair, hall⟩

theorem arranged_nil : Arranged x y ([] : List (RoseTree α)) :=
  ⟨fun _ ht => absurd ht List.not_mem_nil, List.Pairwise.nil, trivial⟩

/-- A well-formed tree on its own. -/
theorem WellFormed.arranged (h : WellFormed t) : Arranged (start t.label) (stop t.label) [t] := by
  refine ⟨fun u hu => ?_, List.pairwise_singleton _ t, h, trivial⟩
  rw [List.mem_singleton.mp hu]
  exact ⟨le_rfl, le_rfl⟩

theorem Arranged.mono {x' y' : β} (h : Arranged x y ts) (hx : x' ≤ x) (hy : y ≤ y') :
    Arranged x' y' ts :=
  ⟨fun t ht => ⟨le_trans hx (h.within t ht).1, le_trans (h.within t ht).2 hy⟩, h.pairwise,
    h.wellFormed⟩

/-- Trees up to a point, and trees from that point on. -/
theorem Arranged.append (h : Arranged x y ts) (h' : Arranged y z us) (hxy : x ≤ y) (hyz : y ≤ z) :
    Arranged x z (ts ++ us) := by
  refine ⟨fun t ht => ?_, List.pairwise_append.mpr
    ⟨h.pairwise, h'.pairwise, fun a ha b hb => ?_⟩, ?_⟩
  · rcases List.mem_append.mp ht with ht | ht
    · exact (h.mono le_rfl hyz).within t ht
    · exact (h'.mono hxy le_rfl).within t ht
  · exact le_trans (h.within a ha).2 (h'.within b hb).1
  · rw [wellFormedList_iff]
    intro t ht
    rcases List.mem_append.mp ht with ht | ht
    · exact wellFormedList_iff.mp h.wellFormed t ht
    · exact wellFormedList_iff.mp h'.wellFormed t ht

end Arranged

/-! ## The covering child is unique -/

/-- Of two ranges, one behind the other, at most one contains a point. -/
theorem covers_eq_false_of_le {a b : RoseTree α} {x : β} (h : stop a.label ≤ start b.label)
    (ha : covers x a = true) : covers x b = false := by
  rw [covers_eq_false_iff]
  intro hstart
  exact absurd (lt_of_lt_of_le (covers_iff.mp ha).2 h) (not_lt.mpr hstart)

/-- Among ordered disjoint siblings the first one covering a point is any one covering it. -/
theorem find_covers_of_mem {ts : List (RoseTree α)} {c : RoseTree α} {x : β}
    (hpair : ts.Pairwise fun a b => stop a.label ≤ start b.label) (hc : c ∈ ts)
    (hx : covers x c = true) : ts.find? (covers x) = some c := by
  induction ts with
  | nil => exact absurd hc List.not_mem_nil
  | cons t ts ih =>
      obtain ⟨hhead, htail⟩ := List.pairwise_cons.mp hpair
      rcases List.mem_cons.mp hc with rfl | hc
      · exact List.find?_cons_of_pos hx
      · -- `c` lies behind `t`, so `t` does not cover the point as well
        have ht : ¬ covers x t = true := by
          intro ht
          rw [covers_eq_false_of_le (hhead c hc) ht] at hx
          exact Bool.noConfusion hx
        rw [List.find?_cons_of_neg ht]
        exact ih htail hc

/-- The descent at `x` enters the child covering `x`. -/
theorem WellFormed.descent_of_covers {t c : RoseTree α} {x : β} (h : WellFormed t)
    (hc : c ∈ t.children) (hx : covers x c = true) :
    descent (covers x) t = c :: descent (covers x) c :=
  descent_of_find (find_covers_of_mem h.pairwise_children hc hx)

/-! ## The covering path -/

/-- The nodes of the descent at a point are well formed and lie inside the root. -/
theorem WellFormed.of_mem_descent {t v : RoseTree α} {x : β} (h : WellFormed t)
    (hv : v ∈ descent (covers x) t) :
    WellFormed v ∧ start t.label ≤ start v.label ∧ stop v.label ≤ stop t.label := by
  induction t with
  | node label children ih =>
      cases hfind : (node label children).children.find? (covers x) with
      | none =>
          rw [descent_of_find_none hfind] at hv
          exact absurd hv List.not_mem_nil
      | some c =>
          have hc : c ∈ children := List.mem_of_find?_eq_some hfind
          have hwithin := h.child_within hc
          rw [descent_of_find hfind] at hv
          rcases List.mem_cons.mp hv with rfl | hv
          · exact ⟨h.child hc, hwithin⟩
          · obtain ⟨hwf, hstart, hstop⟩ := ih c hc (h.child hc) hv
            exact ⟨hwf, le_trans hwithin.1 hstart, le_trans hstop hwithin.2⟩

/-- The root covers what a node of a descent covers. -/
theorem WellFormed.covers_of_mem_descent {t v : RoseTree α} {x y : β} (h : WellFormed t)
    (hv : v ∈ descent (covers x) t) (hy : covers y v = true) : covers y t = true := by
  obtain ⟨-, hstart, hstop⟩ := h.of_mem_descent hv
  rw [covers_iff] at hy ⊢
  exact ⟨le_trans hstart hy.1, lt_of_lt_of_le hy.2 hstop⟩

/-- The nodes below a well-formed tree are well formed, and what they cover the tree covers. -/
theorem WellFormed.of_below {t v : RoseTree α} (h : WellFormed t) (hv : Below t v) :
    WellFormed v ∧ ∀ x, covers x v = true → covers x t = true := by
  induction t with
  | node label children ih =>
      obtain ⟨c, hc, rfl | hv⟩ := below_iff.mp hv
      · exact ⟨h.child hc, fun x => h.covers_of_child hc⟩
      · obtain ⟨hwf, hcovers⟩ := ih c hc (h.child hc) hv
        exact ⟨hwf, fun x hx => h.covers_of_child hc (hcovers x hx)⟩

/-- **The descent is complete**: the nodes of the descent at a point are exactly the nodes below the
root that cover the point. -/
theorem WellFormed.mem_descent_iff {t v : RoseTree α} {x : β} (h : WellFormed t) :
    v ∈ descent (covers x) t ↔ Below t v ∧ covers x v = true := by
  constructor
  · exact fun hv => ⟨below_of_mem_descent hv, RoseTree.of_mem_descent hv⟩
  · rintro ⟨hbelow, hx⟩
    induction t with
    | node label children ih =>
        -- the child that the node lies in covers the point, so the descent enters it
        obtain ⟨c, hc, rfl | hbelow⟩ := below_iff.mp hbelow
        · rw [h.descent_of_covers hc hx]
          exact List.mem_cons_self
        · rw [h.descent_of_covers hc (((h.child hc).of_below hbelow).2 x hx)]
          exact List.mem_cons_of_mem c (ih c hc (h.child hc) hbelow)

/-- **Shared prefix.** The descents at two points of one node agree down to that node. -/
theorem WellFormed.descent_shared {t v : RoseTree α} {x y : β} (h : WellFormed t)
    (hv : v ∈ descent (covers x) t) (hy : covers y v = true) :
    ∃ front, descent (covers x) t = front ++ v :: descent (covers x) v ∧
      descent (covers y) t = front ++ v :: descent (covers y) v := by
  induction t with
  | node label children ih =>
      cases hfind : (node label children).children.find? (covers x) with
      | none =>
          rw [descent_of_find_none hfind] at hv
          exact absurd hv List.not_mem_nil
      | some c =>
          have hc : c ∈ children := List.mem_of_find?_eq_some hfind
          rw [descent_of_find hfind] at hv ⊢
          rcases List.mem_cons.mp hv with rfl | hv
          · exact ⟨[], rfl, h.descent_of_covers hc hy⟩
          · -- `v` lies inside `c`, so the descent at `y` enters `c` as well
            have hcy : covers y c = true := (h.child hc).covers_of_mem_descent hv hy
            obtain ⟨front, hx', hy'⟩ := ih c hc (h.child hc) hv
            exact ⟨c :: front, by rw [hx', List.cons_append],
              by rw [h.descent_of_covers hc hcy, hy', List.cons_append]⟩

/-- The first node with a property on the covering path of `x` is also the first one on the covering
path of every other point of that node. -/
theorem WellFormed.find_descent_of_covers {t v : RoseTree α} {x y : β} {q : RoseTree α → Bool}
    (h : WellFormed t) (hv : (descent (covers x) t).find? q = some v) (hy : covers y v = true) :
    (descent (covers y) t).find? q = some v := by
  induction t with
  | node label children ih =>
      cases hfind : (node label children).children.find? (covers x) with
      | none =>
          rw [descent_of_find_none hfind, List.find?_nil] at hv
          exact absurd hv (Option.some_ne_none v).symm
      | some c =>
          have hc : c ∈ children := List.mem_of_find?_eq_some hfind
          rw [descent_of_find hfind] at hv
          by_cases hq : q c
          · rw [List.find?_cons_of_pos hq, Option.some.injEq] at hv
            subst hv
            rw [h.descent_of_covers hc hy, List.find?_cons_of_pos hq]
          · -- the node lies below `c`, which both descents enter and pass
            rw [List.find?_cons_of_neg hq] at hv
            have hcy : covers y c = true :=
              (h.child hc).covers_of_mem_descent (List.mem_of_find?_eq_some hv) hy
            rw [h.descent_of_covers hc hcy, List.find?_cons_of_neg hq]
            exact ih c hc (h.child hc) hv

/-- **Same path.** Two points have the same covering path when the deepest node of the one contains
the other (or is the root) and none of its children does. -/
theorem WellFormed.descent_congr {t : RoseTree α} {x y : β} (h : WellFormed t)
    (hy : deepest (covers x) t = t ∨ covers y (deepest (covers x) t) = true)
    (hchildren : ∀ c ∈ (deepest (covers x) t).children, covers y c = false) :
    descent (covers y) t = descent (covers x) t := by
  have hempty := descent_deepest (covers x) t
  have hempty' := descent_eq_nil_iff.mpr hchildren
  by_cases hroot : deepest (covers x) t = t
  · rw [hroot] at hempty hempty'
    rw [hempty, hempty']
  · -- both descents come through the deepest node, and both end there
    obtain ⟨front, hx', hy'⟩ := h.descent_shared
      ((deepest_eq_or_mem (covers x) t).resolve_left hroot) (hy.resolve_left hroot)
    rw [hx', hy', hempty, hempty']

/-- No child of the deepest node contains a point between `x` and the next child. -/
theorem WellFormed.not_covers_of_lt_next {t c d : RoseTree α} {x y : β} (h : WellFormed t)
    (hx : ∀ d ∈ t.children, covers x d = false)
    (hc : t.children.find? (fun d => decide (x < start d.label)) = some c)
    (hxy : x ≤ y) (hyc : y < start c.label) (hd : d ∈ t.children) : covers y d = false := by
  rw [covers_eq_false_iff]
  intro hstart
  by_cases hxd : start d.label ≤ x
  · exact le_trans (covers_eq_false_iff.mp (hx d hd) hxd) hxy
  · -- `d` starts behind `x`, so it is `c` or a later sibling and starts behind `y`
    exfalso
    obtain ⟨-, front, back, hsplit, hfront⟩ := List.find?_eq_some_iff_append.mp hc
    have hpair := h.pairwise_children
    rw [hsplit] at hd hpair
    rcases List.mem_append.mp hd with hd | hd
    · have := hfront d hd
      simp only [Bool.not_eq_true', decide_eq_false_iff_not] at this
      exact this (not_le.mp hxd)
    · rcases List.mem_cons.mp hd with rfl | hd
      · exact absurd hyc (not_lt.mpr hstart)
      · -- a sibling behind `c` starts behind the end of `c`
        have hcd := (List.pairwise_cons.mp (List.pairwise_append.mp hpair).2.1).1 d hd
        have hcle := (h.child (List.mem_of_find?_eq_some hc)).start_le_stop
        exact absurd hyc (not_lt.mpr (le_trans hcle (le_trans hcd hstart)))

/-- No child of the deepest node contains a point behind `x` when no child starts behind `x`. -/
theorem not_covers_of_no_next {t d : RoseTree α} {x y : β}
    (hx : ∀ d ∈ t.children, covers x d = false)
    (hnone : t.children.find? (fun d => decide (x < start d.label)) = none)
    (hxy : x ≤ y) (hd : d ∈ t.children) : covers y d = false := by
  rw [covers_eq_false_iff]
  intro _
  have hstart : start d.label ≤ x := by
    have := List.find?_eq_none.mp hnone d hd
    simpa only [decide_eq_true_eq, not_lt] using this
  exact le_trans (covers_eq_false_iff.mp (hx d hd) hstart) hxy

/-! ## Outermost nodes and covering paths -/

/-- The nodes covering `x`, from the root down; empty when `x` lies outside the root. -/
def coveringPath (x : β) (t : RoseTree α) : List (RoseTree α) :=
  if covers x t then t :: descent (covers x) t else []

/-- A tree whose root does not contain the point has no covering path. -/
theorem coveringPath_of_not_covers {x : β} {t : RoseTree α} (h : covers x t = false) :
    coveringPath x t = [] := by
  rw [coveringPath, h, if_neg Bool.false_ne_true]

/-- The covering path of a point consists of the nodes of the tree that cover it. -/
theorem WellFormed.mem_coveringPath_iff {t v : RoseTree α} {x : β} (h : WellFormed t) :
    v ∈ coveringPath x t ↔ HasNode t v ∧ covers x v = true := by
  by_cases hx : covers x t
  · rw [coveringPath, if_pos hx, List.mem_cons, h.mem_descent_iff, HasNode, or_and_right]
    exact or_congr_left ⟨fun heq => ⟨heq, heq ▸ hx⟩, And.left⟩
  · rw [coveringPath, if_neg hx]
    refine iff_of_false List.not_mem_nil ?_
    rintro ⟨rfl | hbelow, hv⟩
    · exact hx hv
    · exact hx ((h.of_below hbelow).2 x hv)

/-- On a covering path every node lies below all the nodes before it. -/
theorem pairwise_coveringPath (x : β) (t : RoseTree α) : (coveringPath x t).Pairwise Below := by
  rw [coveringPath]
  split
  · exact pairwise_descent (covers x) t
  · exact List.Pairwise.nil

/-- The outermost of the nodes of `t` that cover `x` and satisfy `q`: all the others
lie below it. -/
structure OutermostAt (q : RoseTree α → Prop) (x : β) (t v : RoseTree α) : Prop where
  /-- It is a node of the tree. -/
  hasNode : HasNode t v
  /-- It covers the point. -/
  covers : covers x v = true
  /-- It has the property. -/
  holds : q v
  /-- All other such nodes lie below it. -/
  above : ∀ u, HasNode t u → RangedTree.covers x u = true → q u → u = v ∨ Below v u

/-- The first node with a property on the covering path of a point is the outermost one over it. -/
theorem WellFormed.outermostAt_of_find {t v : RoseTree α} {x : β} {q : RoseTree α → Bool}
    (h : WellFormed t) (hv : (coveringPath x t).find? q = some v) :
    OutermostAt (fun u => q u = true) x t v := by
  obtain ⟨hasNode, hx⟩ := h.mem_coveringPath_iff.mp (List.mem_of_find?_eq_some hv)
  refine ⟨hasNode, hx, List.find?_some hv, ?_⟩
  intro u hu hxu hqu
  obtain ⟨-, front, back, hpath, hfront⟩ := List.find?_eq_some_iff_append.mp hv
  have hmem := h.mem_coveringPath_iff.mpr ⟨hu, hxu⟩
  have hpair := pairwise_coveringPath x t
  rw [hpath] at hmem hpair
  -- no node in front of it has the property, and the nodes behind it lie below it
  rcases List.mem_append.mp hmem with hmem | hmem
  · have := hfront u hmem
    rw [hqu] at this
    exact Bool.noConfusion this
  · rcases List.mem_cons.mp hmem with rfl | hmem
    · exact Or.inl rfl
    · exact Or.inr ((List.pairwise_cons.mp (List.pairwise_append.mp hpair).2.1).1 u hmem)

/-- No node on the covering path of a point has a property exactly when no node over the point has
it. -/
theorem WellFormed.find_coveringPath_eq_none_iff {t : RoseTree α} {x : β} {q : RoseTree α → Bool}
    (h : WellFormed t) : (coveringPath x t).find? q = none ↔
      ∀ u, HasNode t u → covers x u = true → q u = false := by
  rw [List.find?_eq_none]
  constructor
  · intro hnone u hu hxu
    exact Bool.eq_false_iff.mpr (hnone u (h.mem_coveringPath_iff.mpr ⟨hu, hxu⟩))
  · intro hnone u hmem
    obtain ⟨hu, hxu⟩ := h.mem_coveringPath_iff.mp hmem
    exact Bool.eq_false_iff.mp (hnone u hu hxu)

/-- Two nodes that share a point lie one below the other. -/
theorem WellFormed.comparable {t u v : RoseTree α} {x : β} (h : WellFormed t) (hu : HasNode t u)
    (hv : HasNode t v) (hxu : covers x u = true) (hxv : covers x v = true) :
    u = v ∨ Below u v ∨ Below v u := by
  by_cases heq : u = v
  · exact Or.inl heq
  · have hpair : (coveringPath x t).Pairwise fun a b => Below a b ∨ Below b a :=
      (pairwise_coveringPath x t).imp Or.inl
    have hsymm : Std.Symm fun a b : RoseTree α => Below a b ∨ Below b a := ⟨fun _ _ => Or.symm⟩
    exact Or.inr (hpair.forall (h.mem_coveringPath_iff.mpr ⟨hu, hxu⟩)
      (h.mem_coveringPath_iff.mpr ⟨hv, hxv⟩) heq)

/-- There is one outermost node over a point. -/
theorem OutermostAt.unique {q : RoseTree α → Prop} {x : β} {t u v : RoseTree α}
    (hu : OutermostAt q x t u) (hv : OutermostAt q x t v) : u = v := by
  rcases hu.above v hv.hasNode hv.covers hv.holds with heq | hbelow
  · exact heq.symm
  · rcases hv.above u hu.hasNode hu.covers hu.holds with heq | hbelow'
    · exact heq
    · exact absurd hbelow' hbelow.asymm

/-- The nodes of a well-formed tree are well formed. -/
theorem WellFormed.of_hasNode {t v : RoseTree α} (h : WellFormed t) (hv : HasNode t v) :
    WellFormed v := by
  rcases hv with rfl | hv
  · exact h
  · exact (h.of_below hv).1

/-- The outermost node over a point is the outermost one over all points that it covers. -/
theorem WellFormed.outermostAt_of_covers {q : RoseTree α → Prop} {x y : β} {t v : RoseTree α}
    (h : WellFormed t) (hv : OutermostAt q x t v) (hy : covers y v = true) :
    OutermostAt q y t v := by
  refine ⟨hv.hasNode, hy, hv.holds, ?_⟩
  intro u hu hyu hqu
  rcases h.comparable hu hv.hasNode hyu hy with heq | hbelow | hbelow
  · exact Or.inl heq
  · -- a node above `v` covers all that `v` covers
    exact hv.above u hu (((h.of_hasNode hu).of_below hbelow).2 x hv.covers) hqu
  · exact Or.inr hbelow

/-- Two points of one node with the property have the same outermost node. -/
theorem WellFormed.outermostAt_congr {q : RoseTree α → Prop} {x y : β} {t u v : RoseTree α}
    (h : WellFormed t) (hv : OutermostAt q x t v) (hu : HasNode t u) (hqu : q u)
    (hx : covers x u = true) (hy : covers y u = true) : OutermostAt q y t v := by
  apply h.outermostAt_of_covers hv
  rcases hv.above u hu hx hqu with rfl | hbelow
  · exact hy
  · exact ((h.of_hasNode hv.hasNode).of_below hbelow).2 y hy

/-- The innermost of the nodes of `t` that cover `x` and satisfy `q`: it lies below
all the others. -/
structure InnermostAt (q : RoseTree α → Prop) (x : β) (t v : RoseTree α) : Prop where
  /-- It is a node of the tree. -/
  hasNode : HasNode t v
  /-- It covers the point. -/
  covers : covers x v = true
  /-- It has the property. -/
  holds : q v
  /-- It lies below all other such nodes. -/
  below : ∀ u, HasNode t u → RangedTree.covers x u = true → q u → u = v ∨ Below u v

/-- There is one innermost node over a point. -/
theorem InnermostAt.unique {q : RoseTree α → Prop} {x : β} {t u v : RoseTree α}
    (hu : InnermostAt q x t u) (hv : InnermostAt q x t v) : u = v := by
  rcases hv.below u hu.hasNode hu.covers hu.holds with heq | hbelow
  · exact heq
  · rcases hu.below v hv.hasNode hv.covers hv.holds with heq | hbelow'
    · exact heq.symm
    · exact absurd hbelow' hbelow.asymm

/-- When the nodes with a property are listed from the outside to the inside, the last listed node
over a point is the innermost one. -/
theorem innermostAt_of_getLast {q : RoseTree α → Prop} {x : β} {t v : RoseTree α}
    {nodes : List (RoseTree α)} (hpair : nodes.Pairwise Below)
    (hmem : ∀ u, u ∈ nodes ↔ HasNode t u ∧ q u)
    (hv : (nodes.filter (covers x)).getLast? = some v) : InnermostAt q x t v := by
  obtain ⟨hvmem, hx⟩ := List.mem_filter.mp (List.mem_of_getLast? hv)
  obtain ⟨hasNode, hq⟩ := (hmem v).mp hvmem
  refine ⟨hasNode, hx, hq, ?_⟩
  intro u hu hxu hqu
  have humem : u ∈ nodes.filter (covers x) := List.mem_filter.mpr ⟨(hmem u).mpr ⟨hu, hqu⟩, hxu⟩
  have hfilter := hpair.filter (covers x)
  obtain ⟨front, hsplit⟩ := List.getLast?_eq_some_iff.mp hv
  rw [hsplit] at humem hfilter
  rcases List.mem_append.mp humem with humem | humem
  · exact Or.inr ((List.pairwise_append.mp hfilter).2.2 u humem v List.mem_cons_self)
  · exact Or.inl (List.mem_singleton.mp humem)

/-- No listed node over a point: no node with the property covers it. -/
theorem getLast_filter_covers_eq_none_iff {q : RoseTree α → Prop} {x : β} {t : RoseTree α}
    {nodes : List (RoseTree α)} (hmem : ∀ u, u ∈ nodes ↔ HasNode t u ∧ q u) :
    (nodes.filter (covers x)).getLast? = none ↔ ∀ u, HasNode t u → q u → covers x u = false := by
  rw [List.getLast?_eq_none_iff, List.filter_eq_nil_iff]
  constructor
  · exact fun hnone u hu hqu => Bool.eq_false_iff.mpr (hnone u ((hmem u).mpr ⟨hu, hqu⟩))
  · intro hnone u humem
    obtain ⟨hu, hqu⟩ := (hmem u).mp humem
    exact Bool.eq_false_iff.mp (hnone u hu hqu)

/-- Among ordered disjoint siblings only the one entered by the descent has a covering path. -/
theorem flatMap_coveringPath {ts : List (RoseTree α)} {x : β} {γ : Type*}
    (f : List (RoseTree α) → List γ) (hf : f [] = [])
    (hpair : ts.Pairwise fun a b => stop a.label ≤ start b.label) :
    ts.flatMap (fun c => f (coveringPath x c)) = f (descentList (covers x) ts) := by
  induction ts with
  | nil => rw [List.flatMap_nil, descentList, hf]
  | cons t ts ih =>
      obtain ⟨hhead, htail⟩ := List.pairwise_cons.mp hpair
      rw [List.flatMap_cons, descentList]
      by_cases ht : covers x t
      · have hrest : ts.flatMap (fun c => f (coveringPath x c)) = [] := by
          rw [List.flatMap_eq_nil_iff]
          intro c hc
          rw [coveringPath_of_not_covers (covers_eq_false_of_le (hhead c hc) ht), hf]
        rw [hrest, List.append_nil, if_pos ht, coveringPath, if_pos ht]
      · rw [if_neg ht, coveringPath_of_not_covers (Bool.eq_false_iff.mpr ht), hf, List.nil_append,
          ih htail]

/-- The outermost nodes containing `x` among ordered disjoint siblings, from those of
each sibling. -/
theorem filter_flatMap_outermost {ts : List (RoseTree α)} {x : β} {q : RoseTree α → Bool}
    (hpair : ts.Pairwise fun a b => stop a.label ≤ start b.label)
    (heach : ∀ c ∈ ts, (outermost q c).filter (covers x) = ((coveringPath x c).find? q).toList) :
    (ts.flatMap (outermost q)).filter (covers x) =
      ((descentList (covers x) ts).find? q).toList := by
  rw [List.filter_flatMap, ← flatMap_coveringPath (fun path => (path.find? q).toList) rfl hpair]
  exact List.flatMap_congr heach

/-- **Outermost nodes at a point.** Of the outermost nodes with a property, the ones containing `x`
are the first node with the property on the covering path of `x`: at most one. -/
theorem WellFormed.filter_outermost {t : RoseTree α} (h : WellFormed t) (q : RoseTree α → Bool)
    (x : β) : (outermost q t).filter (covers x) = ((coveringPath x t).find? q).toList := by
  induction t with
  | node label children ih =>
      rw [outermost_eq, children_node]
      by_cases hq : q (node label children)
      · rw [if_pos hq, coveringPath]
        by_cases hx : covers x (node label children)
        · rw [if_pos hx, List.find?_cons_of_pos hq, List.filter_cons_of_pos hx, List.filter_nil,
            Option.toList_some]
        · rw [if_neg hx, List.find?_nil, List.filter_cons_of_neg hx, List.filter_nil,
            Option.toList_none]
      · have hpair : children.Pairwise fun a b => stop a.label ≤ start b.label :=
          h.pairwise_children
        rw [if_neg hq, filter_flatMap_outermost hpair fun c hc => ih c hc (h.child hc),
          coveringPath]
        by_cases hx : covers x (node label children)
        · rw [if_pos hx, List.find?_cons_of_neg hq, descent]
        · have hnone : descentList (covers x) children = [] := by
            have hdescent : descent (covers x) (node label children) = [] :=
              descent_eq_nil_iff.mpr fun c hc =>
                Bool.eq_false_iff.mpr fun hcx => hx (h.covers_of_child hc hcx)
            rwa [descent] at hdescent
          rw [if_neg hx, hnone]

/-- Of the outermost nodes with a property below the root, the ones containing `x` are the first one
met on the way down to `x`. -/
theorem WellFormed.filter_outermost_children {t : RoseTree α} (h : WellFormed t)
    (q : RoseTree α → Bool) (x : β) :
    (t.children.flatMap (outermost q)).filter (covers x) =
      ((descent (covers x) t).find? q).toList := by
  rw [filter_flatMap_outermost h.pairwise_children fun c hc => (h.child hc).filter_outermost q x]
  cases t with
  | node label children => rw [descent, children_node]

end RangedTree
