import TreeSitterTextStorage.Runtime.StackSound

/-! # What a pop finds

`stack__iter` follows all paths from a version, and a callback says which of them to pop. Whatever
it says, the trees of every slice span the text from where the version of the slice ends to where
the pop has started. -/

namespace TreeSitterTextStorage

open Program

section Paths

variable {α : Type} (metric : Metric α) (text : List α) (next : ℕ)

/-! ## Paths -/

/-- The slices that a pop from a version at `q` has found: their versions come behind the first
`count`, in order, and the trees of a slice span the text from where its version ends, a position
that satisfies `start`, to `q`. -/
structure SlicesAt (start : Length → Prop) (positions : List (Option Length))
    (count : ℕ) (q : Length) (slices : List StackSlice) : Prop where
  /-- The versions are in order. -/
  sorted : slices.Pairwise fun slice slice' => slice.version ≤ slice'.version
  /-- Every slice leads to `q`. -/
  spans : ∀ slice ∈ slices, count ≤ slice.version ∧ ∃ p own,
    positions[slice.version]? = some (some p) ∧ start p ∧ Stretch metric text p q own ∧
      BuiltAmong metric next slice.trees own
  /-- Every version behind the first `count` belongs to a slice. -/
  covers : ∀ version, count ≤ version → version < positions.length →
    ∃ slice ∈ slices, slice.version = version

/-- A stack while a pop from a version at `q` goes on: the nodes of the old stack, with further
versions for the slices found. -/
structure Iterating (start : Length → Prop) (place : ℕ → Option Length) (old : Stack) (q : Length)
    (stack : Stack) (slices : List StackSlice) : Prop where
  /-- The stack is sound. -/
  sound : stack.Sound metric text next place
  /-- The nodes are the old ones. -/
  nodes : stack.nodes = old.nodes
  /-- The versions are the old ones and further ones. -/
  heads : ∃ added, stack.heads = old.heads ++ added
  /-- The slices found so far. -/
  slices : SlicesAt metric text next start (stack.positions place) old.heads.length q slices

/-- The trees on a path span the text from where it has come to to where it has started. -/
structure PathSpans (path : List SyntaxTree → Prop) (place : ℕ → Option Length) (q : Length)
    (iterator : StackIterator) : Prop where
  /-- What the callback makes sure of. -/
  path : path iterator.trees
  /-- The trees that count. -/
  count : iterator.treeCount = (iterator.trees.countP fun tree => !tree.label.extra)
  /-- On a path that is pending the trees that count can be broken down. -/
  pending : iterator.isPending = true → ∀ tree ∈ iterator.trees, tree.label.extra = false →
    tree.children ≠ []
  /-- What the trees span. -/
  spans : ∃ p own, place iterator.node = some p ∧ Stretch metric text p q own ∧
    BuiltAmong metric next iterator.trees.reverse own

variable {metric text next} {start : Length → Prop} {path : List SyntaxTree → Prop}
  {place : ℕ → Option Length} {positions : List (Option Length)} {old stack : Stack} {p q : Length}

theorem insertSlice_eq_some {ends : StackSlice → Bool} {trees : List SyntaxTree}
    {slices slices' : List StackSlice} (h : insertSlice ends trees slices = some slices') :
    ∃ front found back, slices = front ++ found :: back ∧ ends found = true ∧
      slices' = front ++ found :: ⟨trees, found.version⟩ :: back := by
  induction slices generalizing slices' with
  | nil => exact absurd h (Option.some_ne_none _).symm
  | cons slice rest ih =>
      rw [insertSlice] at h
      cases hrest : insertSlice ends trees rest with
      | some rest' =>
          rw [hrest, Option.some.injEq] at h
          obtain ⟨front, found, back, rfl, hends, rfl⟩ := ih hrest
          exact ⟨slice :: front, found, back, rfl, hends, h.symm⟩
      | none =>
          rw [hrest] at h
          by_cases hends : ends slice
          · rw [if_pos hends, Option.some.injEq] at h
            exact ⟨[], slice, rest, rfl, hends, h.symm⟩
          · rw [if_neg hends] at h
            exact absurd h (Option.some_ne_none _).symm

/-- A path that goes on over a link of a sound stack. -/
theorem PathSpans.follow {iterator : StackIterator} {node : StackNode} {link : StackLink}
    (h : PathSpans metric text next path place q iterator)
    (hstack : stack.Sound metric text next place)
    (hnode : stack.nodes[iterator.node]? = some node) (hlink : link ∈ node.links)
    (hpath : ∀ tree, path (iterator.trees ++ [tree])) :
    PathSpans metric text next path place q (followLink iterator link) := by
  obtain ⟨p, own, hp, hown, hbuilt⟩ := h.spans
  obtain ⟨hbreak, p', hp', hspans⟩ := (hstack.stands hp hnode).link link hlink
  cases htree : link.tree with
  | none =>
      rw [htree] at hspans
      -- a link without a tree: the path goes on at the same position
      refine ⟨?_, ?_, fun hpending => ?_, p', own, hp', Stretch.trans hspans hown, ?_⟩
      · simp only [followLink, htree]
        exact h.path
      · simp only [followLink, htree]
        exact h.count
      · simp only [followLink, htree] at hpending
        exact absurd hpending Bool.false_ne_true
      · simp only [followLink, htree]
        exact hbuilt
  | some tree =>
      rw [htree] at hspans
      -- the tree of the link stands in front of the path
      obtain ⟨treeText, htreeText, htreeBuilt⟩ := hspans
      refine ⟨?_, ?_, fun hpending tree' htree' hextra => ?_, p', treeText ++ own, hp',
        htreeText.trans hown, ?_⟩
      · simp only [followLink, htree]
        exact hpath tree
      · simp only [followLink, htree, List.countP_append, List.countP_singleton, h.count]
        cases tree.label.extra <;> rfl
      · simp only [followLink, htree, List.mem_append, List.mem_singleton] at hpending htree'
        split at hpending
        · exact absurd hpending Bool.false_ne_true
        · next hkept =>
            rcases htree' with htree' | rfl
            · exact h.pending hpending tree' htree' hextra
            · rw [not_and, Bool.not_eq_false] at hkept
              exact hbreak (hkept hextra) tree' htree
      · simp only [followLink, htree, List.reverse_append, List.reverse_singleton,
          List.singleton_append]
        exact builtAmong_cons.mpr ⟨treeText, own, rfl, htreeBuilt, hbuilt⟩

/-- `ts_stack__add_slice` adds a slice to those found, behind the first one. -/
theorem tsStackAddSlice_iterating {slices slices' : List StackSlice} {node pushCount : ℕ}
    {trees : List SyntaxTree} {own : List α} {stack' : Stack}
    (h : Iterating metric text next start place old q stack slices) (hp : place node = some p)
    (hstart : start p) (hown : Stretch metric text p q own)
    (hbuilt : BuiltAmong metric next trees own)
    (hrun : tsStackAddSlice slices node trees pushCount stack = some (slices', stack')) :
    Iterating metric text next start place old q stack' slices' ∧ ∃ front version back, slices =
      front ++ back ∧ (front = [] → slices = []) ∧ slices' = front ++ ⟨trees, version⟩ :: back := by
  rw [tsStackAddSlice, get_bind] at hrun
  obtain ⟨added, hadded⟩ := h.heads
  cases hinsert : insertSlice (endsAt stack.heads node) trees slices with
  | some inserted =>
      rw [hinsert] at hrun
      simp only [pure_eq_some_iff] at hrun
      -- a version ends at the node already, and the slice goes behind the slices of that version
      obtain ⟨rfl, rfl⟩ := hrun
      obtain ⟨front, found, back, rfl, hends, rfl⟩ := insertSlice_eq_some hinsert
      refine ⟨⟨h.sound, h.nodes, h.heads, ⟨?_, fun slice hslice => ?_, fun version hle hlt => ?_⟩⟩,
        front ++ [found], found.version, back, by simp, by simp, by simp⟩
      · have hsorted := h.slices.sorted
        simp only [List.pairwise_append, List.pairwise_cons, List.mem_cons] at hsorted ⊢
        obtain ⟨hfront, ⟨hfound, hback⟩, hbetween⟩ := hsorted
        refine ⟨hfront, ⟨?_, hfound, hback⟩, ?_⟩
        · rintro slice (rfl | hslice)
          · exact Nat.le_refl _
          · exact hfound slice hslice
        · rintro slice hslice slice' (rfl | rfl | hslice')
          · exact hbetween slice hslice _ (Or.inl rfl)
          · exact hbetween slice hslice found (Or.inl rfl)
          · exact hbetween slice hslice slice' (Or.inr hslice')
      · rcases List.mem_append.mp hslice with hslice | hslice
        · exact h.slices.spans slice (List.mem_append_left _ hslice)
        · rcases List.mem_cons.mp hslice with rfl | hslice
          · exact h.slices.spans _ (List.mem_append_right _ List.mem_cons_self)
          · rcases List.mem_cons.mp hslice with rfl | hslice
            · -- the version ends at the node
              obtain ⟨hle, -⟩ := h.slices.spans found (List.mem_append_right _ List.mem_cons_self)
              obtain ⟨head, hhead, hnode⟩ := (Option.any_eq_true _ _).mp hends
              refine ⟨hle, p, own, ?_, hstart, hown, hbuilt⟩
              rw [Stack.getElem?_positions, hhead, Option.map_some, of_decide_eq_true hnode, hp]
            · exact h.slices.spans slice (List.mem_append_right _ (List.mem_cons_of_mem _ hslice))
      · obtain ⟨slice, hslice, hversion⟩ := h.slices.covers version hle hlt
        refine ⟨slice, ?_, hversion⟩
        rcases List.mem_append.mp hslice with hslice | hslice
        · exact List.mem_append_left _ hslice
        · refine List.mem_append_right _ ?_
          rcases List.mem_cons.mp hslice with rfl | hslice
          · exact List.mem_cons_self
          · exact List.mem_cons_of_mem _ (List.mem_cons_of_mem _ hslice)
  | none =>
      rw [hinsert] at hrun
      simp only [tsStackAddVersion, bind_eq_some_iff, get_bind, set_bind, pure_eq_some_iff] at hrun
      obtain ⟨_, _, ⟨rfl, rfl⟩, rfl, rfl⟩ := hrun
      -- a new version ends at the node
      have hpositions : Stack.positions { stack with heads := stack.heads ++
          [⟨node, false, pushCount⟩] } place = stack.positions place ++ [some p] := by
        rw [Stack.positions, List.map_append, List.map_singleton]
        exact congrArg (fun p => stack.positions place ++ [p]) hp
      refine ⟨⟨h.sound.withHeads fun head hhead => ?_, h.nodes,
        ⟨added ++ [⟨node, false, pushCount⟩], ?_⟩,
        ⟨?_, fun slice hslice => ?_, fun version hle hlt => ?_⟩⟩, slices, stack.heads.length, [], by
        simp, fun hnil => hnil, rfl⟩
      · rcases List.mem_append.mp hhead with hmem | hmem
        · exact ⟨h.sound.allocated head hmem, h.sound.head head hmem⟩
        · rw [List.mem_singleton.mp hmem]
          exact ⟨h.sound.lt_of_place hp, fun _ => ⟨p, hp⟩⟩
      · simp only [hadded, List.append_assoc]
      · rw [List.pairwise_append]
        refine ⟨h.slices.sorted, List.pairwise_singleton _ _, fun slice hslice slice' hslice' => ?_⟩
        obtain ⟨-, p, own, hversion, -⟩ := h.slices.spans slice hslice
        rw [List.mem_singleton.mp hslice']
        have hlt := (List.getElem?_eq_some_iff.mp hversion).1
        rw [Stack.length_positions] at hlt
        exact Nat.le_of_lt hlt
      · rw [hpositions]
        rcases List.mem_append.mp hslice with hslice | hslice
        · obtain ⟨hle, p', own', hversion, hspans⟩ := h.slices.spans slice hslice
          refine ⟨hle, p', own', ?_, hspans⟩
          rw [List.getElem?_append_left (List.getElem?_eq_some_iff.mp hversion).1, hversion]
        · rw [List.mem_singleton.mp hslice]
          refine ⟨?_, p, own, ?_, hstart, hown, hbuilt⟩
          · rw [hadded, List.length_append]
            exact Nat.le_add_right _ _
          · rw [← Stack.length_positions stack place, List.getElem?_concat_length]
      · rw [hpositions, List.length_append, List.length_singleton] at hlt
        rcases Nat.lt_succ_iff_lt_or_eq.mp hlt with hlt | rfl
        · obtain ⟨slice, hslice, hversion⟩ := h.slices.covers version hle hlt
          exact ⟨slice, List.mem_append_left _ hslice, hversion⟩
        · exact ⟨_, List.mem_append_right _ (List.mem_singleton_self _),
            (stack.length_positions place).symm⟩

section Iterate

variable {δ : Type} {callback : StackIterateCallback δ} (Inv : δ → List StackSlice → Prop)
  (start : Length → Prop) (path : List SyntaxTree → Prop)

/-- What a callback keeps of its data and of the slices, whether it pops a path, whose slice may be
put anywhere but in front of the others, or not. Where it pops, the position satisfies `start`;
where it goes on, the trees of the path satisfy `path` with any further tree. -/
structure CallbackKeeps (callback : StackIterateCallback δ) : Prop where
  /-- Every path starts without trees. -/
  nil : path []
  /-- What one answer keeps. -/
  keeps : ∀ payload slices state trees isDone isPending pop stop payload',
    callback payload state trees (trees.countP fun tree => !tree.label.extra) isDone isPending =
      ((pop, stop), payload') → Inv payload slices → path trees →
      (isPending = true → ∀ tree ∈ trees, tree.label.extra = false → tree.children ≠ []) →
      (stop = false → ∀ tree, path (trees ++ [tree])) ∧
      if pop then (∀ p, (isDone = true → p = Length.zero) → start p) ∧
        ∀ front version back, slices = front ++ back → (front = [] → slices = []) →
          Inv payload' (front ++ ⟨trees.reverse, version⟩ :: back)
      else Inv payload' slices

variable {Inv start path}

/-- A round of `stack__iter` keeps what is known of the slices and of the paths. -/
theorem stackIterRound_iterating (hcallback : CallbackKeeps Inv start path callback)
    {pushCount : ℕ} {iterators : List StackIterator} {iteration iteration' : StackIteration δ}
    {stack' : Stack} (h : Iterating metric text next start place old q stack iteration.slices)
    (hpaths : ∀ iterator ∈ iterators, PathSpans metric text next path place q iterator)
    (hkept : ∀ iterator ∈ iteration.kept ++ iteration.pushed,
      PathSpans metric text next path place q iterator)
    (hinv : Inv iteration.payload iteration.slices)
    (hrun : stackIterRound callback pushCount iterators iteration stack =
      some (iteration', stack')) :
    Iterating metric text next start place old q stack' iteration'.slices ∧
      (∀ iterator ∈ iteration'.kept ++ iteration'.pushed,
        PathSpans metric text next path place q iterator) ∧
      Inv iteration'.payload iteration'.slices := by
  induction iterators generalizing iteration stack with
  | nil =>
      rw [stackIterRound, pure_eq_some_iff] at hrun
      obtain ⟨rfl, rfl⟩ := hrun
      exact ⟨h, hkept, hinv⟩
  | cons iterator rest ih =>
      have hpath := hpaths iterator List.mem_cons_self
      have hrest := fun iterator' hmem => hpaths iterator' (List.mem_cons_of_mem iterator hmem)
      rw [stackIterRound, get_bind, stackNode_bind_eq_some_iff] at hrun
      obtain ⟨node, hnode, hrun⟩ := hrun
      obtain ⟨p, own, hp, hown, hbuilt⟩ := hpath.spans
      rcases hanswer : callback iteration.payload node.state iterator.trees iterator.treeCount
        (decide (iterator.node = stack.baseNode)) iterator.isPending with ⟨⟨pop, stop⟩, payload⟩
      simp only [hanswer] at hrun
      obtain ⟨hgo, hkeeps⟩ := hcallback.keeps _ _ _ _ _ _ _ _ _ (hpath.count ▸ hanswer)
        hinv hpath.path hpath.pending
      rw [bind_eq_some_iff] at hrun
      obtain ⟨slices, popped, hslices, hrun⟩ := hrun
      -- the slice of the path, if it is popped
      have hpopped : Iterating metric text next start place old q popped slices ∧
        Inv payload slices := by
        cases pop with
        | false =>
            simp only [Bool.false_eq_true, if_false, pure_eq_some_iff] at hslices hkeeps
            obtain ⟨rfl, rfl⟩ := hslices
            exact ⟨h, hkeeps⟩
        | true =>
            simp only [if_true] at hslices hkeeps
            have hbase : decide (iterator.node = stack.baseNode) = true → p = Length.zero := by
              intro hdone
              have hbase := h.sound.base
              rw [← of_decide_eq_true hdone, hp, Option.some.injEq] at hbase
              exact hbase
            obtain ⟨hiterating, front, version, back, hsplit, hfront, rfl⟩ :=
              tsStackAddSlice_iterating h hp (hkeeps.1 p hbase) hown hbuilt hslices
            exact ⟨hiterating, hkeeps.2 front version back hsplit hfront⟩
      by_cases hstop : (stop || node.links.isEmpty) = true
      · rw [if_pos hstop] at hrun
        exact @ih popped { iteration with payload := payload, slices := slices }
          hpopped.1 hrest hkept hpopped.2 hrun
      · rw [if_neg hstop] at hrun
        refine ih hpopped.1 hrest (fun iterator' hmem => ?_) hpopped.2 hrun
        rw [Bool.or_eq_true, not_or, Bool.not_eq_true] at hstop
        have hfollow : ∀ link ∈ node.links, PathSpans metric text next path place q
          (followLink iterator link) :=
          fun link hlink => hpath.follow h.sound hnode hlink (hgo hstop.1)
        simp only [List.mem_append, List.mem_map] at hmem hkept
        rcases hmem with (hmem | ⟨link, hlink, rfl⟩) | (hmem | ⟨link, hlink, rfl⟩)
        · exact hkept _ (Or.inl hmem)
        · exact hfollow link (List.mem_of_mem_take hlink)
        · exact hkept _ (Or.inr hmem)
        · exact hfollow link (List.mem_of_mem_tail (List.mem_of_mem_take hlink))

/-- What a pop leaves of the versions. -/
theorem Iterating.stands {slices : List StackSlice}
    (h : Iterating metric text next start place old q stack slices) :
    ∃ added, stack.Stands metric text next (old.positions place ++ added) ∧
      SlicesAt metric text next start (old.positions place ++ added) (old.positions place).length
        q slices := by
  obtain ⟨added, hadded⟩ := h.heads
  have hpositions : stack.positions place = old.positions place ++ added.map fun head =>
    place head.node := by
    rw [Stack.positions, Stack.positions, hadded, List.map_append]
  refine ⟨added.map fun head => place head.node, ⟨place, h.sound, hpositions⟩, ?_⟩
  rw [← hpositions, Stack.length_positions old place]
  exact h.slices

/-- **`stack__iter` finds what spans the text**: on whatever paths a callback pops and stops, every
slice spans the text from where its version ends to where the pop has started, and the stack has
only gained the versions of the slices. -/
theorem stackIter_stands (hold : old.Stands metric text next positions)
    (hcallback : CallbackKeeps Inv start path callback) {fuel version : ℕ} {payload payload' : δ}
    {slices : List StackSlice} {stack' : Stack} (hversion : positions[version]? = some (some q))
    (hinv : Inv payload [])
    (hrun : stackIter callback fuel payload version old = some ((slices, payload'), stack')) :
    Inv payload' slices ∧ ∃ added, stack'.Stands metric text next (positions ++ added) ∧
      SlicesAt metric text next start (positions ++ added) positions.length q slices := by
  obtain ⟨place, hsound, rfl⟩ := hold
  suffices hiter : Iterating metric text next start place old q stack' slices ∧
    Inv payload' slices from ⟨hiter.2, hiter.1.stands⟩
  rw [stackIter, stackHead_bind_eq_some_iff] at hrun
  obtain ⟨head, hhead, hrun⟩ := hrun
  rw [Stack.getElem?_positions, hhead, Option.map_some, Option.some.injEq] at hversion
  refine @Triple.loop _ _ _ (fun result stack => Iterating metric text next start place old q
    stack result.1 ∧ Inv result.2 result.1) _ (fun (iteration : StackIteration δ) stack =>
      Iterating metric text next start place old q stack iteration.slices ∧
      (∀ iterator ∈ iteration.kept, PathSpans metric text next path place q iterator) ∧
      Inv iteration.payload iteration.slices) ?_ fuel _ old _ stack' ⟨?_, ?_, hinv⟩ hrun
  · -- a round with paths, or the end
    rintro iteration stack result last ⟨hiterating, hpaths, hinv⟩ hbody
    by_cases hempty : iteration.kept.isEmpty = true
    · rw [if_pos hempty, pure_eq_some_iff] at hbody
      obtain ⟨rfl, rfl⟩ := hbody
      exact ⟨hiterating, hinv⟩
    · rw [if_neg hempty, bind_eq_some_iff] at hbody
      obtain ⟨iteration', last', hround, hbody⟩ := hbody
      rw [pure_eq_some_iff] at hbody
      obtain ⟨rfl, rfl⟩ := hbody
      exact @stackIterRound_iterating _ _ _ _ _ _ _ _ _ _ _ _ _ hcallback _ _
        { iteration with kept := [], pushed := [] } _ _ hiterating hpaths
        (fun iterator hmem => absurd hmem List.not_mem_nil) hinv hround
  · refine ⟨hsound, rfl, ⟨[], (List.append_nil _).symm⟩, List.Pairwise.nil,
      fun slice hslice => absurd hslice List.not_mem_nil, fun version hle hlt => ?_⟩
    rw [Stack.length_positions] at hlt
    exact absurd hlt (Nat.not_lt.mpr hle)
  · intro iterator hmem
    rw [List.mem_singleton.mp hmem]
    -- the only path at the start is empty
    obtain ⟨node, -, hstands⟩ := hsound.node _ q hversion
    exact ⟨hcallback.nil, rfl, fun _ tree htree => absurd htree List.not_mem_nil, q, [], hversion,
      hstands.stop, builtAmong_nil⟩

end Iterate

/-! ## Pops -/

/-- The first version behind the old ones belongs to the first slice. -/
theorem SlicesAt.version_head {count : ℕ} {slice : StackSlice} {rest : List StackSlice}
    (h : SlicesAt metric text next start positions count q (slice :: rest)) :
    slice.version = count := by
  obtain ⟨hle, p, own, hposition, -⟩ := h.spans slice List.mem_cons_self
  obtain ⟨slice', hslice', hversion⟩ := h.covers count (Nat.le_refl _)
    (Nat.lt_of_le_of_lt hle (List.getElem?_eq_some_iff.mp hposition).1)
  rcases List.mem_cons.mp hslice' with rfl | hmem
  · exact hversion
  · have hfirst := (List.pairwise_cons.mp h.sorted).1 slice' hmem
    omega

/-- A pop that finds nothing adds no versions. -/
theorem SlicesAt.nil {added : List (Option Length)}
    (h : SlicesAt metric text next start (positions ++ added) positions.length q []) :
    added = [] := by
  cases added with
  | nil => rfl
  | cons p rest =>
      obtain ⟨slice, hslice, -⟩ := h.covers positions.length (Nat.le_refl _)
        (by rw [List.length_append, List.length_cons]; omega)
      exact absurd hslice List.not_mem_nil

/-- A pop that finds one slice adds one version. -/
theorem SlicesAt.singleton {added : List (Option Length)} {slice : StackSlice}
    (h : SlicesAt metric text next start (positions ++ added) positions.length q [slice]) :
    slice.version = positions.length ∧ ∃ p own, added = [some p] ∧ start p ∧
      Stretch metric text p q own ∧ BuiltAmong metric next slice.trees own := by
  have hversion := h.version_head
  obtain ⟨-, p, own, hposition, hstart, hown, hbuilt⟩ := h.spans slice List.mem_cons_self
  refine ⟨hversion, p, own, ?_, hstart, hown, hbuilt⟩
  rw [hversion, List.getElem?_append_right (Nat.le_refl _), Nat.sub_self] at hposition
  cases added with
  | nil => exact absurd hposition (Option.some_ne_none _).symm
  | cons p' rest =>
      rw [List.getElem?_cons_zero, Option.some.injEq] at hposition
      cases rest with
      | nil => rw [hposition]
      | cons p'' rest =>
          -- a second version would belong to a second slice
          obtain ⟨slice', hslice', hversion'⟩ := h.covers (positions.length + 1) (Nat.le_succ _)
            (by simp only [List.length_append, List.length_cons]; omega)
          rw [List.mem_singleton.mp hslice', hversion] at hversion'
          omega

/-- The slices behind the first one, when it shares its version with the next one. -/
theorem SlicesAt.tail {count : ℕ} {slice slice' : StackSlice} {rest : List StackSlice}
    (h : SlicesAt metric text next start positions count q (slice :: slice' :: rest))
    (hversion : slice'.version = slice.version) :
    SlicesAt metric text next start positions count q (slice' :: rest) where
  sorted := (List.pairwise_cons.mp h.sorted).2
  spans other hother := h.spans other (List.mem_cons_of_mem _ hother)
  covers version hle hlt := by
    obtain ⟨other, hother, rfl⟩ := h.covers version hle hlt
    rcases List.mem_cons.mp hother with rfl | hmem
    · exact ⟨slice', List.mem_cons_self, hversion⟩
    · exact ⟨other, hmem, rfl⟩

/-- The slices behind the first one, when it had a version of its own that is removed. -/
theorem SlicesAt.removeHead {added : List (Option Length)} {slice slice' : StackSlice}
    {rest : List StackSlice} (h : SlicesAt metric text next start (positions ++ added)
    positions.length q (slice :: slice' :: rest)) (hversion : slice'.version ≠ slice.version) :
    (positions ++ added).eraseIdx slice.version = positions ++ added.tail ∧
      SlicesAt metric text next start (positions ++ added.tail) positions.length q
        ((slice' :: rest).map fun slice => { slice with version := slice.version - 1 }) := by
  have hhead := h.version_head
  have herase : (positions ++ added).eraseIdx slice.version = positions ++ added.tail := by
    rw [hhead, List.eraseIdx_append_of_length_le (Nat.le_refl _), Nat.sub_self, List.eraseIdx_zero]
  -- the slices behind the first one have later versions
  obtain ⟨hfirst, hsorted⟩ := List.pairwise_cons.mp h.sorted
  have hlater : ∀ other ∈ slice' :: rest, slice.version < other.version := by
    intro other hother
    have hlt : slice.version < slice'.version :=
      Nat.lt_of_le_of_ne (hfirst slice' List.mem_cons_self) hversion.symm
    rcases List.mem_cons.mp hother with rfl | hmem
    · exact hlt
    · exact Nat.lt_of_lt_of_le hlt ((List.pairwise_cons.mp hsorted).1 other hmem)
  refine ⟨herase, ?_, ?_, ?_⟩
  · rw [List.pairwise_map]
    exact hsorted.imp fun hle => Nat.sub_le_sub_right hle 1
  · intro other hother
    obtain ⟨other, hmem, rfl⟩ := List.mem_map.mp hother
    obtain ⟨hle, p, own, hposition, hspans⟩ := h.spans other (List.mem_cons_of_mem _ hmem)
    have hlt := hlater other hmem
    refine ⟨Nat.le_sub_one_of_lt (hhead ▸ hlt), p, own, ?_, hspans⟩
    rw [← herase, List.getElem?_eraseIdx, if_neg (Nat.not_lt.mpr (Nat.le_sub_one_of_lt hlt)),
      Nat.sub_add_cancel (Nat.one_le_of_lt hlt), hposition]
  · intro version hle hlt
    obtain ⟨other, hother, hother'⟩ := h.covers (version + 1) (Nat.le_succ_of_le hle) (by
      simp only [List.length_append, List.length_tail] at hlt ⊢
      omega)
    rcases List.mem_cons.mp hother with rfl | hmem
    · omega
    · exact ⟨_, List.mem_map.mpr ⟨other, hmem, rfl⟩, by simp only [hother', Nat.add_sub_cancel]⟩

/-- What `ts_stack_pop_count` knows of its slices while it goes on. -/
def PopCounts (count : ℕ) (session : StackPopSession) (slices : List StackSlice) : Prop :=
  session.goalTreeCount = count ∧ ∃ errors valid, slices = errors ++ valid ∧
    (∀ slice ∈ valid, (slice.trees.countP fun tree => !tree.label.extra) = count) ∧
    (if session.foundError then ∃ error, errors = [error] else errors = []) ∧
    (session.foundValidPath = false → valid = [])

/-- The callback of `ts_stack_pop_count` finds paths with the right number of trees, and at most one
that runs into an error, which stays in front. -/
theorem popCountCallback_keeps (count : ℕ) :
    CallbackKeeps (PopCounts count) (fun _ => True) (fun _ => True) popCountCallback where
  nil := trivial
  keeps := by
    rintro session slices state trees isDone isPending pop stop session' hanswer
      ⟨hgoal, errors, valid, rfl, hvalid, herrors, hnone⟩ - -
    refine ⟨fun _ _ => trivial, ?_⟩
    have hreverse : ∀ version, ((⟨trees.reverse, version⟩ : StackSlice).trees.countP
        fun tree => !tree.label.extra) = trees.countP fun tree => !tree.label.extra :=
      fun _ => List.countP_reverse
    unfold popCountCallback at hanswer
    split at hanswer
    · next htrees =>
        obtain ⟨⟨rfl, rfl⟩, rfl⟩ := hanswer
        refine ⟨fun _ _ => trivial, fun front version back hsplit hfront => ?_⟩
        -- the path has the trees that were asked for, and goes behind the error if there is one
        have hnew : (List.countP (fun tree => !tree.label.extra) trees.reverse) = count := by
          rw [List.countP_reverse, htrees, hgoal]
        cases hfound : session.foundError with
        | false =>
            rw [hfound, if_neg Bool.false_ne_true] at herrors
            subst herrors
            rw [List.nil_append] at hsplit
            refine ⟨hgoal, [], front ++ ⟨trees.reverse, version⟩ :: back, rfl,
              fun slice hslice => ?_, ?_, fun hfalse => absurd hfalse.symm Bool.false_ne_true⟩
            · rcases List.mem_append.mp hslice with hmem | hmem
              · exact hvalid slice (hsplit ▸ List.mem_append_left _ hmem)
              · rcases List.mem_cons.mp hmem with rfl | hmem
                · exact hnew
                · exact hvalid slice (hsplit ▸ List.mem_append_right _ hmem)
            · simp only [Bool.false_eq_true, if_false]
        | true =>
            rw [hfound, if_pos rfl] at herrors
            obtain ⟨error, rfl⟩ := herrors
            cases front with
            | nil => exact absurd (hfront rfl) (List.cons_ne_nil _ _)
            | cons first front =>
                rw [List.singleton_append, List.cons_append, List.cons.injEq] at hsplit
                obtain ⟨rfl, hsplit⟩ := hsplit
                refine ⟨hgoal, [error], front ++ ⟨trees.reverse, version⟩ :: back, rfl,
                  fun slice hslice => ?_, ?_, fun hfalse => absurd hfalse.symm Bool.false_ne_true⟩
                · rcases List.mem_append.mp hslice with hmem | hmem
                  · exact hvalid slice (hsplit ▸ List.mem_append_left _ hmem)
                  · rcases List.mem_cons.mp hmem with rfl | hmem
                    · exact hnew
                    · exact hvalid slice (hsplit ▸ List.mem_append_right _ hmem)
                · simp only [if_true]
                  exact ⟨error, rfl⟩
    · split at hanswer
      · split at hanswer
        · obtain ⟨⟨rfl, rfl⟩, rfl⟩ := hanswer
          exact ⟨hgoal, errors, valid, rfl, hvalid, herrors, hnone⟩
        · next hfirst =>
            obtain ⟨⟨rfl, rfl⟩, rfl⟩ := hanswer
            -- the first path that runs into an error, when no other has been found
            rw [Bool.or_eq_true, not_or, Bool.not_eq_true, Bool.not_eq_true] at hfirst
            rw [hfirst.2, if_neg Bool.false_ne_true] at herrors
            subst herrors
            obtain rfl := hnone hfirst.1
            refine ⟨fun _ _ => trivial, fun front version back hsplit _ => ?_⟩
            obtain ⟨rfl, rfl⟩ := List.append_eq_nil_iff.mp hsplit.symm
            exact ⟨hgoal, [⟨trees.reverse, version⟩], [], rfl, fun slice hslice =>
              absurd hslice List.not_mem_nil, ⟨_, rfl⟩, fun _ => rfl⟩
      · obtain ⟨⟨rfl, rfl⟩, rfl⟩ := hanswer
        exact ⟨hgoal, errors, valid, rfl, hvalid, herrors, hnone⟩

/-- **`ts_stack_pop_count`** finds what spans the text. When it has not been stopped at an error,
every slice has as many trees that count as were asked for; otherwise there is one slice. -/
theorem tsStackPopCount_stands (hold : old.Stands metric text next positions)
    {fuel version count : ℕ}
    {result : StackPopResult} {stack' : Stack} (hversion : positions[version]? = some (some q))
    (hrun : tsStackPopCount fuel version count old = some (result, stack')) :
    (∃ added, stack'.Stands metric text next (positions ++ added) ∧
      SlicesAt metric text next (fun _ => True) (positions ++ added) positions.length q
        result.slices) ∧
      if result.stoppedAtError then ∃ slice, result.slices = [slice]
      else ∀ slice ∈ result.slices, (slice.trees.countP fun tree => !tree.label.extra) = count := by
  rw [tsStackPopCount, bind_eq_some_iff] at hrun
  obtain ⟨⟨slices, session⟩, popped, hiter, hrun⟩ := hrun
  obtain ⟨⟨-, errors, valid, rfl, hvalid, herrors, hnone⟩, added, hstands, hslices⟩ :=
    stackIter_stands hold (popCountCallback_keeps count) hversion
    ⟨rfl, [], [], rfl, by simp, by simp, fun _ => rfl⟩ hiter
  simp only at hrun
  cases hfound : session.foundError with
  | false =>
      rw [hfound, if_neg Bool.false_ne_true] at herrors hrun
      subst herrors
      rw [pure_eq_some_iff] at hrun
      obtain ⟨rfl, rfl⟩ := hrun
      exact ⟨⟨added, hstands, hslices⟩, hvalid⟩
  | true =>
      rw [hfound, if_pos rfl] at herrors hrun
      obtain ⟨error, rfl⟩ := herrors
      -- an error has been found: it is the answer, unless there are other paths
      cases hpath : session.foundValidPath with
      | false =>
          obtain rfl := hnone hpath
          rw [hpath, if_neg Bool.false_ne_true, pure_eq_some_iff] at hrun
          obtain ⟨rfl, rfl⟩ := hrun
          exact ⟨⟨added, hstands, hslices⟩, error, rfl⟩
      | true =>
          rw [hpath, if_pos rfl, List.singleton_append] at hrun
          rw [List.singleton_append] at hslices
          cases valid with
          | nil => exact absurd hrun (by rw [trap_eq_some_iff]; exact id)
          | cons front rest =>
              simp only at hrun
              split at hrun
              · next hversions =>
                  rw [bind_eq_some_iff] at hrun
                  -- no other slice has the version of the error, so the version goes
                  obtain ⟨_, removed, hremove, hrun⟩ := hrun
                  rw [pure_eq_some_iff] at hrun
                  obtain ⟨rfl, rfl⟩ := hrun
                  obtain ⟨herase, hslices'⟩ := hslices.removeHead hversions
                  have hremoved := tsStackRemoveVersion_stands hstands hremove
                  rw [herase] at hremoved
                  refine ⟨⟨added.tail, hremoved, hslices'⟩, fun slice hslice => ?_⟩
                  obtain ⟨slice, hmem, rfl⟩ := List.mem_map.mp hslice
                  exact hvalid slice hmem
              · next hversions =>
                  rw [pure_eq_some_iff] at hrun
                  obtain ⟨rfl, rfl⟩ := hrun
                  exact ⟨⟨added, hstands, hslices.tail (not_not.mp hversions)⟩, hvalid⟩

/-- A callback that pops a path at once finds nothing else. -/
theorem stackIter_pop_stop {δ : Type} {callback : StackIterateCallback δ} {fuel version : ℕ}
    {payload payload' payload'' : δ} {slices : List StackSlice} {stack' : Stack}
    (hcallback : ∀ state isDone, callback payload state [] 0 isDone true =
      ((true, true), payload''))
    (hrun : stackIter callback fuel payload version old = some ((slices, payload'), stack')) :
    payload' = payload'' ∧ ∃ slice, slices = [slice] := by
  rw [stackIter, stackHead_bind_eq_some_iff] at hrun
  obtain ⟨head, -, hrun⟩ := hrun
  cases fuel with
  | zero => exact absurd hrun (by rw [loop, trap_eq_some_iff]; exact id)
  | succ fuel =>
      rw [loop, bind_eq_some_iff] at hrun
      obtain ⟨turn, last, hround, hrun⟩ := hrun
      -- the first round pops the only path
      rw [if_neg (by simp), bind_eq_some_iff] at hround
      obtain ⟨iteration, last', hround, hturn⟩ := hround
      rw [pure_eq_some_iff] at hturn
      obtain ⟨rfl, rfl⟩ := hturn
      rw [stackIterRound, get_bind, stackNode_bind_eq_some_iff] at hround
      obtain ⟨node, -, hround⟩ := hround
      simp only [hcallback, if_true, Bool.true_or, stackIterRound, bind_eq_some_iff,
        pure_eq_some_iff, tsStackAddSlice, insertSlice, get_bind, tsStackAddVersion,
        set_bind] at hround
      obtain ⟨_, _, ⟨_, _, -, rfl, -⟩, rfl, rfl⟩ := hround
      cases fuel with
      | zero => exact absurd hrun (by simp only [loop, trap_eq_some_iff]; exact id)
      | succ fuel =>
          simp only [loop] at hrun
          rw [bind_eq_some_iff] at hrun
          obtain ⟨turn, last'', hround, hrun⟩ := hrun
          rw [if_pos (by simp), pure_eq_some_iff] at hround
          obtain ⟨rfl, rfl⟩ := hround
          rw [pure_eq_some_iff, Prod.mk.injEq] at hrun
          obtain ⟨⟨rfl, rfl⟩, -⟩ := hrun
          exact ⟨rfl, _, rfl⟩

/-- Popping no trees finds one path. -/
theorem tsStackPopCount_zero {fuel version : ℕ} {result : StackPopResult} {stack' : Stack}
    (hrun : tsStackPopCount fuel version 0 old = some (result, stack')) :
    ∃ slice, result.slices = [slice] := by
  rw [tsStackPopCount, bind_eq_some_iff] at hrun
  obtain ⟨⟨slices, session⟩, popped, hiter, hrun⟩ := hrun
  obtain ⟨rfl, slice, rfl⟩ := stackIter_pop_stop (fun _ _ => rfl) hiter
  simp only [Bool.false_eq_true, if_false, pure_eq_some_iff] at hrun
  obtain ⟨rfl, -⟩ := hrun
  exact ⟨slice, rfl⟩

/-- **`ts_stack_pop_all`** finds what spans the text from its start on. -/
theorem tsStackPopAll_stands (hold : old.Stands metric text next positions) {fuel version : ℕ}
    {slices : List StackSlice} {stack' : Stack} (hversion : positions[version]? = some (some q))
    (hrun : tsStackPopAll fuel version old = some (slices, stack')) :
    ∃ added, stack'.Stands metric text next (positions ++ added) ∧
      SlicesAt metric text next (fun p => p = Length.zero) (positions ++ added) positions.length
        q slices := by
  have hcallback : CallbackKeeps (fun (_ : Unit) _ => True) (fun p => p = Length.zero)
      (fun _ => True) popAllCallback := by
    refine ⟨trivial, fun _ _ _ _ isDone _ _ _ _ hanswer _ _ _ => ⟨fun _ _ => trivial, ?_⟩⟩
    cases isDone with
    | false =>
        obtain ⟨⟨rfl, rfl⟩, rfl⟩ := hanswer
        trivial
    | true =>
        obtain ⟨⟨rfl, rfl⟩, rfl⟩ := hanswer
        exact ⟨fun p hp => hp rfl, fun _ _ _ _ _ => trivial⟩
  rw [tsStackPopAll, bind_eq_some_iff] at hrun
  obtain ⟨⟨found, _⟩, popped, hiter, hrun⟩ := hrun
  rw [pure_eq_some_iff] at hrun
  obtain ⟨rfl, rfl⟩ := hrun
  exact (stackIter_stands hold hcallback hversion trivial hiter).2

/-- What `ts_stack_pop_pending` finds on a path: a tree that can be broken down, and extra trees
behind it. -/
def PendingTrees : List SyntaxTree → Prop
  | [] => False
  | tree :: extras => tree.children ≠ [] ∧ ∀ extra ∈ extras, extra.label.extra = true

/-- **`ts_stack_pop_pending`** moves the version back to where the trees start that it finds. Where
it finds several paths, one of the slices has the number of a version that there is no more. -/
theorem tsStackPopPending_stands (hold : old.Stands metric text next positions) {fuel version : ℕ}
    {slices : List StackSlice} {stack' : Stack} (hversion : positions[version]? = some (some q))
    (hrun : tsStackPopPending fuel version old = some (slices, stack')) :
    (slices = [] ∧ stack'.Stands metric text next positions) ∨
      (∃ trees p own, slices = [⟨trees, version⟩] ∧ PendingTrees trees ∧
        stack'.Stands metric text next (positions.set version (some p)) ∧
          Stretch metric text p q own ∧ BuiltAmong metric next trees own) ∨
      ∃ slice ∈ slices, stack'.heads.length ≤ slice.version := by
  have hcallback : CallbackKeeps (fun (_ : Unit) slices => ∀ slice ∈ slices,
      PendingTrees slice.trees) (fun _ => True)
      (fun trees => ∀ tree ∈ trees.dropLast, tree.label.extra = true) popPendingCallback := by
    refine ⟨by simp,
      fun payload slices state trees isDone isPending pop stop _ hanswer hinv hpath hbreak => ?_⟩
    unfold popPendingCallback at hanswer
    split at hanswer
    · next hcount =>
        split at hanswer
        · next hpending =>
            obtain ⟨⟨rfl, rfl⟩, rfl⟩ := hanswer
            refine ⟨fun hstop => absurd hstop.symm Bool.false_ne_true, fun _ _ => trivial,
              fun front version back hsplit _ slice hslice => ?_⟩
            rcases List.mem_append.mp hslice with hmem | hmem
            · exact hinv slice (hsplit ▸ List.mem_append_left _ hmem)
            · rcases List.mem_cons.mp hmem with rfl | hmem
              · -- the last tree passed is the only one that counts
                rcases List.eq_nil_or_concat' trees with rfl | ⟨extras, tree, rfl⟩
                · exact absurd hcount (by simp)
                · rw [List.dropLast_concat] at hpath
                  have hcounts : tree.label.extra = false := by
                    rw [List.countP_append, List.countP_eq_zero.mpr (by
                      intro extra hextra
                      rw [hpath extra hextra]
                      exact Bool.false_ne_true), Nat.zero_add, List.countP_singleton] at hcount
                    cases hextra : tree.label.extra with
                    | false => rfl
                    | true => simp [hextra] at hcount
                  simp only [List.reverse_append, List.reverse_singleton, List.singleton_append,
                    PendingTrees, List.mem_reverse]
                  exact ⟨hbreak hpending tree (List.mem_append_right _
                    (List.mem_singleton_self _)) hcounts, hpath⟩
              · exact hinv slice (hsplit ▸ List.mem_append_right _ hmem)
        · obtain ⟨⟨rfl, rfl⟩, rfl⟩ := hanswer
          exact ⟨fun hstop => absurd hstop.symm Bool.false_ne_true, hinv⟩
    · next hcount =>
        obtain ⟨⟨rfl, rfl⟩, rfl⟩ := hanswer
        refine ⟨fun _ tree => ?_, hinv⟩
        rw [List.dropLast_concat]
        rw [ge_iff_le, Nat.one_le_iff_ne_zero, not_not, List.countP_eq_zero] at hcount
        intro tree' htree'
        simpa using hcount tree' htree'
  rw [tsStackPopPending, bind_eq_some_iff] at hrun
  obtain ⟨⟨found, _⟩, popped, hiter, hrun⟩ := hrun
  obtain ⟨hpending, added, hstands, hslices⟩ := stackIter_stands hold hcallback hversion
    (fun slice hslice => absurd hslice List.not_mem_nil) hiter
  cases found with
  | nil =>
      simp only [pure_eq_some_iff] at hrun
      obtain ⟨rfl, rfl⟩ := hrun
      rw [hslices.nil, List.append_nil] at hstands
      exact Or.inl ⟨rfl, hstands⟩
  | cons slice rest =>
      simp only [bind_eq_some_iff, pure_eq_some_iff] at hrun
      obtain ⟨_, _, hrenumber, rfl, rfl⟩ := hrun
      obtain ⟨-, p', hp', hrenumbered⟩ := tsStackRenumberVersion_stands hstands hrenumber
      have hcount := hslices.version_head
      cases rest with
      | nil =>
          obtain ⟨-, p, own, rfl, -, hown, hbuilt⟩ := hslices.singleton
          rw [hcount, List.getElem?_concat_length, Option.some.injEq] at hp'
          subst hp'
          refine Or.inr (Or.inl ⟨slice.trees, p, own, rfl, hpending slice List.mem_cons_self, ?_,
            hown, hbuilt⟩)
          have hlength : (positions.set version (some p)).length = positions.length :=
            List.length_set
          rwa [hcount, List.set_append_left _ _
            (List.getElem?_eq_some_iff.mp hversion).1, ← hlength,
            List.eraseIdx_append_of_length_le (Nat.le_refl _), Nat.sub_self, List.eraseIdx_zero,
            List.tail_cons, List.append_nil] at hrenumbered
      | cons slice' rest =>
          -- the last version belongs to one of the further slices, and the versions
          -- are one fewer now
          have hlt := (List.getElem?_eq_some_iff.mp hp').1
          have hlength := hrenumbered.length_eq
          rw [List.length_eraseIdx_of_lt (by rwa [List.length_set]), List.length_set] at hlength
          obtain ⟨last, hlast, hversions⟩ := hslices.covers ((positions ++ added).length - 1)
            (by omega) (by omega)
          refine Or.inr (Or.inr ?_)
          rcases List.mem_cons.mp hlast with rfl | hmem
          · have hle := (List.pairwise_cons.mp hslices.sorted).1 slice' List.mem_cons_self
            exact ⟨slice', List.mem_cons_of_mem _ List.mem_cons_self, by omega⟩
          · exact ⟨last, List.mem_cons_of_mem _ hmem, by omega⟩

end Paths

end TreeSitterTextStorage
