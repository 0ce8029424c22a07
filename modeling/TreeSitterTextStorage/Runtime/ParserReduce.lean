import Mathlib.Data.List.TakeWhile
import TreeSitterTextStorage.Runtime.ParserSound

/-! # Reductions keep the text

`parser__reduce` pops trees from a version, which splits it, puts a parent over the trees of every
slice, and merges the versions that come to the same. Whatever is reduced, the version itself stays,
and all versions behind the old ones end where it does. -/

namespace TreeSitterTextStorage

open Program RoseTree

variable {α π : Type} {language : TSLanguage} {input : TSInput π}
  {task : ParseTask α language input}
  {since next address : ℕ} {positions : List (Option Length)} {parser parser' : TSParser π}
  {p q : Length}

/-! ## Switching children -/

/-- A node that was just allocated at an address and has no parent yet. -/
structure IsNew (address : ℕ) (tree : SyntaxTree) : Prop where
  /-- The address. -/
  address : tree.label.address = address
  /-- No parent. -/
  parent : tree.label.parent = none
  /-- No changes. -/
  unmarked : tree.label.hasChanges = false

/-- A node that was just made is new. -/
theorem isNew_makeNode {symbol : UInt16} {trees : List SyntaxTree} {metadata : TSSymbolMetadata}
    (h : ∀ tree ∈ trees, Settled next tree) :
    IsNew address (tsTreeMakeNode address symbol trees metadata) := by
  obtain ⟨haddress, hparent, hunmarked, -, -⟩ :=
    identity_setChildren (tsTreeMakeLeaf address symbol Length.zero Length.zero metadata).label h
  exact ⟨haddress, hparent, hunmarked⟩

/-- Children that are switched in lead where the node does then. -/
theorem switchChildren_eq_some {tree tree' : SyntaxTree} {trees : List SyntaxTree} {switched : Bool}
    (htree : IsNew address tree) (htrees : task.LeadAmong address p q trees) (hne : trees ≠ [])
    (hrun : parserSwitchChildren tree trees parser = some ((switched, tree'), parser')) :
    (∃ scratch, parser' = { parser with scratchTree := scratch }) ∧
      if switched then IsNew address tree' ∧ tree'.children = trees ∧
        task.Leads (address + 1) p q tree'
      else tree' = tree := by
  rw [parserSwitchChildren, get_bind, set_bind, pure_eq_some_iff] at hrun
  obtain ⟨hresult, rfl⟩ := hrun
  refine ⟨⟨_, rfl⟩, ?_⟩
  split at hresult
  · obtain ⟨rfl, rfl⟩ := Prod.mk.inj hresult
    refine ⟨⟨htree.address, htree.parent, htree.unmarked⟩, rfl, ?_⟩
    obtain ⟨own, hown, hbuilt⟩ := htrees
    have hshort := Nat.lt_of_le_of_lt hown.bytesOf_le task.short
    refine ⟨own, hown, Built.of_children ?_ hbuilt.settled htree.unmarked htree.address ?_
      (fun _ => ?_) fun _ => padding_setChildren⟩
    · exact (spans_node_congr rfl rfl).mp
        (@spans_setChildren _ _ { parser.scratchTree with symbol := tree.label.symbol } _ _
          hbuilt.spans hne hshort)
    · intro parent hparent
      exact absurd (htree.parent.symm.trans hparent) (Option.some_ne_none parent).symm
    · exact (identity_setChildren _ fun child hchild => (hbuilt.settled child hchild).root).2.2.2
  · obtain ⟨rfl, rfl⟩ := Prod.mk.inj hresult
    rfl

/-- The trees of a slice that are put under a parent, which is new. -/
structure ParseTask.Composes (task : ParseTask α language input) (address : ℕ) (p q : Length)
    (slice : StackSlice) (parent : SyntaxTree) : Prop where
  /-- The parent is new. -/
  isNew : IsNew address parent
  /-- Its children are the trees of the slice, but for extra trees at the end. -/
  children : parent.children = (tsTreeArrayRemoveTrailingExtras slice.trees).1
  /-- The parent and the trees behind it lead from one position to the other. -/
  leads : ∃ r, task.Leads (address + 1) p r parent ∧
    task.LeadAmong address r q (tsTreeArrayRemoveTrailingExtras slice.trees).2

/-- The slices of one version that come behind another one and may have better children. -/
def ParseTask.Rivals (task : ParseTask α language input) (address : ℕ) (p q : Length) (version : ℕ)
    (slices : List StackSlice) : Prop :=
  ∀ slice ∈ slices, slice.version = version →
    task.LeadAmong address p q slice.trees ∧ (tsTreeArrayRemoveTrailingExtras slice.trees).1 ≠ []

/-- The loop of `parser__reduce` over the further slices of a version takes the trees of
one of them. -/
theorem switchSlices_eq_some {slice : StackSlice} {parent : SyntaxTree} {rest : List StackSlice}
    {result : StackSlice × SyntaxTree × List StackSlice}
    (hcomposes : task.Composes address p q slice parent)
    (hrest : task.Rivals address p q slice.version rest)
    (hrun : parserSwitchSlices slice parent rest parser = some (result, parser')) :
    (∃ scratch, parser' = { parser with scratchTree := scratch }) ∧ result.1.version =
    slice.version ∧ task.Composes address p q result.1 result.2.1 ∧ ∃ same,
    rest = same ++ result.2.2 ∧ (∀ other ∈ same, other.version = slice.version) ∧
        ∀ other ∈ result.2.2.head?, other.version ≠ slice.version := by
  induction rest generalizing slice parent parser with
  | nil =>
      rw [parserSwitchSlices, pure_eq_some_iff] at hrun
      obtain ⟨rfl, rfl⟩ := hrun
      exact ⟨⟨parser.scratchTree, rfl⟩, rfl, hcomposes, [], rfl, fun _ hother =>
        absurd hother List.not_mem_nil, fun _ hother => absurd hother (Option.not_mem_none _)⟩
  | cons nextSlice rest ih =>
      rw [parserSwitchSlices] at hrun
      split at hrun
      · next hversion =>
          rw [pure_eq_some_iff] at hrun
          obtain ⟨rfl, rfl⟩ := hrun
          refine ⟨⟨parser.scratchTree, rfl⟩, rfl, hcomposes, [], rfl,
            fun _ hother => absurd hother List.not_mem_nil, fun other hother => ?_⟩
          rw [List.head?_cons, Option.mem_some_iff] at hother
          exact hother ▸ hversion
      · next hversion =>
          rw [not_not] at hversion
          obtain ⟨htrees, hne⟩ := hrest nextSlice List.mem_cons_self hversion
          rw [bind_eq_some_iff] at hrun
          obtain ⟨⟨switched, parent'⟩, middle, hswitch, hrun⟩ := hrun
          obtain ⟨r, hfront, hback⟩ :=
            leadAmong_append.mp ((removeTrailingExtras_append nextSlice.trees).symm ▸ htrees)
          obtain ⟨⟨scratch, rfl⟩, hswitched⟩ :=
            switchChildren_eq_some hcomposes.isNew hfront hne hswitch
          -- the slice that is taken, with its parent
          have htaken : task.Composes address p q (if switched then nextSlice else slice)
            parent' := by
            cases switched with
            | false => exact hswitched ▸ hcomposes
            | true => exact ⟨hswitched.1, hswitched.2.1, r, hswitched.2.2, hback⟩
          have hsame : (if switched then nextSlice else slice).version = slice.version := by
            cases switched with
            | false => rfl
            | true => exact hversion
          obtain ⟨⟨scratch', rfl⟩, hresult, htakes, same, rfl, hsames, hhead⟩ :=
            ih htaken (fun other hother hother' => hrest other (List.mem_cons_of_mem _ hother)
              (hother'.trans hsame)) hrun
          rw [hsame] at hresult hsames hhead
          refine ⟨⟨scratch', rfl⟩, hresult, htakes, nextSlice :: same, rfl,
            fun other hother => ?_, hhead⟩
          rcases List.mem_cons.mp hother with rfl | hmem
          · exact hversion
          · exact hsames other hmem

/-! ## Reducing a slice -/

/-- The trees behind those that `ts_tree_array_remove_trailing_extras` leaves. -/
theorem drop_removeTrailingExtras (trees : List SyntaxTree) :
    trees.drop (tsTreeArrayRemoveTrailingExtras trees).1.length =
      (tsTreeArrayRemoveTrailingExtras trees).2 := by
  have hsplit := removeTrailingExtras_append trees
  generalize (tsTreeArrayRemoveTrailingExtras trees).1 = kept at hsplit ⊢
  generalize (tsTreeArrayRemoveTrailingExtras trees).2 = removed at hsplit ⊢
  rw [← hsplit, List.drop_left]

/-- Trees of which some count do not all go when the extra trees at the end do. -/
theorem removeTrailingExtras_ne_nil {trees : List SyntaxTree}
    (h : (trees.countP fun tree => !tree.label.extra) ≠ 0) :
    (tsTreeArrayRemoveTrailingExtras trees).1 ≠ [] := by
  intro hnil
  rw [tsTreeArrayRemoveTrailingExtras, List.reverse_eq_nil_iff, List.dropWhile_eq_nil_iff] at hnil
  refine h (List.countP_eq_zero.mpr fun tree htree => ?_)
  rw [hnil tree (List.mem_reverse.mpr htree)]
  exact Bool.false_ne_true

/-- The mark of a parent says nothing about the text. -/
theorem leads_markParent {isFragile : Bool} {state : UInt16} {parent : SyntaxTree}
    (h : task.Leads next p q parent) : task.Leads next p q (markParent isFragile state parent) := by
  obtain ⟨own, hown, hbuilt⟩ := h
  obtain ⟨self, children⟩ := parent
  refine ⟨own, hown, ?_⟩
  rw [markParent]
  split <;> exact hbuilt.congr rfl rfl rfl rfl rfl rfl rfl

section Versions

variable {version : ℕ} {fuel : ℕ}

/-- A version is copied. -/
theorem TSParser.Sound.copyVersion {result : ℕ} (h : parser.Sound task since positions)
    (hversion : positions[version]? = some (some p))
    (hrun : onStack (tsStackCopyVersion version) parser = some (result, parser')) :
    result = positions.length ∧ parser'.Sound task since (positions ++ [some p]) := by
  obtain ⟨stack, hcopy, rfl⟩ := onStack_eq_some_iff.mp hrun
  obtain ⟨hresult, -, p', hp', hstands⟩ := tsStackCopyVersion_stands h.stack hcopy
  rw [hversion, Option.some.injEq] at hp'
  subst hp'
  exact ⟨hresult, h.withStack hstands⟩

/-- The version in which the parent is skipped ends where the trees lead, if it stays. -/
theorem TSParser.Sound.skipParent {sliceVersion : ℕ} {trees : List SyntaxTree} {result : PUnit}
    (h : parser.Sound task since positions) (hversion : positions[sliceVersion]? = some (some p))
    (htrees : task.LeadAmong since p q trees)
    (hrun : parserSkipParent fuel version sliceVersion trees parser = some (result, parser')) :
    ∃ added, (∀ position ∈ added, position = some q) ∧
      parser'.Sound task since (positions ++ added) := by
  rw [parserSkipParent, bind_eq_some_iff] at hrun
  obtain ⟨otherVersion, copied, hcopy, hrun⟩ := hrun
  obtain ⟨rfl, hcopied⟩ := h.copyVersion hversion hcopy
  rw [bind_eq_some_iff] at hrun
  obtain ⟨_, pushed, hpush, hrun⟩ := hrun
  have hpushed := hcopied.pushAll List.getElem?_concat_length htrees hpush
  rw [List.set_append_right _ _ (Nat.le_refl _), Nat.sub_self, List.set_cons_zero] at hpushed
  rw [onStack_bind_eq_some_iff (reads_errorStatus _)] at hrun
  obtain ⟨errorStatus, -, hrun⟩ := hrun
  rw [bind_eq_some_iff] at hrun
  obtain ⟨better, compared, hbetter, hrun⟩ := hrun
  have hcompared := (hpushed.betterVersionExists hbetter).1
  cases better with
  | false =>
      obtain ⟨-, rfl⟩ := pure_eq_some_iff.mp hrun
      exact ⟨[some q], fun position hposition => List.mem_singleton.mp hposition, hcompared⟩
  | true =>
      have hremoved := hcompared.removeVersion hrun
      rw [List.eraseIdx_append_of_length_le (Nat.le_refl _), Nat.sub_self, List.eraseIdx_zero,
        List.tail_cons] at hremoved
      exact ⟨[], fun position hposition => absurd hposition List.not_mem_nil, hremoved⟩

variable {symbol : UInt16} {fragile allowSkipping : Bool} {initialVersionCount sliceCount : ℕ}
  {slice : StackSlice} {rest rest' : List StackSlice}

/-- One turn of the loop of `parser__reduce` over the slices: the version of the slice moves to
where its trees lead, and a version that is added ends there as well. -/
theorem TSParser.Sound.reduceSlice (h : parser.Sound task since positions)
    (hversion : positions[slice.version]? = some (some p))
    (htrees : task.LeadAmong since p q slice.trees)
    (hrest : task.Rivals since p q slice.version rest)
    (hrun : parserReduceSlice language fuel version symbol fragile allowSkipping
      initialVersionCount sliceCount slice rest parser = some (rest', parser')) :
    (∃ added, (∀ position ∈ added, position = some q) ∧
      parser'.Sound task since ((positions ++ added).set slice.version (some q))) ∧
      ∃ same, rest = same ++ rest' ∧ (∀ other ∈ same, other.version = slice.version) ∧
        ∀ other ∈ rest'.head?, other.version ≠ slice.version := by
  rw [parserReduceSlice, bind_eq_some_iff] at hrun
  obtain ⟨address, allocated, hallocate, hrun⟩ := hrun
  obtain ⟨rfl, rfl⟩ := parserAllocate_eq_some_iff.mp hallocate
  rw [bind_eq_some_iff] at hrun
  obtain ⟨⟨taken, parent, others⟩, switched, hswitch, hrun⟩ := hrun
  obtain ⟨r, hfront, hback⟩ :=
    leadAmong_append.mp ((removeTrailingExtras_append slice.trees).symm ▸ htrees.mono h.since_le)
  have hcomposes : task.Composes parser.nextAddress p q slice
      (tsTreeMakeNode parser.nextAddress symbol (tsTreeArrayRemoveTrailingExtras slice.trees).1
      (language.metadata symbol)) := by
    refine ⟨?_, children_setChildren _ _, r, hfront.makeNode task.short, hback⟩
    obtain ⟨own, -, hbuilt⟩ := hfront
    exact isNew_makeNode fun tree htree => (hbuilt.settled tree htree).root
  obtain ⟨⟨scratch, rfl⟩, htaken, hcomposed, same, rfl, hsame, hhead⟩ :=
    switchSlices_eq_some hcomposes (fun other hother hversion =>
    ⟨(hrest other hother hversion).1.mono h.since_le, (hrest other hother hversion).2⟩) hswitch
  simp only at htaken hcomposed hrun
  rw [onStack_bind_eq_some_iff (reads_topState _)] at hrun
  obtain ⟨state, -, hrun⟩ := hrun
  rw [get_bind] at hrun
  obtain ⟨r', hparent, hbehind⟩ := hcomposed.leads
  -- the trees that are pushed, with the parent in front
  have hpushed : ∀ isFragile, task.LeadAmong (parser.nextAddress + 1) p q
      (markParent isFragile state parent :: (tsTreeArrayRemoveTrailingExtras taken.trees).2) :=
      fun isFragile =>
    leadAmong_cons.mpr ⟨r', leads_markParent hparent, hbehind.mono (Nat.le_succ _)⟩
  have hdrop : ∀ isFragile, taken.trees.drop (markParent isFragile state parent).children.length =
      (tsTreeArrayRemoveTrailingExtras taken.trees).2 := fun isFragile => by
    show taken.trees.drop parent.children.length = _
    rw [hcomposed.children, drop_removeTrailingExtras]
  have hsound : TSParser.Sound task (parser.nextAddress + 1) positions
      { parser with nextAddress := parser.nextAddress + 1, scratchTree := scratch } :=
      { h.allocate with }
  rw [← htaken] at hversion
  simp only [hdrop, bind_eq_some_iff] at hrun
  obtain ⟨_, skipped, hskip, _, last, hpush, hrun⟩ := hrun
  obtain ⟨rfl, rfl⟩ := pure_eq_some_iff.mp hrun
  refine ⟨?_, same, rfl, hsame, hhead⟩
  obtain ⟨added, hadded, hskipped⟩ : ∃ added, (∀ position ∈ added, position = some q) ∧
      skipped.Sound task (parser.nextAddress + 1) (positions ++ added) := by
    unfold guarded at hskip
    split at hskip
    · exact hsound.skipParent hversion (hpushed _) hskip
    · obtain ⟨-, rfl⟩ := pure_eq_some_iff.mp hskip
      exact ⟨[], fun _ hposition => absurd hposition List.not_mem_nil, by rwa [List.append_nil]⟩
  have hversion' : (positions ++ added)[taken.version]? = some (some p) := by
    rw [List.getElem?_append_left (List.getElem?_eq_some_iff.mp hversion).1, hversion]
  have hlast := hskipped.pushAll hversion' (hpushed _) hpush
  rw [htaken] at hlast
  exact ⟨added, hadded, hlast.earlier (Nat.le_succ_of_le h.since_le)⟩

/-! ## Reducing a version -/

/-- A reduction from a version at `q` while slices are left: the versions behind the first `count`
end at `q`, but for those of the slices, whose trees lead to `q`. -/
structure ParseTask.Reducing (task : ParseTask α language input) (since count : ℕ) (q : Length)
    (positions : List (Option Length)) (slices : List StackSlice) : Prop where
  /-- The versions are in order. -/
  sorted : slices.Pairwise fun slice slice' => slice.version ≤ slice'.version
  /-- The slices. -/
  slice : ∀ slice ∈ slices, count ≤ slice.version ∧ ∃ p, positions[slice.version]? = some (some p) ∧
    task.LeadAmong since p q slice.trees
  /-- The other versions. -/
  other : ∀ version, count ≤ version → version < positions.length →
    (∀ slice ∈ slices, slice.version ≠ version) → positions[version]? = some (some q)

/-- The slices of a pop, before any is reduced. -/
theorem SlicesAt.reducing {start : Length → Prop} {slices : List StackSlice} {count : ℕ}
    (h : SlicesAt task.metric task.text since start positions count q slices) :
    task.Reducing since count q positions slices where
  sorted := h.sorted
  slice slice hslice := by
    obtain ⟨hle, p, own, hp, -, hown, hbuilt⟩ := h.spans slice hslice
    exact ⟨hle, p, hp, own, hown, hbuilt⟩
  other version hle hlt hother := by
    obtain ⟨slice, hslice, hversion⟩ := h.covers version hle hlt
    exact absurd hversion (hother slice hslice)

/-- The slices that are left when the first version is reduced. -/
theorem ParseTask.Reducing.step {count : ℕ} {added : List (Option Length)} {same : List StackSlice}
    (h : task.Reducing since count q positions (slice :: (same ++ rest)))
    (hadded : ∀ position ∈ added, position = some q)
    (hsame : ∀ other ∈ same, other.version = slice.version)
    (hhead : ∀ other ∈ rest.head?, other.version ≠ slice.version) :
    task.Reducing since count q ((positions ++ added).set slice.version (some q)) rest := by
  obtain ⟨hfirst, hsorted⟩ := List.pairwise_cons.mp h.sorted
  have hrest : rest.Pairwise fun slice slice' => slice.version ≤ slice'.version :=
    (List.pairwise_append.mp hsorted).2.1
  -- the versions of the slices that are left come later
  have hlater : ∀ other ∈ rest, slice.version < other.version := by
    intro other hother
    cases rest with
    | nil => exact absurd hother List.not_mem_nil
    | cons first rest =>
        have hle := hfirst first (List.mem_append_right _ List.mem_cons_self)
        have hlt := Nat.lt_of_le_of_ne hle (hhead first rfl).symm
        rcases List.mem_cons.mp hother with rfl | hmem
        · exact hlt
        · exact Nat.lt_of_lt_of_le hlt ((List.pairwise_cons.mp hrest).1 other hmem)
  have hlt : slice.version < positions.length := by
    obtain ⟨-, p, hp, -⟩ := h.slice slice List.mem_cons_self
    exact (List.getElem?_eq_some_iff.mp hp).1
  refine ⟨hrest, fun other hother => ?_, fun version hle hversion hother => ?_⟩
  · obtain ⟨hle, p, hp, htrees⟩ := h.slice other
      (List.mem_cons_of_mem _ (List.mem_append_right _ hother))
    refine ⟨hle, p, ?_, htrees⟩
    rw [List.getElem?_set_ne (Nat.ne_of_lt (hlater other hother)),
      List.getElem?_append_left (List.getElem?_eq_some_iff.mp hp).1, hp]
  · rw [List.length_set, List.length_append] at hversion
    by_cases hslice : slice.version = version
    · subst hslice
      exact List.getElem?_set_self (by rw [List.length_append]; omega)
    · rw [List.getElem?_set_ne hslice]
      by_cases hold : version < positions.length
      · rw [List.getElem?_append_left hold]
        refine h.other version hle hold fun other hmem => ?_
        rcases List.mem_cons.mp hmem with rfl | hmem
        · exact hslice
        · rcases List.mem_append.mp hmem with hmem | hmem
          · exact fun hversion' => hslice ((hsame other hmem).symm.trans hversion')
          · exact hother other hmem
      · rw [List.getElem?_append_right (Nat.le_of_not_lt hold)]
        have hget := List.getElem?_eq_getElem (l := added)
          (i := version - positions.length) (by omega)
        rw [hget, hadded _ (List.getElem_mem _)]

/-- The versions behind the old ones when no slices are left. -/
theorem ParseTask.Reducing.done {added : List (Option Length)}
    (h : task.Reducing since positions.length q (positions ++ added) []) :
    ∀ position ∈ added, position = some q := by
  intro position hposition
  obtain ⟨index, hlt, rfl⟩ := List.getElem_of_mem hposition
  have hother := h.other (positions.length + index) (Nat.le_add_right _ _)
    (by rw [List.length_append]; omega) fun _ hslice => absurd hslice List.not_mem_nil
  rwa [List.getElem?_append_right (Nat.le_add_right _ _), Nat.add_sub_cancel_left,
    List.getElem?_eq_getElem hlt, Option.some.injEq] at hother

/-- Versions that have come to one position are merged. -/
theorem TSParser.Sound.mergeVersions {added : List (Option Length)} {result : PUnit}
    (h : parser.Sound task since (positions ++ added))
    (hadded : ∀ position ∈ added, position = some q)
    (hrun : parserMergeVersions fuel positions.length parser = some (result, parser')) :
    ∃ added', (∀ position ∈ added', position = some q) ∧ (added ≠ [] → added' ≠ []) ∧
      parser'.Sound task since (positions ++ added') := by
  refine @Triple.loop _ _ _ (fun _ parser' => ∃ added', (∀ position ∈ added', position = some q) ∧
      (added ≠ [] → added' ≠ []) ∧ parser'.Sound task since (positions ++ added')) _
    (fun i parser' => positions.length ≤ i ∧ ∃ added', (∀ position ∈ added', position = some q) ∧
      (added ≠ [] → added' ≠ []) ∧ parser'.Sound task since (positions ++ added')) ?_ fuel
    positions.length parser result parser' ⟨Nat.le_refl _, added, hadded, id, h⟩ hrun
  rintro i middle turn next ⟨hle, added', hadded', hne, hsound⟩ hturn
  rw [onStack_bind_eq_some_iff reads_versionCount] at hturn
  obtain ⟨versionCount, hcount, hturn⟩ := hturn
  obtain rfl := hsound.stack.versionCount hcount
  split at hturn
  · next hlt =>
      rw [bind_eq_some_iff] at hturn
      obtain ⟨merged, last, hmerge, hturn⟩ := hturn
      obtain ⟨rfl, rfl⟩ := pure_eq_some_iff.mp hturn
      rw [List.length_append] at hlt
      have hat : ∀ version, positions.length ≤ version → version <
          positions.length + added'.length → (positions ++ added')[version]? = some (some q) := by
        intro version hle hlt
        rw [List.getElem?_append_right hle, List.getElem?_eq_getElem (by omega),
          hadded' _ (List.getElem_mem _)]
      have hlast : ∃ added'', (∀ position ∈ added'', position = some q) ∧
          (added ≠ [] → added'' ≠ []) ∧ last.Sound task since (positions ++ added'') := by
        refine @Triple.loop _ _ _ (fun _ last => ∃ added'',
            (∀ position ∈ added'', position = some q) ∧ (added ≠ [] → added'' ≠ []) ∧
            last.Sound task since (positions ++ added'')) _
            (fun j last => positions.length ≤ j ∧ last.Sound task since (positions ++ added')) ?_
            fuel positions.length middle merged last ⟨Nat.le_refl _, hsound⟩ hmerge
        rintro j middle turn next ⟨hleJ, hsound⟩ hturn
        split at hturn
        · next hltJ =>
            rw [bind_eq_some_iff] at hturn
            obtain ⟨merged, last, hmerge, hturn⟩ := hturn
            obtain ⟨rfl, rfl⟩ := pure_eq_some_iff.mp hturn
            obtain ⟨stack, hmerging, rfl⟩ := onStack_eq_some_iff.mp hmerge
            have hmerged := tsStackMerge_stands hsound.stack (hat j hleJ (by omega))
              (hat i hle hlt) hmerging
            cases merged with
            | false =>
                obtain rfl : stack = middle.stack := hmerged
                exact ⟨Nat.le_succ_of_le hleJ, hsound⟩
            | true =>
                obtain ⟨-, hstands⟩ := hmerged
                rw [List.eraseIdx_append_of_length_le hle] at hstands
                refine ⟨added'.eraseIdx (i - positions.length), fun position hposition =>
                  hadded' position (List.mem_of_mem_eraseIdx hposition), fun _ hnil => ?_,
                  hsound.withStack hstands⟩
                -- the version that stays is one of them
                have hlength := congrArg List.length hnil
                rw [List.length_eraseIdx_of_lt (by omega), List.length_nil] at hlength
                omega
        · obtain ⟨rfl, rfl⟩ := pure_eq_some_iff.mp hturn
          exact ⟨added', hadded', hne, hsound⟩
      refine ⟨?_, hlast⟩
      split <;> omega
  · obtain ⟨rfl, rfl⟩ := pure_eq_some_iff.mp hturn
    exact ⟨added', hadded', hne, hsound⟩

/-- What is left behind a reduction from a version at `q`: when it was stopped at an error, the
trees up to the error on a version of their own; otherwise further versions at `q`, of which the
first slice has one. -/
def ParseTask.Reduced (task : ParseTask α language input) (next : ℕ) (q : Length)
    (positions positions' : List (Option Length)) (reduction : StackPopResult) : Prop :=
  if reduction.stoppedAtError then ∃ slice p, reduction.slices = [slice] ∧ slice.version =
    positions.length ∧ positions' = positions ++ [some p] ∧ task.LeadAmong next p q slice.trees
  else ∃ added, (∀ position ∈ added, position = some q) ∧ positions' = positions ++ added ∧
    ∀ slice ∈ reduction.slices.head?, slice.version = positions.length ∧ added ≠ []

/-- The slices of one version that are rivals. -/
theorem ParseTask.Reducing.rivals {count childCount : ℕ}
    (h : task.Reducing since count q positions (slice :: rest))
    (hversion : positions[slice.version]? = some (some p))
    (hcount : ∀ other ∈ rest, (other.trees.countP fun tree => !tree.label.extra) = childCount)
    (hpos : rest ≠ [] → childCount ≠ 0) : task.Rivals since p q slice.version rest := by
  intro other hother hsame
  obtain ⟨-, p', hp', htrees⟩ := h.slice other (List.mem_cons_of_mem _ hother)
  rw [hsame, hversion, Option.some.injEq, Option.some.injEq] at hp'
  subst hp'
  refine ⟨htrees, removeTrailingExtras_ne_nil ?_⟩
  rw [hcount other hother]
  exact hpos (List.ne_nil_of_mem hother)

/-- **`parser__reduce`** leaves the versions where they are, and those that it adds end where the
version does. -/
theorem TSParser.Sound.reduce {count : ℕ} {reduction : StackPopResult}
    (h : parser.Sound task since positions) (hversion : positions[version]? = some (some q))
    (hrun : parserReduce language fuel version symbol count fragile allowSkipping parser =
      some (reduction, parser')) :
    ∃ positions', parser'.Sound task since positions' ∧
      task.Reduced parser'.nextAddress q positions positions' reduction := by
  rw [parserReduce, onStack_bind_eq_some_iff reads_versionCount] at hrun
  obtain ⟨initialVersionCount, hcount, hrun⟩ := hrun
  obtain rfl := h.stack.versionCount hcount
  rw [bind_eq_some_iff] at hrun
  obtain ⟨pop, popped, hpop, hrun⟩ := hrun
  obtain ⟨stack, hpopping, rfl⟩ := onStack_eq_some_iff.mp hpop
  obtain ⟨⟨added, hstands, hslices⟩, hcounts⟩ := tsStackPopCount_stands h.stack hversion hpopping
  have hsound := h.now.withStack hstands
  cases hstopped : pop.stoppedAtError with
  | true =>
      rw [hstopped, if_pos rfl] at hrun hcounts
      obtain ⟨rfl, rfl⟩ := pure_eq_some_iff.mp hrun
      obtain ⟨slice, hslice⟩ := hcounts
      rw [hslice] at hslices
      obtain ⟨hfirst, p, own, rfl, -, hown, hbuilt⟩ := hslices.singleton
      refine ⟨_, hsound.earlier h.since_le, ?_⟩
      rw [ParseTask.Reduced, hstopped, if_pos rfl]
      exact ⟨slice, p, hslice, hfirst, rfl, own, hown, hbuilt⟩
  | false =>
      rw [hstopped, if_neg Bool.false_ne_true] at hrun hcounts
      rw [bind_eq_some_iff] at hrun
      obtain ⟨_, reduced, hreduce, hrun⟩ := hrun
      -- a version has further slices only when trees are popped
      have hpos : ∀ slice rest, pop.slices = slice :: rest → rest ≠ [] → count ≠ 0 := by
        rintro slice rest hsplit hne rfl
        obtain ⟨slice', hslice'⟩ := tsStackPopCount_zero hpopping
        rw [hslice', List.cons.injEq] at hsplit
        exact hne hsplit.2.symm
      have hreduced : ∃ positions', reduced.Sound task parser.nextAddress positions' ∧
          (∃ added', positions' = positions ++ added' ∧ added.length ≤ added'.length) ∧
          task.Reducing parser.nextAddress positions.length q positions' [] := by
        refine @Triple.loop _ _ _ (fun _ reduced => ∃ positions',
            reduced.Sound task parser.nextAddress positions' ∧
            (∃ added', positions' = positions ++ added' ∧ added.length ≤ added'.length) ∧
            task.Reducing parser.nextAddress positions.length q positions' []) _
            (fun slices reduced => ∃ positions', reduced.Sound task parser.nextAddress positions' ∧
            (∃ added', positions' = positions ++ added' ∧ added.length ≤ added'.length) ∧
            task.Reducing parser.nextAddress positions.length q positions' slices ∧ ∃ gone,
            pop.slices = gone ++ slices) ?_ fuel pop.slices _ _ reduced
            ⟨_, hsound, ⟨added, rfl, Nat.le_refl _⟩, hslices.reducing, [], rfl⟩ hreduce
        rintro slices middle turn next ⟨_, hsound, ⟨added', rfl, hle⟩, hreducing, gone, hgone⟩ hturn
        cases slices with
        | nil =>
            obtain ⟨rfl, rfl⟩ := pure_eq_some_iff.mp hturn
            exact ⟨_, hsound, ⟨added', rfl, hle⟩, hreducing⟩
        | cons slice rest =>
            rw [bind_eq_some_iff] at hturn
            obtain ⟨rest', last, hslice, hturn⟩ := hturn
            obtain ⟨rfl, rfl⟩ := pure_eq_some_iff.mp hturn
            obtain ⟨hfirst, p, hp, htrees⟩ := hreducing.slice slice List.mem_cons_self
            have hrivals : task.Rivals parser.nextAddress p q slice.version rest := by
              refine hreducing.rivals hp (fun other hother => hcounts other ?_) fun hne => ?_
              · rw [hgone]
                exact List.mem_append_right _ (List.mem_cons_of_mem _ hother)
              · cases gone with
                | nil => exact hpos slice rest hgone hne
                | cons first gone => exact hpos first (gone ++ slice :: rest) hgone (by simp)
            obtain ⟨⟨further, hfurther, hlast⟩, same, rfl, hsame, hhead⟩ :=
              hsound.reduceSlice hp htrees hrivals hslice
            refine ⟨_, hlast, ⟨(added' ++ further).set (slice.version - positions.length)
              (some q), ?_, ?_⟩, hreducing.step hfurther hsame hhead, gone ++ slice :: same, by
              rw [hgone]; simp⟩
            · rw [List.append_assoc, List.set_append_right _ _ hfirst]
            · rw [List.length_set, List.length_append]
              omega
      obtain ⟨_, hreduced, ⟨added', rfl, hle⟩, hdone⟩ := hreduced
      rw [bind_eq_some_iff] at hrun
      obtain ⟨_, merged, hmerge, hrun⟩ := hrun
      obtain ⟨rfl, rfl⟩ := pure_eq_some_iff.mp hrun
      obtain ⟨added'', hadded'', hne, hmerged⟩ := hreduced.mergeVersions hdone.done hmerge
      refine ⟨_, hmerged.earlier h.since_le, ?_⟩
      rw [ParseTask.Reduced, hstopped, if_neg Bool.false_ne_true]
      refine ⟨added'', hadded'', rfl, fun slice hslice => ?_⟩
      obtain ⟨rest, hrest⟩ := List.head?_eq_some_iff.mp hslice
      rw [hrest] at hslices
      refine ⟨hslices.version_head, hne ?_⟩
      obtain ⟨hfirst, p, own, hp, -⟩ := hslices.spans slice List.mem_cons_self
      have hlt := (List.getElem?_eq_some_iff.mp hp).1
      rw [List.length_append] at hlt
      exact List.ne_nil_of_length_pos (by omega)

end Versions

end TreeSitterTextStorage
