import Mathlib.Logic.Function.Basic
import TreeSitterTextStorage.Runtime.Linking
import TreeSitterTextStorage.Runtime.Stack

/-! # The parse stack spans the text

The nodes of a parse stack stand at positions of the text, and every link leads over a tree that
spans what lies between the positions of its two nodes. Pushing a tree that starts where the version
ends keeps this, and so does merging, because two versions merge only with as many characters in
front of them, and links are merged only over trees with as many bytes. Nodes that only halted
versions reach may stand nowhere: a parse that has accepted at the end of the text pushes the end
token once more. -/

namespace TreeSitterTextStorage

open Program

/-! ## Reading the stack -/

section Reading

variable {β : Type} {stack stack' : Stack} {result : β}

theorem stackNode_eq_some_iff {address : ℕ} {node : StackNode} :
    stackNode address stack = some (node, stack') ↔ stack.nodes[address]? = some node ∧
      stack = stack' := by
  rw [stackNode, get_bind, ofOption_eq_some_iff]

theorem stackHead_eq_some_iff {version : ℕ} {head : StackHead} :
    stackHead version stack = some (head, stack') ↔ stack.heads[version]? = some head ∧
      stack = stack' := by
  rw [stackHead, get_bind, ofOption_eq_some_iff]

/-- What an operation does that starts with reading a node. -/
theorem stackNode_bind_eq_some_iff {address : ℕ} {rest : StackNode → Program Stack β} :
    (stackNode address >>= rest) stack = some (result, stack') ↔
      ∃ node, stack.nodes[address]? = some node ∧ rest node stack = some (result, stack') := by
  simp only [bind_eq_some_iff, stackNode_eq_some_iff]
  constructor
  · rintro ⟨node, _, ⟨hnode, rfl⟩, hrest⟩
    exact ⟨node, hnode, hrest⟩
  · rintro ⟨node, hnode, hrest⟩
    exact ⟨node, stack, ⟨hnode, rfl⟩, hrest⟩

/-- What an operation does that starts with reading a version. -/
theorem stackHead_bind_eq_some_iff {version : ℕ} {rest : StackHead → Program Stack β} :
    (stackHead version >>= rest) stack = some (result, stack') ↔
      ∃ head, stack.heads[version]? = some head ∧ rest head stack = some (result, stack') := by
  simp only [bind_eq_some_iff, stackHead_eq_some_iff]
  constructor
  · rintro ⟨head, _, ⟨hhead, rfl⟩, hrest⟩
    exact ⟨head, hhead, hrest⟩
  · rintro ⟨head, hhead, hrest⟩
    exact ⟨head, stack, ⟨hhead, rfl⟩, hrest⟩

end Reading

/-! ## Stacks over a text -/

section Sound

variable {α : Type} (metric : Metric α) (text : List α) (next : ℕ)

/-- What a link carries spans the text between the positions of its nodes. -/
def LinkSpans (p q : Length) : Option SyntaxTree → Prop
  | none => Stretch metric text p q []
  | some tree => ∃ own, Stretch metric text p q own ∧ Built metric next tree own

/-- A link that is pending carries a tree that can be broken down. -/
def StackLink.CanBreakDown (link : StackLink) : Prop :=
  link.isPending = true → ∀ tree ∈ link.tree, tree.children ≠ []

/-- A node that stands at a position of the text, when `place` says where other nodes stand. -/
structure StackNode.StandsAt (place : ℕ → Option Length) (p : Length)
    (node : StackNode) : Prop where
  /-- This is the position that the node has stored. -/
  position : node.position = p
  /-- This is a position of the text. -/
  stop : Stretch metric text p p []
  /-- The links of the node lead to nodes that stand in front of it. -/
  link : ∀ link ∈ node.links, link.CanBreakDown ∧
    ∃ p', place link.node = some p' ∧ LinkSpans metric text next p' p link.tree

/-- A parse stack over a text, some of whose nodes have places. -/
structure Stack.Sound (place : ℕ → Option Length) (stack : Stack) : Prop where
  /-- The stack starts at the start of the text. -/
  base : place stack.baseNode = some Length.zero
  /-- Nodes stand at their places. -/
  node : ∀ address p, place address = some p →
    ∃ node, stack.nodes[address]? = some node ∧ node.StandsAt metric text next place p
  /-- Every version ends at a node. -/
  allocated : ∀ head ∈ stack.heads, head.node < stack.nodes.length
  /-- Every version that is not given up ends at a node with a place. -/
  head : ∀ head ∈ stack.heads, head.isHalted = false → ∃ p, place head.node = some p

/-- The places where the versions end. -/
def Stack.positions (stack : Stack) (place : ℕ → Option Length) : List (Option Length) :=
  stack.heads.map fun head => place head.node

/-- The versions of a parse stack over a text end at positions. -/
def Stack.Stands (stack : Stack) (positions : List (Option Length)) : Prop :=
  ∃ place, stack.Sound metric text next place ∧ stack.positions place = positions

variable {metric text next} {next' : ℕ} {p p' q : Length} {tree tree' : Option SyntaxTree}
  {place : ℕ → Option Length} {positions : List (Option Length)} {stack : Stack}

theorem LinkSpans.mono (h : LinkSpans metric text next p q tree) (hle : next ≤ next') :
    LinkSpans metric text next' p q tree := by
  cases tree with
  | none => exact h
  | some tree =>
      obtain ⟨own, hown, hbuilt⟩ := h
      exact ⟨own, hown, hbuilt.mono hle⟩

theorem Stack.Sound.mono (h : stack.Sound metric text next place) (hle : next ≤ next') :
    stack.Sound metric text next' place :=
  { h with
    node := fun address p hp => by
      obtain ⟨node, hnode, hstands⟩ := h.node address p hp
      refine ⟨node, hnode, hstands.position, hstands.stop, fun link hlink => ?_⟩
      obtain ⟨hbreak, p', hp', hspans⟩ := hstands.link link hlink
      exact ⟨hbreak, p', hp', hspans.mono hle⟩ }

theorem Stack.Stands.mono (h : stack.Stands metric text next positions) (hle : next ≤ next') :
    stack.Stands metric text next' positions := by
  obtain ⟨place, hsound, hpositions⟩ := h
  exact ⟨place, hsound.mono hle, hpositions⟩

/-- A node that is read stands at its place. -/
theorem Stack.Sound.stands {address : ℕ} {node : StackNode} (h : stack.Sound metric text next place)
    (hp : place address = some p) (hnode : stack.nodes[address]? = some node) :
    node.StandsAt metric text next place p := by
  obtain ⟨node', hnode', hstands⟩ := h.node address p hp
  rw [hnode, Option.some.injEq] at hnode'
  exact hnode' ▸ hstands

@[simp] theorem Stack.length_positions (stack : Stack) (place : ℕ → Option Length) :
    (stack.positions place).length = stack.heads.length := List.length_map _

/-- There are as many positions as versions. -/
theorem Stack.Stands.length_eq (h : stack.Stands metric text next positions) :
    positions.length = stack.heads.length := by
  obtain ⟨place, -, rfl⟩ := h
  exact stack.length_positions place

theorem Stack.getElem?_positions (stack : Stack) (place : ℕ → Option Length) (version : ℕ) :
    (stack.positions place)[version]? = (stack.heads[version]?).map fun head => place head.node :=
  List.getElem?_map

/-- The place of a version is the place of its node. -/
theorem Stack.positions_eq_some_iff {version : ℕ} :
    (stack.positions place)[version]? = some (some p) ↔
      ∃ head, stack.heads[version]? = some head ∧ place head.node = some p := by
  rw [Stack.getElem?_positions, Option.map_eq_some_iff]

/-- **A version that is not given up** ends at a position of the text. -/
theorem Stack.Stands.exists_position {version : ℕ} {head : StackHead}
    (h : stack.Stands metric text next positions) (hhead : stack.heads[version]? = some head)
    (hgoing : head.isHalted = false) : ∃ p, positions[version]? = some (some p) := by
  obtain ⟨place, hsound, rfl⟩ := h
  obtain ⟨p, hp⟩ := hsound.head head (List.mem_of_getElem? hhead) hgoing
  exact ⟨p, Stack.positions_eq_some_iff.mpr ⟨head, hhead, hp⟩⟩

/-- What is read off a version that has a position. -/
theorem Stack.Stands.top {version : ℕ} {head : StackHead} {node : StackNode}
    (h : stack.Stands metric text next positions) (hversion : positions[version]? = some (some p))
    (hhead : stack.heads[version]? = some head) (hnode : stack.nodes[head.node]? = some node) :
    node.position = p ∧ Stretch metric text p p [] := by
  obtain ⟨place, hsound, rfl⟩ := h
  rw [Stack.getElem?_positions, hhead, Option.map_some, Option.some.injEq] at hversion
  have hstands := hsound.stands hversion hnode
  exact ⟨hstands.position, hstands.stop⟩

/-- A stack that has just been made. -/
theorem stands_tsStackNew : tsStackNew.Stands metric text next [some Length.zero] := by
  refine ⟨fun address => if address = 0 then some Length.zero else none,
    ⟨rfl, fun address p hp => ?_, fun head hhead => ?_, fun head hhead _ => ?_⟩, rfl⟩
  · split at hp
    · next haddress =>
        rw [Option.some.injEq] at hp
        subst haddress hp
        exact ⟨_, rfl, rfl, Stretch.zero text, fun link hlink => absurd hlink List.not_mem_nil⟩
    · exact absurd hp (Option.some_ne_none p).symm
  · rw [List.mem_singleton.mp hhead]
    exact Nat.zero_lt_one
  · rw [List.mem_singleton.mp hhead]
    exact ⟨Length.zero, rfl⟩

/-- **Links over the same tree** that lead to one node come from one position. -/
theorem LinkSpans.start_unique (h : LinkSpans metric text next p q tree)
    (h' : LinkSpans metric text next p' q tree') (hsame : sameTree tree tree' = true) : p = p' := by
  cases tree with
  | none =>
      cases tree' with
      | none => exact (Stretch.start_unique h h' rfl).1
      | some tree' => exact absurd hsame Bool.false_ne_true
  | some tree =>
      cases tree' with
      | none => exact absurd hsame Bool.false_ne_true
      | some tree' =>
          obtain ⟨own, hown, hbuilt⟩ := h
          obtain ⟨own', hown', hbuilt'⟩ := h'
          refine (hown.start_unique hown' ?_).1
          rw [sameTree, Bool.or_eq_true, decide_eq_true_iff] at hsame
          rcases hsame with hlabel | htokens
          · rw [← hbuilt.spans.bytes_eq, ← hbuilt'.spans.bytes_eq, hlabel]
          · exact bytesOf_eq_of_tokensEq htokens hbuilt.spans hbuilt'.spans

/-- What a link carries ends at a position. -/
theorem LinkSpans.stop (h : LinkSpans metric text next p q tree) : Stretch metric text q q [] := by
  cases tree with
  | none => exact Stretch.stop h
  | some tree =>
      obtain ⟨own, hown, -⟩ := h
      exact hown.stop

/-- Where a version ends that is pushed over. -/
theorem LinkSpans.position_eq (hlt : metric.bytesOf text < 2 ^ 32)
    (h : LinkSpans metric text next p q tree) :
    (tree.elim p fun tree => lengthAdd p tree.totalSize) = q := by
  cases tree with
  | none =>
      obtain ⟨front, back, -, rfl, rfl⟩ := h
      rw [Option.elim_none, List.append_nil]
  | some tree =>
      obtain ⟨own, hown, hbuilt⟩ := h
      rw [Option.elim_some, hbuilt.spans.totalSize_eq (Nat.lt_of_le_of_lt hown.bytesOf_le hlt),
        hown.lengthAdd_eq hlt]

/-! ## Merging links -/

/-- A node with a further link. -/
theorem Stack.Sound.addLink {self : ℕ} {node : StackNode} {link : StackLink}
    (h : stack.Sound metric text next place) (hself : place self = some q)
    (hnode : stack.nodes[self]? = some node) (hp : place link.node = some p)
    (hlink : LinkSpans metric text next p q link.tree) (hbreak : link.CanBreakDown) :
    Stack.Sound metric text next place
      { stack with nodes := stack.nodes.set self { node with links := node.links ++ [link] } } := by
  refine ⟨h.base, fun address p' hp' => ?_, fun head hhead => ?_, h.head⟩
  swap
  · show head.node < (stack.nodes.set self _).length
    rw [List.length_set]
    exact h.allocated head hhead
  obtain ⟨node', hnode', hstands⟩ := h.node address p' hp'
  show ∃ node', (stack.nodes.set self { node with links := node.links ++ [link] })[address]? =
    some node' ∧ _
  -- only the node itself has changed, and only by the link
  rw [List.getElem?_set]
  split
  · next haddress =>
      subst haddress
      rw [hself, Option.some.injEq] at hp'
      rw [hnode, Option.some.injEq] at hnode'
      subst hp' hnode'
      refine ⟨_, if_pos (List.getElem?_eq_some_iff.mp hnode).1, hstands.position, hstands.stop,
        fun link' hlink' => ?_⟩
      rcases List.mem_append.mp hlink' with hmem | hmem
      · exact hstands.link link' hmem
      · rw [List.mem_singleton.mp hmem]
        exact ⟨hbreak, p, hp, hlink⟩
  · exact ⟨node', hnode', hstands⟩

/-- The link below which a link is merged carries the same tree. -/
theorem findLink_eq_some {nodes : List StackNode} {link : StackLink} {links : List StackLink}
    {existing : ℕ} (h : findLink nodes link links = some (some existing)) :
    ∃ other ∈ links, other.node = existing ∧ sameTree other.tree link.tree = true := by
  induction links with
  | nil => exact absurd h (Option.some_ne_none _).symm
  | cons other rest ih =>
      rw [findLink] at h
      have hrest : findLink nodes link rest = some (some existing) →
          ∃ other' ∈ other :: rest, other'.node = existing ∧
            sameTree other'.tree link.tree = true := by
        intro hrest
        obtain ⟨other', hmem, hother⟩ := ih hrest
        exact ⟨other', List.mem_cons_of_mem other hmem, hother⟩
      split at h
      · next hsame =>
          split at h
          · exact absurd (Option.some.inj h) (Option.some_ne_none _).symm
          · split at h
            · rw [Option.some.injEq, Option.some.injEq] at h
              exact ⟨other, List.mem_cons_self, h, hsame⟩
            · exact hrest h
      · exact hrest h

/-- A stack with places and with versions. -/
def Keeps (metric : Metric α) (text : List α) (next : ℕ) (place : ℕ → Option Length)
    (heads : List StackHead) (stack : Stack) : Prop :=
  stack.Sound metric text next place ∧ stack.heads = heads

/-- **`stack_node_add_link` keeps the stack sound**, however deep it merges. -/
theorem stackNodeAddLink_keeps {heads : List StackHead} {fuel self : ℕ} {link : StackLink}
    (hself : place self = some q) (hp : place link.node = some p)
    (hlink : LinkSpans metric text next p q link.tree) (hbreak : link.CanBreakDown) :
    Triple (Keeps metric text next place heads) (stackNodeAddLink fuel self link)
      fun _ => Keeps metric text next place heads := by
  induction fuel generalizing self link p q with
  | zero => exact Triple.trap
  | succ fuel ih =>
      rintro stack result final ⟨hsound, hheads⟩ hrun
      rw [stackNodeAddLink, stackNode_bind_eq_some_iff] at hrun
      obtain ⟨node, hnode, hrun⟩ := hrun
      rw [get_bind] at hrun
      have hstands := hsound.stands hself hnode
      rcases hfind : findLink stack.nodes link node.links with _ | _ | existing
      · rw [hfind] at hrun
        -- no link leads to where the new one does; it is added as long as there is room
        by_cases hroom : node.links.length < maxLinkCount
        · simp only [if_pos hroom, set_eq_some_iff] at hrun
          subst hrun
          exact ⟨hsound.addLink hself hnode hp hlink hbreak, hheads⟩
        · simp only [if_neg hroom, pure_eq_some_iff] at hrun
          obtain ⟨-, rfl⟩ := hrun
          exact ⟨hsound, hheads⟩
      · -- the link is there already
        rw [hfind] at hrun
        simp only [pure_eq_some_iff] at hrun
        obtain ⟨-, rfl⟩ := hrun
        exact ⟨hsound, hheads⟩
      · -- the links below the new link go below the existing one, which starts where it does
        obtain ⟨other, hother, rfl, hsame⟩ := findLink_eq_some hfind
        obtain ⟨-, p', hp', hspans⟩ := hstands.link other hother
        obtain rfl := hspans.start_unique hlink hsame
        rw [hfind] at hrun
        refine @Triple.forEach _ _ _ _ (fun _ => Keeps metric text next place heads) _
          (fun index _ _ => ?_) () stack result final ⟨hsound, hheads⟩ hrun
        rintro stack result' final' ⟨hsound, hheads⟩ hstep
        rw [stackNode_bind_eq_some_iff] at hstep
        obtain ⟨below, hbelow, hstep⟩ := hstep
        cases hlinks : below.links[index]? with
        | none =>
            rw [hlinks] at hstep
            simp only [pure_eq_some_iff] at hstep
            obtain ⟨-, rfl⟩ := hstep
            exact ⟨hsound, hheads⟩
        | some deeper =>
            rw [hlinks] at hstep
            obtain ⟨hbreak', p'', hp'', hdeeper⟩ :=
              (hsound.stands hp hbelow).link deeper (List.mem_of_getElem? hlinks)
            exact ih hp' hp'' hdeeper hbreak' stack result' final' ⟨hsound, hheads⟩ hstep

/-! ## Operations on versions -/

/-- Versions may change as long as they end at nodes, with places where they go on. -/
theorem Stack.Sound.withHeads {heads : List StackHead} (h : stack.Sound metric text next place)
    (hheads : ∀ head ∈ heads, head.node < stack.nodes.length ∧
      (head.isHalted = false → ∃ p, place head.node = some p)) :
    Stack.Sound metric text next place { stack with heads := heads } where
  base := h.base
  node := h.node
  allocated head hhead := (hheads head hhead).1
  head head hhead := (hheads head hhead).2

/-- A node with a place is allocated. -/
theorem Stack.Sound.lt_of_place {address : ℕ} (h : stack.Sound metric text next place)
    (hp : place address = some p) : address < stack.nodes.length := by
  obtain ⟨node, hnode, -⟩ := h.node address p hp
  exact (List.getElem?_eq_some_iff.mp hnode).1

/-- A new node without a place. -/
theorem Stack.Sound.newNode {node : StackNode} (h : stack.Sound metric text next place) :
    Stack.Sound metric text next place { stack with nodes := stack.nodes ++ [node] } := by
  refine ⟨h.base, fun address p hp => ?_, fun head hhead => ?_, h.head⟩
  · obtain ⟨node', hnode', hstands⟩ := h.node address p hp
    exact ⟨node', (List.getElem?_append_left (h.lt_of_place hp)).trans hnode', hstands⟩
  · show head.node < (stack.nodes ++ [node]).length
    rw [List.length_append]
    exact Nat.lt_add_right _ (h.allocated head hhead)

/-- **A new node** with a place. -/
theorem Stack.Sound.placeNode {node : StackNode} (h : stack.Sound metric text next place)
    (hnew : node.StandsAt metric text next place q) :
    Stack.Sound metric text next (Function.update place stack.nodes.length (some q))
      { stack with nodes := stack.nodes ++ [node] } := by
  have hkept : ∀ address p, place address = some p →
      Function.update place stack.nodes.length (some q) address = some p := by
    intro address p hp
    rw [Function.update_of_ne (Nat.ne_of_lt (h.lt_of_place hp)), hp]
  have hmono : ∀ (p : Length) (node' : StackNode), node'.StandsAt metric text next place p →
      node'.StandsAt metric text next (Function.update place stack.nodes.length (some q)) p := by
    intro p node' hstands
    refine ⟨hstands.position, hstands.stop, fun link hlink => ?_⟩
    obtain ⟨hbreak, p', hp', hspans⟩ := hstands.link link hlink
    exact ⟨hbreak, p', hkept _ _ hp', hspans⟩
  obtain ⟨hbase, hnode, hallocated, hhead⟩ := @Stack.Sound.newNode _ _ _ _ _ _ node h
  refine ⟨hkept _ _ hbase, fun address p hp => ?_, hallocated, fun head hmem hgoing => ?_⟩
  · by_cases haddress : address = stack.nodes.length
    · subst haddress
      rw [Function.update_self, Option.some.injEq] at hp
      subst hp
      exact ⟨node, List.getElem?_concat_length, hmono _ _ hnew⟩
    · rw [Function.update_of_ne haddress] at hp
      obtain ⟨node', hnode', hstands⟩ := hnode address p hp
      exact ⟨node', hnode', hmono _ _ hstands⟩
  · obtain ⟨p, hp⟩ := hhead head hmem hgoing
    exact ⟨p, hkept _ _ hp⟩

/-- What `ts_stack_push` does. -/
theorem tsStackPush_eq_some {version : ℕ} {isPending : Bool} {state : UInt16} {result : Unit}
    {stack' : Stack} (hrun : tsStackPush version tree isPending state stack =
    some (result, stack')) :
    ∃ (head : StackHead) (below node : StackNode) (pushCount : ℕ),
      stack.heads[version]? = some head ∧ stack.nodes[head.node]? = some below ∧
      node.position = (tree.elim below.position fun tree =>
        lengthAdd below.position tree.totalSize) ∧
      node.links = [⟨head.node, tree, if state = errorState then head.pushCount else 0,
        isPending⟩] ∧
      stack' = { stack with
        nodes := stack.nodes ++ [node]
        heads := stack.heads.set version
          { head with node := stack.nodes.length, pushCount := pushCount } } := by
  rw [tsStackPush, stackHead_bind_eq_some_iff] at hrun
  obtain ⟨head, hhead, hrun⟩ := hrun
  rw [stackNode_bind_eq_some_iff] at hrun
  obtain ⟨below, hbelow, hrun⟩ := hrun
  rw [stackNodeNew] at hrun
  simp only [bind_eq_some_iff, modify_eq_some_iff, stackNode_eq_some_iff, get_bind, set_bind,
    pure_eq_some_iff] at hrun
  obtain ⟨_, _, ⟨below', _, ⟨hbelow', rfl⟩, rfl, rfl⟩, rfl⟩ := hrun
  exact ⟨head, below, _, _, hhead, hbelow, rfl, rfl, rfl⟩

/-- **`ts_stack_push` keeps the stack sound** when the tree starts where the version ends, and moves
the version to the end of the tree. -/
theorem tsStackPush_stands {version : ℕ} {isPending : Bool} {state : UInt16} {result : Unit}
    {stack' : Stack} (hlt : metric.bytesOf text < 2 ^ 32)
    (h : stack.Stands metric text next positions) (hversion : positions[version]? = some (some p))
    (htree : LinkSpans metric text next p q tree)
    (hbreak : isPending = true → ∀ tree' ∈ tree, tree'.children ≠ [])
    (hrun : tsStackPush version tree isPending state stack = some (result, stack')) :
    stack'.Stands metric text next (positions.set version (some q)) := by
  obtain ⟨place, hsound, rfl⟩ := h
  obtain ⟨head, below, node, pushCount, hhead, hbelow, hposition, hlinks, rfl⟩ :=
    tsStackPush_eq_some hrun
  rw [Stack.getElem?_positions, hhead, Option.map_some, Option.some.injEq] at hversion
  rw [(hsound.stands hversion hbelow).position, htree.position_eq hlt] at hposition
  -- the new node has one link, to where the version has ended
  have hstands : node.StandsAt metric text next place q := by
    refine ⟨hposition, htree.stop, fun link hlink => ?_⟩
    rw [hlinks, List.mem_singleton] at hlink
    subst hlink
    exact ⟨hbreak, p, hversion, htree⟩
  refine ⟨_, (hsound.placeNode hstands).withHeads fun head' hhead' => ?_, ?_⟩
  · rcases List.mem_or_eq_of_mem_set hhead' with hmem | rfl
    · exact ⟨(hsound.placeNode hstands).allocated head' hmem,
        (hsound.placeNode hstands).head head' hmem⟩
    · refine ⟨?_, fun _ => ⟨q, Function.update_self _ _ _⟩⟩
      show stack.nodes.length < (stack.nodes ++ [node]).length
      rw [List.length_append]
      exact Nat.lt_succ_self _
  · show (stack.heads.set version _).map _ = _
    rw [List.map_set, Function.update_self, Stack.positions]
    refine congrArg (fun ps => List.set ps version (some q))
      (List.map_congr_left fun head' hmem => ?_)
    exact Function.update_of_ne (Nat.ne_of_lt (hsound.allocated head' hmem)) _ _

/-- Pushing on a version that is given up. -/
theorem tsStackPush_halted {version : ℕ} {isPending : Bool} {state : UInt16} {result : Unit}
    {stack' : Stack} {head : StackHead} (h : stack.Stands metric text next positions)
    (hhead : stack.heads[version]? = some head) (hhalted : head.isHalted = true)
    (hrun : tsStackPush version tree isPending state stack = some (result, stack')) :
    (∃ positions', stack'.Stands metric text next positions') ∧
      stack'.heads.map StackHead.isHalted = stack.heads.map StackHead.isHalted := by
  obtain ⟨place, hsound, rfl⟩ := h
  obtain ⟨head', below, node, pushCount, hhead', hbelow, -, -, rfl⟩ := tsStackPush_eq_some hrun
  rw [hhead, Option.some.injEq] at hhead'
  subst hhead'
  have hnew := @Stack.Sound.newNode _ _ _ _ _ _ node hsound
  refine ⟨⟨_, place, hnew.withHeads fun head' hhead' => ?_, rfl⟩, ?_⟩
  · rcases List.mem_or_eq_of_mem_set hhead' with hmem | rfl
    · exact ⟨hnew.allocated head' hmem, hnew.head head' hmem⟩
    · refine ⟨?_, fun hgoing => absurd (hgoing.symm.trans hhalted) Bool.false_ne_true⟩
      show stack.nodes.length < (stack.nodes ++ [node]).length
      rw [List.length_append]
      exact Nat.lt_succ_self _
  · obtain ⟨hlt, hget⟩ := List.getElem?_eq_some_iff.mp hhead
    show (stack.heads.set version _).map _ = _
    rw [List.map_set]
    show (stack.heads.map StackHead.isHalted).set version head.isHalted = _
    have hmap : (stack.heads.map StackHead.isHalted)[version]? = some head.isHalted := by
      rw [List.getElem?_map, hhead, Option.map_some]
    obtain ⟨hlt', hget'⟩ := List.getElem?_eq_some_iff.mp hmap
    rw [← hget', List.set_getElem_self]

section Versions

variable {version : ℕ} (h : stack.Stands metric text next positions)
include h

/-- Removing a version. -/
theorem tsStackRemoveVersion_stands {result : Unit} {stack' : Stack}
    (hrun : tsStackRemoveVersion version stack = some (result, stack')) :
    stack'.Stands metric text next (positions.eraseIdx version) := by
  obtain ⟨place, hsound, rfl⟩ := h
  rw [tsStackRemoveVersion, stackHead_bind_eq_some_iff] at hrun
  obtain ⟨head, hhead, hrun⟩ := hrun
  rw [modify_eq_some_iff] at hrun
  subst hrun
  refine ⟨place, hsound.withHeads fun head' hhead' => ?_, ?_⟩
  · have hmem := List.mem_of_mem_eraseIdx hhead'
    exact ⟨hsound.allocated head' hmem, hsound.head head' hmem⟩
  · exact (List.eraseIdx_map _ _ _).symm

/-- Changing anything but the node of a version, which is not taken up again. -/
theorem modifyHead_stands {f : StackHead → StackHead} (hnode : ∀ head, (f head).node = head.node)
    (hhalted : ∀ head, (f head).isHalted = false → head.isHalted = false) {result : Unit}
    {stack' : Stack} (hrun : modifyHead version f stack = some (result, stack')) :
    stack'.Stands metric text next positions := by
  obtain ⟨place, hsound, rfl⟩ := h
  rw [modifyHead, stackHead_bind_eq_some_iff] at hrun
  obtain ⟨head, hhead, hrun⟩ := hrun
  rw [modify_eq_some_iff] at hrun
  subst hrun
  refine ⟨place, hsound.withHeads fun head' hhead' => ?_, ?_⟩
  · rcases List.mem_or_eq_of_mem_set hhead' with hmem | rfl
    · exact ⟨hsound.allocated head' hmem, hsound.head head' hmem⟩
    · rw [hnode]
      have hmem := List.mem_of_getElem? hhead
      exact ⟨hsound.allocated head hmem, fun hgoing => hsound.head head hmem (hhalted head hgoing)⟩
  · have hp : (stack.positions place)[version]? = some (place (f head).node) := by
      rw [Stack.getElem?_positions, hhead, Option.map_some, hnode]
    obtain ⟨hlt, hget⟩ := List.getElem?_eq_some_iff.mp hp
    show (stack.heads.set version (f head)).map _ = _
    rw [List.map_set]
    show (stack.positions place).set version (place (f head).node) = _
    rw [← hget, List.set_getElem_self]

/-- Copying a version. -/
theorem tsStackCopyVersion_stands {result : ℕ} {stack' : Stack}
    (hrun : tsStackCopyVersion version stack = some (result, stack')) :
    result = positions.length ∧ (∃ head, stack.heads[version]? = some head ∧ stack'.heads =
      stack.heads ++ [head]) ∧ ∃ p, positions[version]? = some p ∧
      stack'.Stands metric text next (positions ++ [p]) := by
  obtain ⟨place, hsound, rfl⟩ := h
  rw [tsStackCopyVersion, stackHead_bind_eq_some_iff] at hrun
  obtain ⟨head, hhead, hrun⟩ := hrun
  rw [get_bind, set_bind, pure_eq_some_iff] at hrun
  obtain ⟨rfl, rfl⟩ := hrun
  refine ⟨(stack.length_positions place).symm, ⟨head, hhead, rfl⟩, place head.node, ?_, place,
    hsound.withHeads fun head' hhead' => ?_, ?_⟩
  · rw [Stack.getElem?_positions, hhead, Option.map_some]
  · have hmem : head' ∈ stack.heads := by
      rcases List.mem_append.mp hhead' with hmem | hmem
      · exact hmem
      · exact List.mem_singleton.mp hmem ▸ List.mem_of_getElem? hhead
    exact ⟨hsound.allocated head' hmem, hsound.head head' hmem⟩
  · show (stack.heads ++ [head]).map _ = _
    rw [List.map_append]
    rfl

/-- Renumbering a version. -/
theorem tsStackRenumberVersion_stands {v1 v2 : ℕ} {result : Unit} {stack' : Stack}
    (hrun : tsStackRenumberVersion v1 v2 stack = some (result, stack')) :
    v2 < v1 ∧ ∃ p, positions[v1]? = some p ∧
      stack'.Stands metric text next ((positions.set v2 p).eraseIdx v1) := by
  obtain ⟨place, hsound, rfl⟩ := h
  rw [tsStackRenumberVersion] at hrun
  split at hrun
  · next hlt =>
      rw [stackHead_bind_eq_some_iff] at hrun
      obtain ⟨head, hhead, hrun⟩ := hrun
      rw [modify_eq_some_iff] at hrun
      subst hrun
      refine ⟨hlt, place head.node, ?_, place, hsound.withHeads fun head' hhead' => ?_, ?_⟩
      · rw [Stack.getElem?_positions, hhead, Option.map_some]
      · have hmem : head' ∈ stack.heads := by
          rcases List.mem_or_eq_of_mem_set (List.mem_of_mem_eraseIdx hhead') with hmem | rfl
          · exact hmem
          · exact List.mem_of_getElem? hhead
        exact ⟨hsound.allocated head' hmem, hsound.head head' hmem⟩
      · show ((stack.heads.set v2 head).eraseIdx v1).map _ = _
        rw [← List.eraseIdx_map, List.map_set]
        rfl
  · exact absurd hrun (by rw [trap_eq_some_iff]; exact id)

/-- Clearing the stack leaves one that stands over any text: what can still be reached
spans nothing. -/
theorem tsStackClear_stands {text' : List α} {result : Unit} {stack' : Stack}
    (hrun : tsStackClear stack = some (result, stack')) :
    stack'.Stands metric text' next [some Length.zero] := by
  obtain ⟨place, hsound, rfl⟩ := h
  rw [tsStackClear, modify_eq_some_iff] at hrun
  subst hrun
  -- only the nodes at the start of the text keep their places
  set place' : ℕ → Option Length := fun address => if place address =
    some Length.zero then some Length.zero else none with hplace'
  have hbase : place' stack.baseNode = some Length.zero := if_pos hsound.base
  have hempty : ∀ {p : Length} {own : List α}, Stretch metric text p Length.zero own →
    p = Length.zero ∧ own = [] := by
    rintro p own ⟨front, back, -, rfl, hzero⟩
    obtain ⟨rfl, rfl⟩ := List.append_eq_nil_iff.mp
      (List.length_eq_zero_iff.mp (congrArg Length.chars hzero).symm)
    exact ⟨rfl, rfl⟩
  refine ⟨place', ⟨hbase, fun address p hp => ?_, fun head hhead => ?_, fun head hhead _ => ?_⟩,
    congrArg (fun p => [p]) hbase⟩
  · simp only [hplace'] at hp
    split at hp
    · next haddress =>
        obtain rfl := Option.some.inj hp
        obtain ⟨node, hnode, hstands⟩ := hsound.node address _ haddress
        refine ⟨node, hnode, hstands.position, Stretch.zero text', fun link hlink => ?_⟩
        obtain ⟨hbreak, p', hp', hspans⟩ := hstands.link link hlink
        cases htree : link.tree with
        | none =>
            rw [htree] at hspans
            obtain ⟨rfl, -⟩ := hempty hspans
            exact ⟨hbreak, Length.zero, if_pos hp', Stretch.zero text'⟩
        | some tree =>
            rw [htree] at hspans
            obtain ⟨own, hown, hbuilt⟩ := hspans
            obtain ⟨rfl, rfl⟩ := hempty hown
            exact ⟨hbreak, Length.zero, if_pos hp', [], Stretch.zero text', hbuilt⟩
    · exact absurd hp (Option.some_ne_none p).symm
  · rw [List.mem_singleton.mp hhead]
    exact hsound.lt_of_place hsound.base
  · rw [List.mem_singleton.mp hhead]
    exact ⟨_, hbase⟩

/-- **`ts_stack_merge` keeps the stack sound**: the two versions end at one position, because they
have as many characters in front of them. -/
theorem tsStackMerge_stands {fuel newVersion : ℕ} {result : Bool} {stack' : Stack}
    (hversion : positions[version]? = some (some p))
    (hnewVersion : positions[newVersion]? = some (some q))
    (hrun : tsStackMerge fuel version newVersion stack = some (result, stack')) :
    if result then p = q ∧ stack'.Stands metric text next (positions.eraseIdx newVersion)
    else stack' = stack := by
  rw [tsStackMerge, stackHead_bind_eq_some_iff] at hrun
  obtain ⟨head, hhead, hrun⟩ := hrun
  rw [stackHead_bind_eq_some_iff] at hrun
  obtain ⟨newHead, hnewHead, hrun⟩ := hrun
  rw [stackNode_bind_eq_some_iff] at hrun
  obtain ⟨node, hnode, hrun⟩ := hrun
  rw [stackNode_bind_eq_some_iff] at hrun
  obtain ⟨newNode, hnewNode, hrun⟩ := hrun
  split at hrun
  · next hsame =>
      -- as many characters in front of both means the same place
      have hpq : p = q := by
        obtain ⟨hposition, hstop⟩ := h.top hversion hhead hnode
        obtain ⟨hnewPosition, hnewStop⟩ := h.top hnewVersion hnewHead hnewNode
        refine hstop.eq_of_chars hnewStop ?_
        rw [← hposition, ← hnewPosition, hsame.2.1]
      subst hpq
      obtain ⟨place, hsound, rfl⟩ := h
      rw [Stack.getElem?_positions, hhead, Option.map_some, Option.some.injEq] at hversion
      rw [Stack.getElem?_positions, hnewHead, Option.map_some, Option.some.injEq] at hnewVersion
      rw [bind_eq_some_iff] at hrun
      obtain ⟨_, merged, hmerge, hrun⟩ := hrun
      -- the links of the new version go to the node of the old one
      have hmerged : Keeps metric text next place stack.heads merged := by
        refine @Triple.forEach _ _ _ _ (fun _ => Keeps metric text next place stack.heads) _
          (fun index _ _ => ?_) () stack _ merged ⟨hsound, rfl⟩ hmerge
        rintro last result' last' ⟨hsound, hheads⟩ hstep
        rw [stackNode_bind_eq_some_iff] at hstep
        obtain ⟨other, hother, hstep⟩ := hstep
        cases hlinks : other.links[index]? with
        | none =>
            rw [hlinks] at hstep
            simp only [pure_eq_some_iff] at hstep
            obtain ⟨-, rfl⟩ := hstep
            exact ⟨hsound, hheads⟩
        | some link =>
            rw [hlinks] at hstep
            obtain ⟨hbreak, p', hp', hlink⟩ :=
              (hsound.stands hnewVersion hother).link link (List.mem_of_getElem? hlinks)
            exact stackNodeAddLink_keeps hversion hp' hlink hbreak last result' last'
              ⟨hsound, hheads⟩ hstep
      have hstands : merged.Stands metric text next (stack.positions place) :=
        ⟨place, hmerged.1, by rw [Stack.positions, hmerged.2, Stack.positions]⟩
      rw [bind_eq_some_iff] at hrun
      obtain ⟨_, counted, hcount, hrun⟩ := hrun
      have hcounted := modifyHead_stands hstands (fun head => by split <;> rfl)
        (fun head hgoing => by split at hgoing <;> exact hgoing) hcount
      rw [bind_eq_some_iff] at hrun
      obtain ⟨_, removed, hremove, hrun⟩ := hrun
      have hremoved := tsStackRemoveVersion_stands hcounted hremove
      rw [pure_eq_some_iff] at hrun
      obtain ⟨rfl, rfl⟩ := hrun
      exact ⟨rfl, hremoved⟩
  · rw [pure_eq_some_iff] at hrun
    obtain ⟨rfl, rfl⟩ := hrun
    rfl

end Versions

end Sound

end TreeSitterTextStorage
