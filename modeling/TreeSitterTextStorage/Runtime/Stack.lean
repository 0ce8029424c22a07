import TreeSitterTextStorage.Library.Program
import TreeSitterTextStorage.Runtime.Building

/-! # The parse stack

`stack.c`: a stack whose versions share their nodes. Versions split when a state has several actions
and merge when they come to the same state at the same position, so a node may be reached over
several links, and popping follows all of them. Reference counts and external tokens are left out:
nodes stay allocated, at the address that is their index. -/

namespace TreeSitterTextStorage

/-- `StackLink`. -/
structure StackLink where
  /-- The address of the node that the link leads to. -/
  node : ℕ
  /-- The tree between the two nodes; `none` is the discontinuity of an error. -/
  tree : Option SyntaxTree
  /-- `push_count`. -/
  pushCount : ℕ
  /-- Whether the tree was reused as a whole and may have to be broken down. -/
  isPending : Bool

/-- `StackNode`. -/
structure StackNode where
  /-- The parse state. -/
  state : UInt16
  /-- The position in the text. -/
  position : Length
  /-- The links to the nodes in front. -/
  links : List StackLink
  /-- `error_cost`. -/
  errorCost : ℕ
  /-- `error_count`. -/
  errorCount : ℕ

/-- `StackHead`: a version of the stack. -/
structure StackHead where
  /-- The address of the node on top. -/
  node : ℕ
  /-- Whether the version is given up. -/
  isHalted : Bool
  /-- `push_count`. -/
  pushCount : ℕ
  deriving DecidableEq, Repr

/-- `StackSlice`: what a pop has found on one path. -/
structure StackSlice where
  /-- The trees on the path, in the order of the text. -/
  trees : List SyntaxTree
  /-- The version that ends where the path does. -/
  version : ℕ

/-- `StackPopResult`. -/
structure StackPopResult where
  /-- `stopped_at_error`. -/
  stoppedAtError : Bool
  /-- What was found on each path. -/
  slices : List StackSlice

/-- `Iterator`: a path that a pop follows. -/
structure StackIterator where
  /-- The trees passed, the last one of the text first. -/
  trees : List SyntaxTree
  /-- `tree_count`: the number of trees passed that are not extra. -/
  treeCount : ℕ
  /-- The address of the node that the path has come to. -/
  node : ℕ
  /-- Whether all trees passed are pending. -/
  isPending : Bool
  /-- `push_count`. -/
  pushCount : ℕ

/-- `ErrorStatus`. -/
structure ErrorStatus where
  /-- The number of errors. -/
  count : ℕ
  /-- The cost of what was skipped. -/
  cost : ℕ
  /-- The number of pushes since the last error. -/
  pushCount : ℕ
  deriving DecidableEq, Repr

/-- `Stack`. -/
structure Stack where
  /-- The nodes that were allocated, by their address. -/
  nodes : List StackNode
  /-- `heads`: the versions. -/
  heads : List StackHead
  /-- The address of `base_node`. -/
  baseNode : ℕ

/-- `MAX_LINK_COUNT`. -/
def maxLinkCount : ℕ := 8

/-- `MAX_ITERATOR_COUNT`. -/
def maxIteratorCount : ℕ := 64

open Program

/-! ## Nodes -/

/-- The node at an address. -/
def stackNode (address : ℕ) : Program Stack StackNode := do
  let stack ← get
  ofOption stack.nodes[address]?

/-- The version with a number; `array_get` asserts that there is one. -/
def stackHead (version : ℕ) : Program Stack StackHead := do
  let stack ← get
  ofOption stack.heads[version]?

/-- The cost of a node over that of the node below it. -/
def stackNodeCost (cost : ℕ) (tree : Option SyntaxTree) (state : UInt16) : ℕ :=
  match tree with
  | none => cost
  | some tree =>
      let cost := wrapAdd cost tree.label.errorCost
      if state = errorState ∧ tree.label.extra = false then
        wrapAdd cost (errorCostPerSkippedTree +
          errorCostPerSkippedChar * (tree.label.padding.chars + tree.label.size.chars) +
          errorCostPerSkippedLine * (tree.label.padding.extent.row + tree.label.size.extent.row))
      else cost

/-- `stack_node_new` on a node `next`: the address of a new node with one link. -/
def stackNodeNew (next : ℕ) (tree : Option SyntaxTree) (isPending : Bool) (state : UInt16)
    (position : Length) (pushCount : ℕ) : Program Stack ℕ := do
  let below ← stackNode next
  let stack ← get
  let node : StackNode :=
    { state := state
      position := position
      links := [⟨next, tree, pushCount, isPending⟩]
      errorCost := stackNodeCost below.errorCost tree state
      errorCount := if tree.isSome then below.errorCount else below.errorCount + 1 }
  set { stack with nodes := stack.nodes ++ [node] }
  pure stack.nodes.length

/-- Whether two links carry the same tree or the same token. Pointers to trees are equal when what
they point at is, its address included. -/
def sameTree : Option SyntaxTree → Option SyntaxTree → Bool
  | none, none => true
  | some tree, some other => decide (tree.label = other.label) || tsTreeTokensEq tree other
  | _, _ => false

/-- The loop of `stack_node_add_link` over the links that a node has: the address of the node below
which the link is merged, if any; `some none` when the node has the link already. -/
def findLink (nodes : List StackNode) (link : StackLink) : List StackLink → Option (Option ℕ)
  | [] => none
  | existing :: rest =>
      if sameTree existing.tree link.tree then
        if existing.node = link.node then some none
        else if (nodes[existing.node]?).map StackNode.state =
          (nodes[link.node]?).map StackNode.state then
          some (some existing.node)
        else findLink nodes link rest
      else findLink nodes link rest

/-- `stack_node_add_link`. The depth of its recursion is bounded by `fuel`, and the number of links
that it takes over by `MAX_LINK_COUNT`. -/
def stackNodeAddLink : ℕ → ℕ → StackLink → Program Stack Unit
  | 0, _, _ => trap
  | fuel + 1, self, link => do
      let node ← stackNode self
      let stack ← get
      match findLink stack.nodes link node.links with
      | some none => pure ()
      | some (some existing) =>
          forEach (fun index _ => do
            let other ← stackNode link.node
            match other.links[index]? with
            | none => pure ()
            | some below => stackNodeAddLink fuel existing below) (List.range maxLinkCount) ()
      | none =>
          if node.links.length < maxLinkCount then
            set { stack with
              nodes := stack.nodes.set self { node with links := node.links ++ [link] } }
          else pure ()

/-! ## Versions -/

/-- `ts_stack_version_count`. -/
def tsStackVersionCount : Program Stack ℕ := do
  let stack ← get
  pure stack.heads.length

/-- Change the version with a number. -/
def modifyHead (version : ℕ) (f : StackHead → StackHead) : Program Stack Unit := do
  let head ← stackHead version
  modify fun stack => { stack with heads := stack.heads.set version (f head) }

/-- `ts_stack_top_state`. -/
def tsStackTopState (version : ℕ) : Program Stack UInt16 := do
  let head ← stackHead version
  let node ← stackNode head.node
  pure node.state

/-- `ts_stack_top_position`. -/
def tsStackTopPosition (version : ℕ) : Program Stack Length := do
  let head ← stackHead version
  let node ← stackNode head.node
  pure node.position

/-- `ts_stack_error_status`. -/
def tsStackErrorStatus (version : ℕ) : Program Stack ErrorStatus := do
  let head ← stackHead version
  let node ← stackNode head.node
  pure ⟨node.errorCount, node.errorCost, head.pushCount⟩

/-- `ts_stack_decrease_push_count`. -/
def tsStackDecreasePushCount (version decrement : ℕ) : Program Stack Unit :=
  modifyHead version fun head => { head with pushCount := wrapSub head.pushCount decrement }

/-- `ts_stack_halt`. -/
def tsStackHalt (version : ℕ) : Program Stack Unit :=
  modifyHead version fun head => { head with isHalted := true }

/-- `ts_stack_is_halted`. -/
def tsStackIsHalted (version : ℕ) : Program Stack Bool := do
  let head ← stackHead version
  pure head.isHalted

/-- `ts_stack__add_version`. -/
def tsStackAddVersion (node pushCount : ℕ) : Program Stack ℕ := do
  let stack ← get
  let head : StackHead := ⟨node, false, pushCount⟩
  set { stack with heads := stack.heads ++ [head] }
  pure stack.heads.length

/-- `ts_stack_copy_version`. -/
def tsStackCopyVersion (version : ℕ) : Program Stack ℕ := do
  let head ← stackHead version
  let stack ← get
  set { stack with heads := stack.heads ++ [head] }
  pure stack.heads.length

/-- `ts_stack_remove_version`. -/
def tsStackRemoveVersion (version : ℕ) : Program Stack Unit := do
  let _ ← stackHead version
  modify fun stack => { stack with heads := stack.heads.eraseIdx version }

/-- `ts_stack_renumber_version`. -/
def tsStackRenumberVersion (v1 v2 : ℕ) : Program Stack Unit := do
  if v2 < v1 then
    let head ← stackHead v1
    modify fun stack => { stack with heads := (stack.heads.set v2 head).eraseIdx v1 }
  else trap

/-- `ts_stack_push`. An error starts to count anew, and its link remembers what was counted. -/
def tsStackPush (version : ℕ) (tree : Option SyntaxTree) (isPending : Bool) (state : UInt16) :
    Program Stack Unit := do
  let head ← stackHead version
  let node ← stackNode head.node
  let position := tree.elim node.position fun tree => lengthAdd node.position tree.totalSize
  let newNode ← stackNodeNew head.node tree isPending state position
    (if state = errorState then head.pushCount else 0)
  modify fun stack => { stack with
    heads := stack.heads.set version
      { head with
        node := newNode
        pushCount := if state = errorState then 0 else wrapAdd head.pushCount 1 } }

/-- `ts_stack_merge`. -/
def tsStackMerge (fuel version newVersion : ℕ) : Program Stack Bool := do
  let head ← stackHead version
  let newHead ← stackHead newVersion
  let node ← stackNode head.node
  let newNode ← stackNode newHead.node
  if newNode.state = node.state ∧ newNode.position.chars = node.position.chars ∧
      newNode.errorCount = node.errorCount ∧ newNode.errorCost = node.errorCost then do
    forEach (fun index _ => do
      let newNode ← stackNode newHead.node
      match newNode.links[index]? with
      | none => pure ()
      | some link => stackNodeAddLink fuel head.node link) (List.range maxLinkCount) ()
    modifyHead version fun head =>
      if newHead.pushCount > head.pushCount then
        { head with pushCount := newHead.pushCount } else head
    tsStackRemoveVersion newVersion
    pure true
  else pure false

/-- `ts_stack_new`. -/
def tsStackNew : Stack where
  nodes := [⟨1, Length.zero, [], 0, 0⟩]
  heads := [⟨0, false, 0⟩]
  baseNode := 0

/-- `ts_stack_clear`. -/
def tsStackClear : Program Stack Unit :=
  modify fun stack => { stack with heads := [⟨stack.baseNode, false, 0⟩] }

/-! ## Popping -/

/-- `StackIterateCallback`: what to do with a path, from the state it has come to, the trees passed
and their number, and whether it has come to the base and all trees passed are pending. The answer
says whether to pop and whether to stop. -/
abbrev StackIterateCallback (δ : Type) :=
  δ → UInt16 → List SyntaxTree → ℕ → Bool → Bool → (Bool × Bool) × δ

/-- Whether the version of a slice ends at a node. -/
def endsAt (heads : List StackHead) (node : ℕ) (slice : StackSlice) : Bool :=
  (heads[slice.version]?).any fun head => decide (head.node = node)

/-- The loop of `ts_stack__add_slice`: put trees behind the last slice whose version ends at a node,
with the version of that slice. -/
def insertSlice (ends : StackSlice → Bool) (trees : List SyntaxTree) :
    List StackSlice → Option (List StackSlice)
  | [] => none
  | slice :: rest =>
      match insertSlice ends trees rest with
      | some rest => some (slice :: rest)
      | none => if ends slice then some (slice :: ⟨trees, slice.version⟩ :: rest) else none

/-- `ts_stack__add_slice`: slices that end at one node share a version and stand together. -/
def tsStackAddSlice (slices : List StackSlice) (node : ℕ) (trees : List SyntaxTree)
    (pushCount : ℕ) : Program Stack (List StackSlice) := do
  let stack ← get
  match insertSlice (endsAt stack.heads node) trees slices with
  | some slices => pure slices
  | none => do
      let version ← tsStackAddVersion node pushCount
      pure (slices ++ [⟨trees, version⟩])

/-- A path that goes on over a link. -/
def followLink (iterator : StackIterator) (link : StackLink) : StackIterator where
  node := link.node
  pushCount := wrapAdd iterator.pushCount link.pushCount
  trees := match link.tree with
    | none => iterator.trees
    | some tree => iterator.trees ++ [tree]
  treeCount := match link.tree with
    | none => iterator.treeCount
    | some tree => if tree.label.extra then iterator.treeCount else iterator.treeCount + 1
  isPending := match link.tree with
    | none => false
    | some tree =>
        if tree.label.extra = false ∧ link.isPending = false then false else iterator.isPending

/-- What the loop of `stack__iter` carries from path to path. -/
structure StackIteration (δ : Type) where
  /-- The data of the callback. -/
  payload : δ
  /-- What was found so far. -/
  slices : List StackSlice
  /-- The paths that this round has gone on with. -/
  kept : List StackIterator
  /-- The paths that this round has split off, which the next round visits last. -/
  pushed : List StackIterator

section Iterate

variable {δ : Type} (callback : StackIterateCallback δ) (pushCount : ℕ)

/-- A round of `stack__iter` over the paths, of which `size` are there. -/
def stackIterRound : List StackIterator → StackIteration δ → Program Stack (StackIteration δ)
  | [], iteration => pure iteration
  | iterator :: rest, iteration => do
      let stack ← get
      let node ← stackNode iterator.node
      let isDone := decide (iterator.node = stack.baseNode)
      let ((shouldPop, stop), payload) := callback iteration.payload node.state iterator.trees
        iterator.treeCount isDone iterator.isPending
      let shouldStop := stop || node.links.isEmpty
      let slices ← (if shouldPop then
        tsStackAddSlice iteration.slices iterator.node iterator.trees.reverse
          (wrapAdd pushCount iterator.pushCount)
        else pure iteration.slices)
      if shouldStop then
        stackIterRound rest { iteration with payload := payload, slices := slices }
      else
        -- the path goes on over its first link, and copies of it over the others
        -- while there is room
        let size := iteration.kept.length + 1 + rest.length + iteration.pushed.length
        let forks := (node.links.tail.take (maxIteratorCount - size)).map (followLink iterator)
        let next := (node.links.take 1).map (followLink iterator)
        stackIterRound rest {
          payload := payload
          slices := slices
          kept := iteration.kept ++ next
          pushed := iteration.pushed ++ forks }

/-- `stack__iter`: follow all paths from a version. The number of rounds is bounded by `fuel`. -/
def stackIter (fuel : ℕ) (payload : δ) (version : ℕ) : Program Stack (List StackSlice × δ) := do
  let head ← stackHead version
  loop (fun (iteration : StackIteration δ) => do
    if iteration.kept.isEmpty then pure (.inr (iteration.slices, iteration.payload))
    else do
      let iteration ← stackIterRound callback head.pushCount iteration.kept
        { iteration with kept := [], pushed := [] }
      pure (.inl { iteration with kept := iteration.kept ++ iteration.pushed, pushed := [] }))
    fuel { payload := payload, slices := [], kept := [⟨[], 0, head.node, true, 0⟩], pushed := [] }

end Iterate

/-- `StackPopSession`. -/
structure StackPopSession where
  /-- `goal_tree_count`. -/
  goalTreeCount : ℕ
  /-- `found_error`. -/
  foundError : Bool
  /-- `found_valid_path`. -/
  foundValidPath : Bool
  deriving DecidableEq, Repr

/-- `pop_count_callback`. -/
def popCountCallback : StackIterateCallback StackPopSession :=
  fun session state _ treeCount _ _ =>
    if treeCount = session.goalTreeCount then
      ((true, true), { session with foundValidPath := true })
    else if state = errorState then
      if session.foundValidPath || session.foundError then ((false, true), session)
      else ((true, true), { session with foundError := true })
    else ((false, false), session)

/-- `ts_stack_pop_count`. -/
def tsStackPopCount (fuel version count : ℕ) : Program Stack StackPopResult := do
  let (slices, session) ← stackIter popCountCallback fuel ⟨count, false, false⟩ version
  if session.foundError then
    if session.foundValidPath then
      -- the path that ran into the error was the first one found
      match slices with
      | error :: front :: rest =>
          if front.version ≠ error.version then do
            tsStackRemoveVersion error.version
            pure ⟨false, (front :: rest).map fun slice =>
              { slice with version := slice.version - 1 }⟩
          else pure ⟨false, front :: rest⟩
      | _ => trap
    else pure ⟨true, slices⟩
  else pure ⟨false, slices⟩

/-- `pop_pending_callback`. -/
def popPendingCallback : StackIterateCallback Unit :=
  fun _ _ _ treeCount _ isPending =>
    if treeCount ≥ 1 then if isPending then ((true, true), ()) else ((false, true), ())
    else ((false, false), ())

/-- `ts_stack_pop_pending`. When it finds several paths, the numbers of the versions of the further
ones are those of before the renumbering. -/
def tsStackPopPending (fuel version : ℕ) : Program Stack (List StackSlice) := do
  let (slices, _) ← stackIter popPendingCallback fuel () version
  match slices with
  | [] => pure []
  | slice :: rest => do
      tsStackRenumberVersion slice.version version
      pure ({ slice with version := version } :: rest)

/-- `pop_all_callback`. -/
def popAllCallback : StackIterateCallback Unit :=
  fun _ _ _ _ isDone _ => if isDone then ((true, true), ()) else ((false, false), ())

/-- `ts_stack_pop_all`. -/
def tsStackPopAll (fuel version : ℕ) : Program Stack (List StackSlice) := do
  let (slices, _) ← stackIter popAllCallback fuel () version
  pure slices

end TreeSitterTextStorage
