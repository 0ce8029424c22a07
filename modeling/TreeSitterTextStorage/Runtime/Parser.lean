import TreeSitterTextStorage.Runtime.Lexing
import TreeSitterTextStorage.Runtime.Linking
import TreeSitterTextStorage.Runtime.Reuse

/-! # The parser

`parser.c`: a parse advances every version of the stack over the text, splits it where a state has
several actions, repairs errors by trying what could have come before, and keeps the version with
the fewest errors. The tokens come from the lexer or from the nodes of an edited tree. All loops are
bounded by `fuel`. A failing assertion traps. The log, the debugging graphs, the external tokens and
the cached token, which the source never stores, are left out; so is that a flag that is set in a
tree can be seen through another pointer to it. -/

namespace TreeSitterTextStorage

open Program RoseTree

/-! ## The state of a parse -/

/-- `ReduceAction`. -/
structure ReduceAction where
  /-- The number of children. -/
  count : ℕ
  /-- The symbol of the parent. -/
  symbol : UInt16
  deriving DecidableEq, Repr

/-- `ts_reduce_action_set_add`. -/
def tsReduceActionSetAdd (self : List ReduceAction) (newAction : ReduceAction) :
    List ReduceAction :=
  if newAction ∈ self then self else self ++ [newAction]

/-- `Parser`, with the payload of its input. -/
structure TSParser (π : Type) where
  /-- The lexer. -/
  lexer : Lexer
  /-- What the callbacks of the input serve text from. -/
  payload : π
  /-- The stack. -/
  stack : Stack
  /-- `finished_tree`. -/
  finishedTree : Option SyntaxTree
  /-- `is_split`. -/
  isSplit : Bool
  /-- `scratch_tree`. -/
  scratchTree : NodeData
  /-- `reusable_node`. -/
  reusableNode : ReusableNode
  /-- The address at which the next node will be allocated. -/
  nextAddress : ℕ

variable {π : Type}

/-- An operation on the stack. -/
def onStack {β : Type} (program : Program Stack β) : Program (TSParser π) β :=
  zoom TSParser.stack (fun stack parser => { parser with stack := stack }) program

/-- An operation on the lexer. -/
def onParserLexer {β : Type} (program : Program (Lexer × π) β) : Program (TSParser π) β :=
  zoom (fun parser => (parser.lexer, parser.payload))
    (fun state parser => { parser with lexer := state.1, payload := state.2 }) program

/-- Allocate a node. -/
def parserAllocate : Program (TSParser π) ℕ := do
  let parser ← get
  set { parser with nextAddress := parser.nextAddress + 1 }
  pure parser.nextAddress

/-- The assignment `tree->extra = extra`. -/
def setExtra (extra : Bool) : SyntaxTree → SyntaxTree
  | .node self children => .node { self with extra := extra } children

/-- `parser__push`. -/
def parserPush (version : ℕ) (tree : SyntaxTree) (state : UInt16) : Program (TSParser π) Unit :=
  onStack (tsStackPush version (some tree) false state)

/-- Push trees one by one. -/
def parserPushAll (version : ℕ) (trees : List SyntaxTree) (state : UInt16) :
    Program (TSParser π) Unit :=
  forEach (fun tree _ => parserPush version tree state) trees ()

/-! ## Choosing -/

/-- `parser__select_tree` on two trees: whether to take the right one. -/
def parserSelectTree (left right : SyntaxTree) : Bool :=
  if right.label.errorCost < left.label.errorCost then true
  else if left.label.errorCost < right.label.errorCost then false
  else decide (tsTreeCompare left right = .gt)

/-- `parser__better_version_exists`, which halts the versions that are clearly worse. -/
def parserBetterVersionExists (fuel version : ℕ) (myErrorStatus : ErrorStatus) :
    Program (TSParser π) Bool := do
  let parser ← get
  if parser.finishedTree.any fun tree => decide (tree.label.errorCost ≤ myErrorStatus.cost)
    then pure true
  else
    loop (fun (i : ℕ) =>
      if i < parser.stack.heads.length then do
        let isHalted ← onStack (tsStackIsHalted i)
        if i = version ∨ isHalted then pure (.inl (i + 1))
        else do
          let status ← onStack (tsStackErrorStatus i)
          match errorStatusCompare myErrorStatus status with
          | .lt => do
              onStack (tsStackHalt i)
              pure (.inl (i + 1))
          | .gt => pure (.inr true)
          | .eq => pure (.inl (i + 1))
      else pure (.inr false)) fuel 0

section Language

variable (language : TSLanguage) (input : TSInput π) (fuel : ℕ)

/-! ## Lookaheads -/

/-- The children of a tree that is broken down take its place on the stack. -/
def parserPushChildren (version : ℕ) (children : List SyntaxTree) (state : UInt16)
    (pending : Bool) : Program (TSParser π) (UInt16 × Bool) :=
  forEach (fun child (vars : UInt16 × Bool) => do
    let pending := decide (0 < child.children.length)
    let state :=
      if child.label.symbol = tsBuiltinSymError then errorState
      else if child.label.extra = false then language.nextState vars.1 child.label.symbol
      else vars.1
    onStack (tsStackPush version (some child) pending state)
    pure (state, pending)) children (state, pending)

/-- One turn of the loop of `parser__breakdown_top_of_stack` over the slices. -/
def parserBreakdownSlice (slice : StackSlice) (pending : Bool) : Program (TSParser π) Bool := do
  let state ← onStack (tsStackTopState slice.version)
  match slice.trees with
  | [] => trap
  | parent :: extras => do
      let (state, pending) ← parserPushChildren language slice.version parent.children state pending
      parserPushAll slice.version extras state
      onStack (tsStackDecreasePushCount slice.version (parent.children.length + 1))
      pure pending

/-- `parser__breakdown_top_of_stack`. -/
def parserBreakdownTopOfStack (version : ℕ) : Program (TSParser π) Bool :=
  loop (fun (didBreakDown : Bool) => do
    let slices ← onStack (tsStackPopPending fuel version)
    if slices.isEmpty then pure (.inr didBreakDown)
    else do
      let pending ← forEach (parserBreakdownSlice language) slices false
      pure (if pending then .inl true else .inr true)) fuel false

/-- `parser__breakdown_lookahead`: whether the lookahead was broken down, and what it is then. -/
def parserBreakdownLookahead (lookahead : SyntaxTree) (state : UInt16)
    (reusableNode : ReusableNode) :
    Program (TSParser π) (Bool × SyntaxTree × ReusableNode) := do
  let parser ← get
  loop (fun (vars : Bool × SyntaxTree × ReusableNode) =>
    match vars.2.2.cursor with
    | none => trap
    | some cursor =>
        let tree := cursor.tree.label
        if 0 < cursor.tree.children.length ∧
            (parser.isSplit ∨ tree.parseState ≠ state ∨ tree.fragileLeft ∨ tree.fragileRight) then
          match reusableNodeBreakdown vars.2.2 with
          | none => trap
          | some next => pure (.inl (true, lookahead, next))
        else pure (.inr (vars.1, if vars.1 then cursor.tree else lookahead, vars.2.2)))
    fuel (false, lookahead, reusableNode)

/-- `parser__can_reuse`. -/
def parserCanReuse (state : UInt16) (tree : SyntaxTree) (tableEntry : TableEntry) : Bool :=
  let currentLexMode := language.lexModes state
  if tree.label.firstLeafLexMode = currentLexMode then true
  else if currentLexMode.externalLexState ≠ 0 then false
  else if tree.label.size.bytes = 0 then false
  else if tableEntry.isReusable = false then false
  else if tableEntry.dependsOnLookahead = false then true
  else decide (tree.children.length > 1 ∧ tree.label.errorCost = 0)

/-- `parser__lex`. -/
def parserLex (version : ℕ) : Program (TSParser π) SyntaxTree := do
  let parseState ← onStack (tsStackTopState version)
  let startPosition ← onStack (tsStackTopPosition version)
  let address ← parserAllocate
  onParserLexer (lexLeaf language input fuel address parseState startPosition)

/-- `parser__get_lookahead`: a tree of the edited tree or a fresh token, and whether it is fresh. -/
def parserGetLookahead (version : ℕ) (reusableNode : ReusableNode) :
    Program (TSParser π) (SyntaxTree × ReusableNode × Bool) := do
  let position ← onStack (tsStackTopPosition version)
  let (reused, reusableNode) ← loop (fun (self : ReusableNode) =>
    match lookaheadTurn position.bytes self with
    | .lex => pure (.inr (none, self))
    | .next next => pure (.inl next)
    | .broken next => do
        let _ ← parserBreakdownTopOfStack language fuel version
        pure (.inl next)
    | .reuse cursor => pure (.inr (some cursor.tree, self))) fuel reusableNode
  match reused with
  | some tree => pure (tree, reusableNode, false)
  | none => do
      let tree ← parserLex language input fuel version
      pure (tree, reusableNode, true)

/-- Whether the lookahead is the tree at which the reusable node stands. -/
def isReused (lookahead : SyntaxTree) (reusableNode : ReusableNode) : Bool :=
  reusableNode.cursor.any fun cursor => decide (cursor.tree.label.address = lookahead.label.address)

/-- The part of `parser__advance` that goes behind the lookahead when it is the tree at which the
reusable node stands. -/
def parserPassReused (lookahead : SyntaxTree) (reusableNode : ReusableNode) :
    Program (TSParser π) ReusableNode :=
  if isReused lookahead reusableNode then ofOption (reusableNodePop reusableNode)
    else pure reusableNode

/-! ## Shifting and reducing -/

/-- `parser__shift`: the lookahead as its caller sees it afterwards. -/
def parserShift (version : ℕ) (state : UInt16) (lookahead : SyntaxTree) (extra : Bool) :
    Program (TSParser π) SyntaxTree := do
  let parser ← get
  let copies := decide (extra ≠ lookahead.label.extra) &&
    (language.metadata lookahead.label.symbol).structural && decide (parser.stack.heads.length > 1)
  let address ← parserAllocate
  let shifted := setExtra extra (if copies then tsTreeMakeCopy address lookahead else lookahead)
  onStack (tsStackPush version (some shifted) (decide (0 < shifted.children.length)) state)
  pure (if copies then lookahead else shifted)

/-- `parser__switch_children`: whether the children were switched, and the tree. -/
def parserSwitchChildren (tree : SyntaxTree) (children : List SyntaxTree) :
    Program (TSParser π) (Bool × SyntaxTree) := do
  let parser ← get
  let scratch := tsTreeSetChildren { parser.scratchTree with symbol := tree.label.symbol } children
  set { parser with scratchTree := scratch.label }
  pure (if parserSelectTree tree scratch then
      (true, .node
        { tree.label with
          size := scratch.label.size
          padding := scratch.label.padding
          errorCost := scratch.label.errorCost
          namedChildCount := scratch.label.namedChildCount
          visibleChildCount := scratch.label.visibleChildCount } children)
    else (false, tree))

/-- The loop of `parser__reduce` over the further slices of a version: the slice whose trees are
taken, the parent, and the slices of other versions. -/
def parserSwitchSlices (slice : StackSlice) (parent : SyntaxTree) :
    List StackSlice → Program (TSParser π) (StackSlice × SyntaxTree × List StackSlice)
  | [] => pure (slice, parent, [])
  | nextSlice :: rest =>
      if nextSlice.version ≠ slice.version then pure (slice, parent, nextSlice :: rest)
      else do
        let (switched, parent) ←
          parserSwitchChildren parent (tsTreeArrayRemoveTrailingExtras nextSlice.trees).1
        parserSwitchSlices (if switched then nextSlice else slice) parent rest

/-- The part of `parser__reduce` that makes a version in which the parent is skipped. -/
def parserSkipParent (version sliceVersion : ℕ) (trees : List SyntaxTree) :
    Program (TSParser π) Unit := do
  let otherVersion ← onStack (tsStackCopyVersion sliceVersion)
  parserPushAll otherVersion trees errorState
  let errorStatus ← onStack (tsStackErrorStatus otherVersion)
  let better ← parserBetterVersionExists fuel version errorStatus
  guarded better (onStack (tsStackRemoveVersion otherVersion))

/-- The part of `parser__reduce` that marks a parent as fragile or with the state below it. -/
def markParent (isFragile : Bool) (state : UInt16) (parent : SyntaxTree) : SyntaxTree :=
  .node
    (if isFragile then
      { parent.label with fragileLeft := true, fragileRight := true, parseState := tsTreeStateNone }
    else { parent.label with parseState := state }) parent.children

/-- One turn of the loop of `parser__reduce` over the slices, of which there are `sliceCount`; what
is left are the slices of other versions. -/
def parserReduceSlice (version : ℕ) (symbol : UInt16) (fragile allowSkipping : Bool)
    (initialVersionCount sliceCount : ℕ) (slice : StackSlice) (rest : List StackSlice) :
    Program (TSParser π) (List StackSlice) := do
  let children := (tsTreeArrayRemoveTrailingExtras slice.trees).1
  let address ← parserAllocate
  let (slice, parent, rest) ← parserSwitchSlices slice
    (tsTreeMakeNode address symbol children (language.metadata symbol)) rest
  let state ← onStack (tsStackTopState slice.version)
  let parser ← get
  let parent := markParent
    (fragile || parser.isSplit || decide (sliceCount > 1) || decide
      (initialVersionCount > 1)) state parent
  let trees := parent :: slice.trees.drop parent.children.length
  guarded (decide (state = errorState) && allowSkipping && decide (children.length > 1))
    (parserSkipParent fuel version slice.version trees)
  parserPushAll slice.version trees (language.nextState state symbol)
  pure rest

/-- The loops at the end of `parser__reduce`: merge the versions from `start` on. -/
def parserMergeVersions (start : ℕ) : Program (TSParser π) Unit :=
  loop (fun (i : ℕ) => do
    let versionCount ← onStack tsStackVersionCount
    if i < versionCount then do
      let merged ← loop (fun (j : ℕ) =>
        if j < i then do
          let merged ← onStack (tsStackMerge fuel j i)
          pure (if merged then .inr true else .inl (j + 1))
        else pure (.inr false)) fuel start
      pure (.inl (if merged then i else i + 1))
    else pure (.inr ())) fuel start

/-- `parser__reduce`. -/
def parserReduce (version : ℕ) (symbol : UInt16) (count : ℕ) (fragile allowSkipping : Bool) :
    Program (TSParser π) StackPopResult := do
  let initialVersionCount ← onStack tsStackVersionCount
  let pop ← onStack (tsStackPopCount fuel version count)
  if pop.stoppedAtError then pure pop
  else do
    loop (fun (slices : List StackSlice) =>
      match slices with
      | [] => pure (.inr ())
      | slice :: rest => do
          let rest ← parserReduceSlice language fuel version symbol fragile allowSkipping
            initialVersionCount pop.slices.length slice rest
          pure (.inl rest)) fuel pop.slices
    parserMergeVersions fuel initialVersionCount
    pure pop

/-! ## Repairing errors -/

/-- The loops of `parser__reductions_after_sequence` over trees, up to a number of children if there
is a limit: the state and the number of children behind them. -/
def followTrees (limit : Option ℕ) : List SyntaxTree → UInt16 × ℕ → Option (UInt16 × ℕ)
  | [], vars => some vars
  | tree :: rest, (state, childCount) =>
      if limit = some childCount then some (state, childCount)
      else if tree.label.extra then followTrees limit rest (state, childCount)
      else
        let nextState := language.nextState state tree.label.symbol
        if nextState = errorState then none
        else if nextState ≠ state then followTrees limit rest (nextState, childCount + 1)
        else followTrees limit rest (state, childCount)

/-- `parser__reductions_after_sequence`. -/
def parserReductionsAfterSequence (startState : UInt16) (treesBelow : List SyntaxTree)
    (treeCountBelow : ℕ) (treesAbove : List SyntaxTree) (lookaheadSymbol : UInt16) :
    List TSParseAction :=
  let reached := do
    let vars ← followTrees language (some treeCountBelow) treesBelow.reverse (startState, 0)
    followTrees language none treesAbove vars
  match reached with
  | none => []
  | some (state, childCount) =>
      let actions := (language.actions state lookaheadSymbol).getD []
      let actions :=
        if actions.getLast?.any fun action => decide (action.type ≠ .reduce) then actions.dropLast
        else actions
      let actions := actions.dropWhile fun action => decide (action.childCount < childCount)
      (actions.reverse.dropWhile fun action => decide (action.childCount > childCount)).reverse

/-- `ErrorRepairSession`, with the repairs that are still to be tried. -/
structure ErrorRepairSession where
  /-- `reduce_actions` of the parser. -/
  repairs : List ReduceAction
  /-- `found_repair`. -/
  foundRepair : Bool := false
  /-- `best_repair`. -/
  bestRepair : ReduceAction := ⟨0, 0⟩
  /-- `best_repair_next_state`. -/
  bestRepairNextState : UInt16 := 0
  /-- `best_repair_skip_count`. -/
  bestRepairSkipCount : ℕ := 0

section Repair

variable (lookaheadSymbol : UInt16) (treesAboveError : List SyntaxTree) (treeCountAboveError : ℕ)

/-- The loop of `parser__repair_error_callback` over the repairs: whether one was found on the path,
and the session, whose repairs are those that stay. -/
def tryRepairs (state : UInt16) (trees : List SyntaxTree) (treeCount : ℕ) :
    List ReduceAction → ErrorRepairSession → Bool × ErrorRepairSession
  | [], session => (false, { session with repairs := [] })
  | repair :: rest, session =>
      let countNeededBelowError := repair.count - treeCountAboveError
      let stay := fun (result : Bool × ErrorRepairSession) =>
        (result.1, { result.2 with repairs := repair :: result.2.repairs })
      if countNeededBelowError > treeCount then (false, { session with repairs := repair :: rest })
      else
        let skipCount := treeCount - countNeededBelowError
        if session.foundRepair ∧ skipCount ≥ session.bestRepairSkipCount then
          tryRepairs state trees treeCount rest session
        else
          let stateAfterRepair := language.nextState state repair.symbol
          if state = errorState ∨ stateAfterRepair = errorState then
            stay (tryRepairs state trees treeCount rest session)
          else if ((language.actions stateAfterRepair lookaheadSymbol).getD []).isEmpty then
            stay (tryRepairs state trees treeCount rest session)
          else if (parserReductionsAfterSequence language state trees countNeededBelowError
              treesAboveError lookaheadSymbol).any fun action =>
              decide (action.symbol = repair.symbol) then
            (true, (tryRepairs state trees treeCount rest
              { session with
                foundRepair := true
                bestRepair := repair
                bestRepairSkipCount := skipCount
                bestRepairNextState := stateAfterRepair }).2)
          else stay (tryRepairs state trees treeCount rest session)

/-- `parser__repair_error_callback`. -/
def parserRepairErrorCallback : StackIterateCallback ErrorRepairSession :=
  fun session state trees treeCount _ _ =>
    let result := tryRepairs language lookaheadSymbol treesAboveError treeCountAboveError state
      trees treeCount session.repairs session
    ((result.1, result.2.repairs.isEmpty), result.2)

end Repair

/-- The loop of `parser__repair_error` that removes the versions of the slices that are not taken,
from the last one on. -/
def parserRemoveOthers (slices : List StackSlice) : Program (TSParser π) Unit :=
  forEach (fun (slices : StackSlice × StackSlice) _ =>
    guarded (decide (slices.1.version ≠ slices.2.version))
      (onStack (tsStackRemoveVersion slices.1.version)))
    (slices.dropLast.zip slices.tail).reverse ()

/-- The trees below the error with the error and the trees above it, as `parser__repair_error` puts
them together: the error node, and the children of the parent. -/
def repairedChildren (address skipCount : ℕ) (below above : List SyntaxTree) :
    Option (SyntaxTree × List SyntaxTree) :=
  (tsTreeArrayRemoveLastN below skipCount).map fun (children, skipped) =>
    let (skipped, trailingExtras) := tsTreeArrayRemoveTrailingExtras skipped
    let error := tsTreeMakeErrorNode address skipped
    (error, children ++ error :: (trailingExtras ++ above))

/-- `parser__repair_error`. -/
def parserRepairError (slice : StackSlice) (lookaheadSymbol : UInt16) (entry : TableEntry) :
    Program (TSParser π) Bool := do
  let treeCountAboveError := tsTreeArrayEssentialCount slice.trees
  let repairs := entry.actions.filterMap fun action =>
    if action.type = .reduce ∧ (action.childCount > treeCountAboveError ∨
        (action.childCount = treeCountAboveError ∧
          (language.metadata action.symbol).visible = false)) then
      some ⟨action.childCount, action.symbol⟩
    else none
  let (slices, session) ← onStack (stackIter
    (parserRepairErrorCallback language lookaheadSymbol slice.trees treeCountAboveError) fuel
    { repairs := repairs } slice.version)
  if session.foundRepair = false then do
    onStack (tsStackRemoveVersion slice.version)
    pure false
  else
    match slices.getLast? with
    | none => trap
    | some newSlice => do
        onStack (tsStackRenumberVersion newSlice.version slice.version)
        parserRemoveOthers slices
        let address ← parserAllocate
        let (error, children) ← ofOption
          (repairedChildren address session.bestRepairSkipCount newSlice.trees slice.trees)
        let address ← parserAllocate
        parserPush slice.version
          (tsTreeMakeNode address session.bestRepair.symbol children
            (language.metadata session.bestRepair.symbol)) session.bestRepairNextState
        onStack (tsStackDecreasePushCount slice.version error.children.length)
        let errorStatus ← onStack (tsStackErrorStatus slice.version)
        let better ← parserBetterVersionExists fuel slice.version errorStatus
        guarded better (onStack (tsStackHalt slice.version))
        pure (!better)

/-! ## Finishing -/

/-- The root that `parser__accept` makes of the trees of a version: the last tree that is not extra
takes in all others. -/
def acceptedRoot (address : ℕ) (trees : List SyntaxTree) : Option SyntaxTree :=
  match trees with
  | [root] => some root
  | trees =>
      let (front, back) := tsTreeArrayRemoveTrailingExtras trees
      front.getLast?.map fun child =>
        tsTreeSetChildren (tsTreeMakeCopy address child).label
          (front.dropLast ++ child.children ++ back)

/-- One turn of the loop of `parser__accept` over the slices. -/
def parserFinish (trees : List SyntaxTree) : Program (TSParser π) Unit := do
  let address ← parserAllocate
  let root ← ofOption (acceptedRoot address trees)
  modify fun parser => { parser with
    finishedTree := match parser.finishedTree with
      | none => some root
      | some finished => if parserSelectTree finished root then some root else some finished }

/-- `parser__accept`: the lookahead as its caller sees it afterwards. -/
def parserAccept (version : ℕ) (lookahead : SyntaxTree) : Program (TSParser π) SyntaxTree :=
  if lookahead.label.symbol ≠ tsBuiltinSymEnd then trap
  else do
    parserPush version (setExtra true lookahead) 1
    let slices ← onStack (tsStackPopAll fuel version)
    forEach (fun slice _ => parserFinish (StackSlice.trees slice)) slices ()
    match slices with
    | [] => trap
    | slice :: _ => do
        onStack (tsStackRemoveVersion slice.version)
        onStack (tsStackHalt version)
        pure (setExtra true lookahead)

/-! ## Handling errors -/

/-- The loops of `parser__do_potential_reductions` over the table: whether a token could be shifted,
and the reductions. -/
def potentialReductions (state : UInt16) : Bool × List ReduceAction :=
  let actions := (List.range language.tokenCount).flatMap fun symbol =>
    (language.actions state (UInt16.ofNat symbol)).getD []
  actions.foldl (fun (vars : Bool × List ReduceAction) action =>
    if action.extra then vars
    else
      match action.type with
      | .shift => (true, vars.2)
      | .recover => (true, vars.2)
      | .reduce =>
          if action.childCount > 0 then
            (vars.1, tsReduceActionSetAdd vars.2 ⟨action.childCount, action.symbol⟩)
          else vars
      | .accept => vars) (false, [])

/-- The loop of `parser__do_potential_reductions` over the reductions: whether one was done. -/
def parserTryReductions (version : ℕ) (reduceActions : List ReduceAction) :
    Program (TSParser π) Bool :=
  forEach (fun (action : ReduceAction) (didReduce : Bool) => do
    let reduction ← parserReduce language fuel version action.symbol action.count true false
    if reduction.stoppedAtError then
      match reduction.slices with
      | [] => trap
      | slice :: _ => do
          onStack (tsStackRemoveVersion slice.version)
          pure didReduce
    else pure true) reduceActions false

/-- `parser__do_potential_reductions`: whether the version is done with. -/
def parserDoPotentialReductions (version : ℕ) : Program (TSParser π) Bool := do
  let state ← onStack (tsStackTopState version)
  let previousVersionCount ← onStack tsStackVersionCount
  let (hasShiftAction, reduceActions) := potentialReductions language state
  let didReduce ← parserTryReductions language fuel version reduceActions
  if didReduce && !hasShiftAction then do
    onStack (tsStackRenumberVersion previousVersionCount version)
    pure false
  else pure true

/-- `parser__skip_preceding_trees_callback`. -/
def parserSkipPrecedingTreesCallback (lookaheadSymbol : UInt16) : StackIterateCallback Unit :=
  fun _ state trees treeCount _ _ =>
    let bytesSkipped := trees.foldl (fun bytes tree =>
      wrapAdd bytes (tsTreeTotalBytes (label tree).toTreeData)) 0
    let isReduce := ((language.actions state lookaheadSymbol).getD []).head?.any fun action =>
      decide (action.type = .reduce)
    if treeCount > 0 ∧ state ≠ errorState ∧ bytesSkipped ≠ 0 ∧ isReduce then ((true, true), ())
    else ((false, false), ())

/-- One turn of the loop of `parser__skip_preceding_trees` over the slices: the version
of the slice. -/
def parserSkipSlice (slice : StackSlice) (previousVersion : Option ℕ) : Program (TSParser π)
    (Option ℕ) :=
  if previousVersion = some slice.version then pure previousVersion
  else do
    let address ← parserAllocate
    let state ← onStack (tsStackTopState slice.version)
    parserPush slice.version (setExtra true (tsTreeMakeErrorNode address slice.trees)) state
    pure (some slice.version)

/-- `parser__skip_preceding_trees`. -/
def parserSkipPrecedingTrees (version : ℕ) (lookaheadSymbol : UInt16) :
    Program (TSParser π) Bool := do
  let (slices, _) ← onStack (stackIter (parserSkipPrecedingTreesCallback language
    lookaheadSymbol) fuel () version)
  let _ ← forEach parserSkipSlice slices none
  pure (!slices.isEmpty)

/-- The loop of `parser__handle_error` over the versions that reductions may start from. -/
def parserReduceAll (version previousVersionCount : ℕ) : Program (TSParser π) Unit :=
  loop (fun (v : ℕ) => do
    let versionCount ← onStack tsStackVersionCount
    if v < versionCount then do
      let done ← parserDoPotentialReductions language fuel v
      pure (.inl (if done then (if v = version then previousVersionCount else v + 1) else v))
    else pure (.inr ())) fuel version

/-- The loop at the end of `parser__handle_error`: merge the new versions behind the
discontinuity. -/
def parserMergeErrors (version previousVersionCount : ℕ) : Program (TSParser π) Unit :=
  loop (fun (_ : Unit) => do
    let versionCount ← onStack tsStackVersionCount
    if versionCount > previousVersionCount then do
      onStack (tsStackPush previousVersionCount none false errorState)
      let merged ← onStack (tsStackMerge fuel version previousVersionCount)
      if merged then pure (.inl ()) else trap
    else pure (.inr ())) fuel ()

/-- `parser__handle_error`. -/
def parserHandleError (version : ℕ) (lookaheadSymbol : UInt16) : Program (TSParser π) Unit := do
  let errorStatus ← onStack (tsStackErrorStatus version)
  let better ← parserBetterVersionExists fuel version
    { errorStatus with count := wrapAdd errorStatus.count 1 }
  if better then onStack (tsStackHalt version)
  else do
    let _ ← parserSkipPrecedingTrees language fuel version lookaheadSymbol
    let previousVersionCount ← onStack tsStackVersionCount
    parserReduceAll language fuel version previousVersionCount
    onStack (tsStackPush version none false errorState)
    parserMergeErrors fuel version previousVersionCount

/-- `parser__halt_parse`. -/
def parserHaltParse : Program (TSParser π) Unit := do
  onParserLexer (tsLexerAdvanceToEnd input fuel)
  let position ← onStack (tsStackTopPosition 0)
  let parser ← get
  let address ← parserAllocate
  let filler := tsTreeMakeError address (lengthSub parser.lexer.currentPosition position)
    Length.zero 0
  parserPush 0 (.node { filler.label with visible := false } []) 0
  let address ← parserAllocate
  parserPush 0 (tsTreeMakeErrorNode address []) 0
  let address ← parserAllocate
  let eof := tsTreeMakeLeaf address tsBuiltinSymEnd Length.zero Length.zero
    (language.metadata tsBuiltinSymEnd)
  let _ ← parserAccept fuel 0 eof
  pure ()

/-- The part of `parser__recover` for the end of the text. -/
def parserRecoverEof (version : ℕ) (lookahead : SyntaxTree) : Program (TSParser π) SyntaxTree :=
  if lookahead.label.symbol = tsBuiltinSymEnd then do
    let address ← parserAllocate
    parserPush version (tsTreeMakeErrorNode address []) 1
    parserAccept fuel version lookahead
  else pure lookahead

/-- `parser__recover`. -/
def parserRecover (version : ℕ) (state : UInt16) (lookahead : SyntaxTree) :
    Program (TSParser π) Unit := do
  let lookahead ← parserRecoverEof fuel version lookahead
  let newVersion ← onStack (tsStackCopyVersion version)
  let lookahead ← parserShift language newVersion errorState lookahead
    (language.metadata lookahead.label.symbol).extra
  let errorStatus ← onStack (tsStackErrorStatus newVersion)
  let better ← parserBetterVersionExists fuel version errorStatus
  guarded better (onStack (tsStackRemoveVersion newVersion))
  let _ ← parserShift language version state lookahead false
  pure ()

/-! ## Advancing -/

/-- The part of the shift action of `parser__advance` that breaks the lookahead down. -/
def parserPrepareShift (version : ℕ) (state : UInt16) (tableEntry : TableEntry)
    (lookahead : SyntaxTree) (reusableNode : ReusableNode) : Program (TSParser π)
    (SyntaxTree × ReusableNode) :=
  if 0 < lookahead.children.length then do
    let (brokenDown, lookahead, reusableNode) ←
      parserBreakdownLookahead fuel lookahead state reusableNode
    if brokenDown && !parserCanReuse language state lookahead tableEntry then do
      let reusableNode ← ofOption (reusableNodePop reusableNode)
      let (lookahead, reusableNode, _) ←
        parserGetLookahead language input fuel version reusableNode
      pure (lookahead, reusableNode)
    else pure (lookahead, reusableNode)
  else pure (lookahead, reusableNode)

/-- The shift action of `parser__advance`. -/
def parserShiftAction (version : ℕ) (state : UInt16) (tableEntry : TableEntry)
    (action : TSParseAction) (lookahead : SyntaxTree) (reusableNode : ReusableNode) :
    Program (TSParser π) ReusableNode := do
  let hadChildren := decide (0 < lookahead.children.length)
  let (lookahead, reusableNode) ←
    parserPrepareShift language input fuel version state tableEntry lookahead reusableNode
  let nextState :=
    if hadChildren then language.nextState state lookahead.label.symbol
    else if action.extra then state
    else action.toState
  let _ ← parserShift language version nextState lookahead action.extra
  parserPassReused lookahead reusableNode

/-- The loop of the recover action of `parser__advance`, which breaks the lookahead
down to a leaf. -/
def parserBreakdownToLeaf (lookahead : SyntaxTree) (reusableNode : ReusableNode) :
    Program (TSParser π) (SyntaxTree × ReusableNode) :=
  loop (fun (vars : SyntaxTree × ReusableNode) =>
    if 0 < vars.1.children.length then
      let next := (reusableNodeBreakdown vars.2).getD vars.2
      match next.cursor with
      | none => trap
      | some cursor => pure (.inl (cursor.tree, next))
    else pure (.inr vars)) fuel (lookahead, reusableNode)

/-- The loop of `parser__advance` over the actions of a table entry, with
`reduction_stopped_at_error` and `last_reduction_version`: either the last reduction, or the
reusable node when the version has advanced. -/
def parserPerform (version : ℕ) (state : UInt16) (tableEntry : TableEntry) (lookahead : SyntaxTree)
    (reusableNode : ReusableNode) :
    List TSParseAction → Bool → Option ℕ → Program (TSParser π) (Option ℕ ⊕ ReusableNode)
  | [], _, last => pure (.inl last)
  | action :: rest, stopped, last =>
      match action.type with
      | .shift => do
          let reusableNode ←
            parserShiftAction language input fuel version state tableEntry action
              lookahead reusableNode
          pure (.inr reusableNode)
      | .reduce =>
          if stopped then
            parserPerform version state tableEntry lookahead reusableNode rest stopped last
          else do
            let reduction ←
              parserReduce language fuel version action.symbol action.childCount action.fragile true
            match reduction.slices with
            | [] => trap
            | slice :: _ =>
                if reduction.stoppedAtError then do
                  let repaired ←
                    parserRepairError language fuel slice lookahead.label.firstLeafSymbol tableEntry
                  parserPerform version state tableEntry lookahead reusableNode rest true
                    (if repaired then some slice.version else last)
                else
                  parserPerform version state tableEntry lookahead reusableNode rest stopped
                    (some slice.version)
      | .accept => do
          let errorStatus ← onStack (tsStackErrorStatus version)
          if errorStatus.count > 0 then
            parserPerform version state tableEntry lookahead reusableNode rest stopped last
          else do
            let _ ← parserAccept fuel version lookahead
            pure (.inr reusableNode)
      | .recover => do
          let (lookahead, reusableNode) ← parserBreakdownToLeaf fuel lookahead reusableNode
          parserRecover language fuel version action.toState lookahead
          let reusableNode ← parserPassReused lookahead reusableNode
          pure (.inr reusableNode)

/-- One turn of the loop of `parser__advance`, with the lookahead, the reusable node and whether the
lookahead is validated. -/
def parserAdvanceTurn (version : ℕ) (vars : SyntaxTree × ReusableNode × Bool) :
    Program (TSParser π) ((SyntaxTree × ReusableNode × Bool) ⊕ ReusableNode) := do
  let (lookahead, reusableNode, validatedLookahead) := vars
  let state ← onStack (tsStackTopState version)
  let tableEntry ← ofOption (language.tableEntry state lookahead.label.firstLeafSymbol)
  if !validatedLookahead && !parserCanReuse language state lookahead tableEntry then do
    let reusableNode ← ofOption (if isReused lookahead reusableNode then
      reusableNodePopLeaf reusableNode
      else some reusableNode)
    let next ← parserGetLookahead language input fuel version reusableNode
    pure (.inl next)
  else do
    let performed ← parserPerform language input fuel version state tableEntry
      lookahead reusableNode tableEntry.actions false none
    match performed with
    | .inr reusableNode => pure (.inr reusableNode)
    | .inl (some lastReductionVersion) => do
        onStack (tsStackRenumberVersion lastReductionVersion version)
        pure (.inl (lookahead, reusableNode, true))
    | .inl none => do
        let brokenDown ← parserBreakdownTopOfStack language fuel version
        if brokenDown then pure (.inl (lookahead, reusableNode, true))
        else if state = errorState then do
          parserPush version lookahead errorState
          pure (.inr reusableNode)
        else do
          parserHandleError language fuel version lookahead.label.firstLeafSymbol
          let isHalted ← onStack (tsStackIsHalted version)
          pure (if isHalted then .inr reusableNode else .inl (lookahead, reusableNode, true))

/-- `parser__advance`: the reusable node afterwards. -/
def parserAdvance (version : ℕ) (reusableNode : ReusableNode) :
    Program (TSParser π) ReusableNode := do
  let vars ← parserGetLookahead language input fuel version reusableNode
  loop (parserAdvanceTurn language input fuel version) fuel vars

/-! ## Parsing -/

/-- The loop of `parser__condense_stack` over the versions in front of a version: its number
afterwards, and whether there was a change. -/
def parserCondenseVersion (i : ℕ) (errorStatus : ErrorStatus) : Program (TSParser π) (ℕ × Bool) :=
  loop (fun (vars : ℕ × ℕ × Bool) =>
    let (i, j, madeChange) := vars
    if j < i then do
      let merged ← onStack (tsStackMerge fuel j i)
      if merged then pure (.inr (i - 1, true))
      else do
        let other ← onStack (tsStackErrorStatus j)
        match errorStatusCompare errorStatus other with
        | .lt => do
            onStack (tsStackRemoveVersion j)
            pure (.inl (i - 1, j, true))
        | .gt => do
            -- the loop goes on with the version in front of the one removed
            onStack (tsStackRemoveVersion i)
            pure (.inl (i - 1, j + 1, true))
        | .eq => pure (.inl (i, j + 1, madeChange))
    else pure (.inr (i, madeChange))) fuel (i, 0, false)

/-- `CondenseResult`. -/
structure CondenseResult where
  /-- `CondenseResultMadeChange`. -/
  madeChange : Bool
  /-- `CondenseResultAllVersionsHadError`. -/
  allVersionsHadError : Bool
  deriving DecidableEq, Repr

/-- `parser__condense_stack`. -/
def parserCondenseStack : Program (TSParser π) CondenseResult := do
  let (madeChange, hasVersionWithoutErrors) ← loop (fun (vars : ℕ × Bool × Bool) => do
    let (i, madeChange, hasVersionWithoutErrors) := vars
    let versionCount ← onStack tsStackVersionCount
    if i < versionCount then do
      let isHalted ← onStack (tsStackIsHalted i)
      if isHalted then do
        onStack (tsStackRemoveVersion i)
        pure (.inl (i, true, hasVersionWithoutErrors))
      else do
        let errorStatus ← onStack (tsStackErrorStatus i)
        let (i, changed) ← parserCondenseVersion fuel i errorStatus
        pure (.inl (i + 1, madeChange || changed,
          hasVersionWithoutErrors || decide (errorStatus.count = 0)))
    else pure (.inr (madeChange, hasVersionWithoutErrors))) fuel (0, false, false)
  let versionCount ← onStack tsStackVersionCount
  pure ⟨madeChange, !hasVersionWithoutErrors && decide (versionCount > 0)⟩

/-- `parser__start`. -/
def parserStart (previousTree : Option SyntaxTree) : Program (TSParser π) Unit := do
  onStack tsStackClear
  modify fun parser => { parser with
    lexer := tsLexerSetInput parser.lexer
    reusableNode := reusableNodeNew previousTree
    finishedTree := none }

/-- The loop of `parser_parse` that advances a version, from the last position on: the position and
the reusable node afterwards. -/
def parserAdvanceVersion (version lastPosition : ℕ) (reusableNode : ReusableNode) :
    Program (TSParser π) (ℕ × ReusableNode) :=
  loop (fun (vars : ℕ × ReusableNode) => do
    let isHalted ← onStack (tsStackIsHalted version)
    if isHalted then pure (.inr vars)
    else do
      let top ← onStack (tsStackTopPosition version)
      if top.chars > lastPosition ∨ (version > 0 ∧ top.chars = lastPosition) then
        pure (.inr (top.chars, vars.2))
      else do
        let reusableNode ← parserAdvance language input fuel version vars.2
        pure (.inl (top.chars, reusableNode))) fuel (lastPosition, reusableNode)

/-- The loop of `parser_parse` over the versions: their number, and the position and the reusable
node afterwards. -/
def parserRound (position : ℕ) (reusableNode : ReusableNode) :
    Program (TSParser π) (ℕ × ℕ × ReusableNode) :=
  loop (fun (vars : ℕ × ℕ × ReusableNode) => do
    let (version, position, _) := vars
    let parser ← get
    if version < parser.stack.heads.length then do
      let (position, reusableNode) ←
        parserAdvanceVersion language input fuel version position parser.reusableNode
      pure (.inl (version + 1, position, reusableNode))
    else pure (.inr vars)) fuel (0, position, reusableNode)

/-- `parser_parse`. -/
def parserParse (oldTree : Option SyntaxTree) (haltOnError : Bool) :
    Program (TSParser π) SyntaxTree := do
  parserStart oldTree
  loop (fun (vars : ℕ × ReusableNode) => do
    let (version, position, reusableNode) ← parserRound language input fuel vars.1 vars.2
    modify fun parser => { parser with reusableNode := reusableNode }
    let condensed ← parserCondenseStack fuel
    if haltOnError && condensed.allVersionsHadError then do
      parserHaltParse language input fuel
      pure (.inr ())
    else do
      modify fun parser => { parser with isSplit := decide (version > 1) }
      pure (if version ≠ 0 then .inl (position, reusableNode) else .inr ())) fuel
        (0, reusableNodeNew oldTree)
  onStack tsStackClear
  let parser ← get
  let tree ← ofOption parser.finishedTree
  let tree := tsTreeAssignParents tree
  set { parser with finishedTree := some tree }
  pure tree

end Language

/-- `parser_init`. -/
def parserInit (payload : π) : TSParser π where
  lexer := tsLexerInit
  payload := payload
  stack := tsStackNew
  finishedTree := none
  isSplit := false
  scratchTree :=
    { symbol := 0, visible := false, named := false, padding := Length.zero, size := Length.zero,
      offset := Length.zero, address := 0, firstLeafSymbol := 0 }
  reusableNode := reusableNodeNew none
  nextAddress := 0

end TreeSitterTextStorage
