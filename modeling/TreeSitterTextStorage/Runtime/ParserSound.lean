import TreeSitterTextStorage.Runtime.Parser
import TreeSitterTextStorage.Runtime.StackPaths

/-! # Operations of a parse keep the text

What the operations of `parser.c` keep while a parse goes on, whatever the tables say: the stack
stands over the text, the walk through the edited tree knows where it is, and every tree leads from
one position of the text to another. -/

namespace TreeSitterTextStorage

open Program RoseTree

/-! ## Tasks -/

section Offers

variable {α : Type} (metric : Metric α) (text : List α)

/-- An edited tree offers its unmarked nodes to a parse of a text: each of them spans the text
at its byte. -/
structure Offers (next : ℕ) (root : SyntaxTree) : Prop where
  /-- The walk through the tree knows where it is. -/
  adds : BytesAddUp root.tree
  /-- The nodes that may be reused. -/
  node : ∀ cursor : Cursor NodeData, cursor.root = root → cursor.tree.label.hasChanges = false →
    ∃ p q, p.bytes = cursorByte cursor ∧ Leads metric text next p q cursor.tree

end Offers

/-- What a parse works on: a text, and the edited tree of an earlier parse. -/
structure ParseTask (α : Type) {π : Type} (language : TSLanguage) (input : TSInput π) where
  /-- The measures of the characters. -/
  metric : Metric α
  /-- The text. -/
  text : List α
  /-- The text is as long as the source can say. -/
  short : metric.bytesOf text < 2 ^ 32
  /-- The edited tree. -/
  old : Option SyntaxTree
  /-- The address below which the tree was allocated. -/
  base : ℕ
  /-- The tree offers its nodes. -/
  offers : ∀ root, old = some root → Offers metric text base root
  /-- What the lexer and the payload of the input satisfy. -/
  ready : Lexer × π → Prop
  /-- A token leads on from where it is lexed. -/
  lexes : ∀ {fuel address : ℕ} {parseState : UInt16} {p : Length} {leaf : SyntaxTree}
    {state next : Lexer × π}, ready state → Stretch metric text p p [] →
    lexLeaf language input fuel address parseState p state = some (leaf, next) →
    ready next ∧ leaf.children = [] ∧ ∃ q, Leads metric text (address + 1) p q leaf

/-- The walk stands in the edited tree at the byte that `byte_index` says, or behind its end. -/
def ReusableNode.PlacedIn (old : Option SyntaxTree) (self : ReusableNode) : Prop :=
  ∀ cursor, self.cursor = some cursor → old = some cursor.root ∧ self.byteIndex = cursorByte cursor

theorem ReusableNode.placedIn_some_iff {root : SyntaxTree} {self : ReusableNode} :
    self.PlacedIn (some root) ↔ self.Placed root := by
  constructor
  · intro h cursor hcursor
    obtain ⟨hroot, hbyte⟩ := h cursor hcursor
    exact ⟨(Option.some.inj hroot).symm, hbyte⟩
  · intro h cursor hcursor
    obtain ⟨rfl, hbyte⟩ := h cursor hcursor
    exact ⟨rfl, hbyte⟩

theorem ReusableNode.placedIn_none_iff {self : ReusableNode} : self.PlacedIn none ↔
    self.cursor = none := by
  rw [Option.eq_none_iff_forall_ne_some]
  constructor
  · intro h cursor hcursor
    exact absurd (h cursor hcursor).1 (Option.some_ne_none _).symm
  · intro h cursor hcursor
    exact absurd hcursor (h cursor)

theorem placedIn_reusableNodeNew (old : Option SyntaxTree) :
    (reusableNodeNew old).PlacedIn old := by
  cases old with
  | none => exact ReusableNode.placedIn_none_iff.mpr rfl
  | some root => exact ReusableNode.placedIn_some_iff.mpr (placed_reusableNodeNew root)

section Task

variable {α π : Type} {language : TSLanguage} {input : TSInput π}
  (task : ParseTask α language input)

/-- A tree of the parse leads from one position to another. -/
abbrev ParseTask.Leads (next : ℕ) (p q : Length) (tree : SyntaxTree) : Prop :=
  TreeSitterTextStorage.Leads task.metric task.text next p q tree

/-- Trees of the parse lead from one position to another. -/
abbrev ParseTask.LeadAmong (next : ℕ) (p q : Length) (trees : List SyntaxTree) : Prop :=
  TreeSitterTextStorage.LeadAmong task.metric task.text next p q trees

/-- A finished tree spans the text, but for text that was lost and for text at the end. -/
def ParseTask.Finished (next : ℕ) (tree : SyntaxTree) : Prop :=
  ∃ front lost back rest, task.text = front ++ (lost ++ (back ++ rest)) ∧
    Built task.metric next tree (front ++ back)

/-- A parser that works on a task and has allocated no less than up to `since`. Its versions end at
positions. -/
structure TSParser.Sound (since : ℕ) (positions : List (Option Length))
    (parser : TSParser π) : Prop where
  /-- What was allocated at some time is allocated. -/
  since_le : since ≤ parser.nextAddress
  /-- The edited tree is allocated. -/
  base_le : task.base ≤ parser.nextAddress
  /-- The stack stands over the text. -/
  stack : parser.stack.Stands task.metric task.text parser.nextAddress positions
  /-- The finished tree spans the text. -/
  finished : ∀ tree, parser.finishedTree = some tree → task.Finished parser.nextAddress tree
  /-- The lexer is ready. -/
  ready : task.ready (parser.lexer, parser.payload)
  /-- The walk is in the edited tree. -/
  reusable : parser.reusableNode.PlacedIn task.old

/-- A lookahead of a version that ends at a position, with the walk through the edited tree, which
stands at the lookahead when that is not a token. -/
structure ParseTask.Looks (next : ℕ) (p : Length) (lookahead : SyntaxTree)
    (reusable : ReusableNode) : Prop where
  /-- The lookahead leads on from the position. -/
  leads : ∃ q, task.Leads next p q lookahead
  /-- The walk is in the edited tree. -/
  placed : reusable.PlacedIn task.old
  /-- The walk stands at the lookahead. -/
  inner : lookahead.children ≠ [] →
    ∃ cursor, reusable.cursor = some cursor ∧ cursor.tree = lookahead

variable {task} {since next next' : ℕ} {positions : List (Option Length)} {parser : TSParser π}
  {p q : Length} {tree lookahead : SyntaxTree} {reusable : ReusableNode}

theorem ParseTask.Finished.mono (h : task.Finished next tree) (hle : next ≤ next') :
    task.Finished next' tree := by
  obtain ⟨front, lost, back, rest, htext, hbuilt⟩ := h
  exact ⟨front, lost, back, rest, htext, hbuilt.mono hle⟩

theorem ParseTask.Looks.mono (h : task.Looks next p lookahead reusable) (hle : next ≤ next') :
    task.Looks next' p lookahead reusable := by
  obtain ⟨q, hleads⟩ := h.leads
  exact ⟨⟨q, hleads.mono hle⟩, h.placed, h.inner⟩

/-- What is allocated now stays allocated. -/
theorem TSParser.Sound.now (h : parser.Sound task since positions) :
    parser.Sound task parser.nextAddress positions :=
  { h with since_le := Nat.le_refl _ }

/-- What was allocated earlier is allocated. -/
theorem TSParser.Sound.earlier {since' : ℕ} (h : parser.Sound task since positions)
    (hle : since' ≤ since) : parser.Sound task since' positions :=
  { h with since_le := Nat.le_trans hle h.since_le }

/-- A parser with another stack. -/
theorem TSParser.Sound.withStack {stack : Stack} {positions' : List (Option Length)}
    (h : parser.Sound task since positions)
    (hstack : stack.Stands task.metric task.text parser.nextAddress positions') :
    TSParser.Sound task since positions' { parser with stack := stack } :=
  { h with stack := hstack }

/-! ## Operations on the stack -/

section OnStack

variable {β γ : Type} {program : Program Stack γ} {result : β} {parser' : TSParser π}

theorem onStack_eq_some_iff {value : γ} : onStack program parser = some (value, parser') ↔
    ∃ stack, program parser.stack = some (value, stack) ∧ parser' =
      { parser with stack := stack } := by
  rw [onStack, zoom, Option.map_eq_some_iff]
  constructor
  · rintro ⟨⟨value', stack⟩, hrun, heq⟩
    obtain ⟨rfl, rfl⟩ := Prod.mk.inj heq
    exact ⟨stack, hrun, rfl⟩
  · rintro ⟨stack, hrun, rfl⟩
    exact ⟨(value, stack), hrun, rfl⟩

/-- A program that only reads. -/
def Reads {σ : Type} (program : Program σ γ) : Prop :=
  ∀ state value next, program state = some (value, next) → next = state

/-- Reading the stack leaves the parser alone. -/
theorem eq_of_reads (hreads : Reads program) {value : γ}
    (hrun : onStack program parser = some (value, parser')) : parser = parser' := by
  obtain ⟨stack, hread, rfl⟩ := onStack_eq_some_iff.mp hrun
  rw [hreads _ _ _ hread]

/-- What an operation does that starts with reading the stack. -/
theorem onStack_bind_eq_some_iff (hreads : Reads program) {rest : γ → Program (TSParser π) β} :
    (onStack program >>= rest) parser = some (result, parser') ↔
      ∃ value, program parser.stack = some (value, parser.stack) ∧
        rest value parser = some (result, parser') := by
  simp only [bind_eq_some_iff, onStack_eq_some_iff]
  constructor
  · rintro ⟨value, _, ⟨stack, hrun, rfl⟩, hrest⟩
    obtain rfl := hreads _ _ _ hrun
    exact ⟨value, hrun, hrest⟩
  · rintro ⟨value, hrun, hrest⟩
    exact ⟨value, parser, ⟨parser.stack, hrun, rfl⟩, hrest⟩

end OnStack

section Reading

variable (version : ℕ)

theorem reads_topState : Reads (tsStackTopState version) := by
  intro stack state next hrun
  rw [tsStackTopState, stackHead_bind_eq_some_iff] at hrun
  obtain ⟨head, -, hrun⟩ := hrun
  rw [stackNode_bind_eq_some_iff] at hrun
  obtain ⟨node, -, hrun⟩ := hrun
  exact (pure_eq_some_iff.mp hrun).2.symm

theorem reads_topPosition : Reads (tsStackTopPosition version) := by
  intro stack position next hrun
  rw [tsStackTopPosition, stackHead_bind_eq_some_iff] at hrun
  obtain ⟨head, -, hrun⟩ := hrun
  rw [stackNode_bind_eq_some_iff] at hrun
  obtain ⟨node, -, hrun⟩ := hrun
  exact (pure_eq_some_iff.mp hrun).2.symm

theorem reads_errorStatus : Reads (tsStackErrorStatus version) := by
  intro stack status next hrun
  rw [tsStackErrorStatus, stackHead_bind_eq_some_iff] at hrun
  obtain ⟨head, -, hrun⟩ := hrun
  rw [stackNode_bind_eq_some_iff] at hrun
  obtain ⟨node, -, hrun⟩ := hrun
  exact (pure_eq_some_iff.mp hrun).2.symm

theorem reads_isHalted : Reads (tsStackIsHalted version) := by
  intro stack isHalted next hrun
  rw [tsStackIsHalted, stackHead_bind_eq_some_iff] at hrun
  obtain ⟨head, -, hrun⟩ := hrun
  exact (pure_eq_some_iff.mp hrun).2.symm

theorem reads_versionCount : Reads tsStackVersionCount := by
  intro stack count next hrun
  rw [tsStackVersionCount, get_bind] at hrun
  exact (pure_eq_some_iff.mp hrun).2.symm

end Reading

/-- A version ends at a position of the text. -/
theorem Stack.Stands.position {α : Type} {metric : Metric α} {text : List α} {stack : Stack}
    {version : ℕ} (h : stack.Stands metric text next positions)
    (hversion : positions[version]? = some (some p)) : Stretch metric text p p [] := by
  obtain ⟨place, hsound, rfl⟩ := h
  obtain ⟨head, hhead, hp⟩ := Stack.positions_eq_some_iff.mp hversion
  obtain ⟨node, hnode, hstands⟩ := hsound.node _ _ hp
  exact hstands.stop

/-- `ts_stack_top_position` returns where the version ends. -/
theorem Stack.Stands.topPosition {α : Type} {metric : Metric α} {text : List α}
    {stack stack' : Stack}
    {version : ℕ} {position : Length} (h : stack.Stands metric text next positions)
    (hversion : positions[version]? = some (some p))
    (hrun : tsStackTopPosition version stack = some (position, stack')) :
    position = p ∧ Stretch metric text p p [] := by
  rw [tsStackTopPosition, stackHead_bind_eq_some_iff] at hrun
  obtain ⟨head, hhead, hrun⟩ := hrun
  rw [stackNode_bind_eq_some_iff] at hrun
  obtain ⟨node, hnode, hrun⟩ := hrun
  obtain ⟨rfl, -⟩ := pure_eq_some_iff.mp hrun
  exact h.top hversion hhead hnode

/-- `ts_stack_version_count` counts the positions. -/
theorem Stack.Stands.versionCount {α : Type} {metric : Metric α} {text : List α}
    {stack stack' : Stack} {count : ℕ} (h : stack.Stands metric text next positions)
    (hrun : tsStackVersionCount stack = some (count, stack')) : count = positions.length := by
  rw [tsStackVersionCount, get_bind] at hrun
  rw [h.length_eq, ← (pure_eq_some_iff.mp hrun).1]

/-- Where a version that goes on ends. -/
theorem Stack.Stands.going {α : Type} {metric : Metric α} {text : List α} {stack stack' : Stack}
    {version : ℕ} (h : stack.Stands metric text next positions)
    (hrun : tsStackIsHalted version stack = some (false, stack')) :
    ∃ p, positions[version]? = some (some p) := by
  rw [tsStackIsHalted, stackHead_bind_eq_some_iff] at hrun
  obtain ⟨head, hhead, hrun⟩ := hrun
  exact h.exists_position hhead (pure_eq_some_iff.mp hrun).1

/-- The position that was set. -/
theorem getElem?_set_position {version : ℕ} (hversion : positions[version]? = some (some p)) :
    (positions.set version (some q))[version]? = some (some q) := by
  rw [List.getElem?_set_self (List.getElem?_eq_some_iff.mp hversion).1]

/-- Setting the position that is there. -/
theorem set_position_self {version : ℕ} (hversion : positions[version]? = some (some p)) :
    positions.set version (some p) = positions := by
  obtain ⟨hlt, hget⟩ := List.getElem?_eq_some_iff.mp hversion
  rw [← hget, List.set_getElem_self]

/-! ## Nodes and pushes -/

section Push

variable {parser' : TSParser π}

theorem parserAllocate_eq_some_iff {address : ℕ} : parserAllocate parser = some (address, parser') ↔
    address = parser.nextAddress ∧ parser' =
      { parser with nextAddress := parser.nextAddress + 1 } := by
  rw [parserAllocate, get_bind, set_bind, pure_eq_some_iff]
  exact and_congr eq_comm eq_comm

/-- A parser that has allocated a node. -/
theorem TSParser.Sound.allocate (h : parser.Sound task since positions) :
    TSParser.Sound task (parser.nextAddress + 1) positions
      { parser with nextAddress := parser.nextAddress + 1 } where
  since_le := Nat.le_refl _
  base_le := Nat.le_succ_of_le h.base_le
  stack := h.stack.mono (Nat.le_succ _)
  finished tree htree := (h.finished tree htree).mono (Nat.le_succ _)
  ready := h.ready
  reusable := h.reusable

/-- The flag of a tree says nothing about the text. -/
theorem leads_setExtra {extra : Bool} (h : task.Leads next p q tree) :
    task.Leads next p q (setExtra extra tree) := by
  obtain ⟨own, hown, hbuilt⟩ := h
  obtain ⟨self, children⟩ := tree
  exact ⟨own, hown, hbuilt.congr rfl rfl rfl rfl rfl rfl rfl⟩

variable {version : ℕ} {state : UInt16} {result : PUnit} (h : parser.Sound task since positions)
  (hversion : positions[version]? = some (some p))
include h hversion

/-- Pushing a tree that leads on from where the version ends. -/
theorem TSParser.Sound.pushPending {isPending : Bool} (htree : task.Leads since p q tree)
    (hbreak : isPending = true → tree.children ≠ [])
    (hrun : onStack (tsStackPush version (some tree) isPending state) parser =
      some (result, parser')) :
    parser'.Sound task since (positions.set version (some q)) := by
  obtain ⟨stack, hpush, rfl⟩ := onStack_eq_some_iff.mp hrun
  have hlink : LinkSpans task.metric task.text parser.nextAddress p q (some tree) :=
    htree.mono h.since_le
  refine h.withStack (tsStackPush_stands task.short h.stack hversion hlink ?_ hpush)
  rintro hpending tree' htree'
  obtain rfl := Option.some.inj htree'
  exact hbreak hpending

/-- Pushing the discontinuity of an error. -/
theorem TSParser.Sound.pushError
    (hrun : onStack (tsStackPush version none false state) parser = some (result, parser')) :
    parser'.Sound task since positions := by
  obtain ⟨stack, hpush, rfl⟩ := onStack_eq_some_iff.mp hrun
  have hlink : LinkSpans task.metric task.text parser.nextAddress p p none :=
    h.stack.position hversion
  have hpushed := tsStackPush_stands task.short h.stack hversion hlink
    (fun hfalse => absurd hfalse Bool.false_ne_true) hpush
  rw [set_position_self hversion] at hpushed
  exact h.withStack hpushed

/-- `parser__push`. -/
theorem TSParser.Sound.push (htree : task.Leads since p q tree)
    (hrun : parserPush version tree state parser = some (result, parser')) :
    parser'.Sound task since (positions.set version (some q)) :=
  h.pushPending hversion htree (fun hfalse => absurd hfalse Bool.false_ne_true) hrun

end Push

section PushAll

variable {parser' : TSParser π} {version : ℕ} {state : UInt16}

/-- Pushing trees one by one. -/
theorem TSParser.Sound.pushAll {trees : List SyntaxTree} {result : PUnit}
    (h : parser.Sound task since positions) (hversion : positions[version]? = some (some p))
    (htrees : task.LeadAmong since p q trees)
    (hrun : parserPushAll version trees state parser = some (result, parser')) :
    parser'.Sound task since (positions.set version (some q)) := by
  induction trees generalizing parser positions p with
  | nil =>
      obtain ⟨rfl, -⟩ := leadAmong_nil_iff.mp htrees
      rw [parserPushAll, forEach, pure_eq_some_iff] at hrun
      rw [set_position_self hversion, ← hrun.2]
      exact h
  | cons tree rest ih =>
      obtain ⟨r, htree, hrest⟩ := leadAmong_cons.mp htrees
      rw [parserPushAll, forEach, bind_eq_some_iff] at hrun
      obtain ⟨_, middle, hpush, hrun⟩ := hrun
      have hnext := ih (h.push hversion htree hpush) (getElem?_set_position hversion) hrest hrun
      rwa [List.set_set] at hnext

/-- Pushing the children of a tree that is broken down. -/
theorem TSParser.Sound.pushChildren {trees : List SyntaxTree} {pending : Bool}
    {result : UInt16 × Bool} (h : parser.Sound task since positions)
    (hversion : positions[version]? = some (some p)) (htrees : task.LeadAmong since p q trees)
    (hrun : parserPushChildren language version trees state pending parser =
      some (result, parser')) :
    parser'.Sound task since (positions.set version (some q)) := by
  induction trees generalizing parser positions p state pending with
  | nil =>
      obtain ⟨rfl, -⟩ := leadAmong_nil_iff.mp htrees
      rw [parserPushChildren, forEach, pure_eq_some_iff] at hrun
      rw [set_position_self hversion, ← hrun.2]
      exact h
  | cons tree rest ih =>
      obtain ⟨r, htree, hrest⟩ := leadAmong_cons.mp htrees
      rw [parserPushChildren, forEach, bind_eq_some_iff] at hrun
      obtain ⟨_, middle, hturn, hrun⟩ := hrun
      rw [bind_eq_some_iff] at hturn
      obtain ⟨_, pushed, hpush, hturn⟩ := hturn
      obtain ⟨rfl, rfl⟩ := pure_eq_some_iff.mp hturn
      have hpushed := h.pushPending hversion htree
        (fun hpending => List.ne_nil_of_length_pos (of_decide_eq_true hpending)) hpush
      have hnext := ih hpushed (getElem?_set_position hversion) hrest hrun
      rwa [List.set_set] at hnext

end PushAll

/-! ## Versions -/

/-- A version that is given up. -/
def TSParser.HaltedAt (version : ℕ) (parser : TSParser π) : Prop :=
  ∃ head, parser.stack.heads[version]? = some head ∧ head.isHalted = true

section Versions

variable {parser' : TSParser π} {version : ℕ} {result : PUnit}

/-- Changing a version that is not taken up again. -/
theorem TSParser.Sound.modifyHead {f : StackHead → StackHead}
    (h : parser.Sound task since positions) (hnode : ∀ head, (f head).node = head.node)
    (hhalted : ∀ head, (f head).isHalted = false → head.isHalted = false)
    (hrun : onStack (modifyHead version f) parser = some (result, parser')) :
    parser'.Sound task since positions ∧ ∀ version', parser.HaltedAt version' →
      parser'.HaltedAt version' := by
  obtain ⟨stack, hmodify, rfl⟩ := onStack_eq_some_iff.mp hrun
  refine ⟨h.withStack (modifyHead_stands h.stack hnode hhalted hmodify), ?_⟩
  rintro version' ⟨head', hhead', hhalted'⟩
  rw [TreeSitterTextStorage.modifyHead, stackHead_bind_eq_some_iff] at hmodify
  obtain ⟨head, hhead, hmodify⟩ := hmodify
  obtain rfl := modify_eq_some_iff.mp hmodify
  show ∃ head', (parser.stack.heads.set version (f head))[version']? = some head' ∧ _
  rw [List.getElem?_set]
  split
  · next hsame =>
      subst hsame
      rw [hhead, Option.some.injEq] at hhead'
      subst hhead'
      refine ⟨f head, if_pos (List.getElem?_eq_some_iff.mp hhead).1, ?_⟩
      cases hgoing : (f head).isHalted with
      | true => rfl
      | false => exact (hhalted head hgoing).symm.trans hhalted'
  · exact ⟨head', hhead', hhalted'⟩

/-- `ts_stack_halt`. -/
theorem TSParser.Sound.halt (h : parser.Sound task since positions)
    (hrun : onStack (tsStackHalt version) parser = some (result, parser')) :
    parser'.Sound task since positions ∧ ∀ version', parser.HaltedAt version' →
      parser'.HaltedAt version' := by
  refine h.modifyHead ?_ ?_ hrun
  · exact fun head => rfl
  · exact fun head hgoing => absurd hgoing.symm Bool.false_ne_true

/-- A version is given up behind `ts_stack_halt`. -/
theorem haltedAt_halt (hrun : onStack (tsStackHalt version) parser = some (result, parser')) :
    parser'.HaltedAt version := by
  obtain ⟨stack, hhalt, rfl⟩ := onStack_eq_some_iff.mp hrun
  rw [tsStackHalt, modifyHead, stackHead_bind_eq_some_iff] at hhalt
  obtain ⟨head, hhead, hhalt⟩ := hhalt
  obtain rfl := modify_eq_some_iff.mp hhalt
  exact ⟨_, List.getElem?_set_self (List.getElem?_eq_some_iff.mp hhead).1, rfl⟩

/-- `ts_stack_decrease_push_count`. -/
theorem TSParser.Sound.decreasePushCount {decrement : ℕ} (h : parser.Sound task since positions)
    (hrun : onStack (tsStackDecreasePushCount version decrement) parser = some (result, parser')) :
    parser'.Sound task since positions := by
  refine (h.modifyHead ?_ ?_ hrun).1
  · exact fun head => rfl
  · exact fun head hgoing => hgoing

/-- `ts_stack_remove_version`. -/
theorem TSParser.Sound.removeVersion (h : parser.Sound task since positions)
    (hrun : onStack (tsStackRemoveVersion version) parser = some (result, parser')) :
    parser'.Sound task since (positions.eraseIdx version) := by
  obtain ⟨stack, hremove, rfl⟩ := onStack_eq_some_iff.mp hrun
  exact h.withStack (tsStackRemoveVersion_stands h.stack hremove)

/-- **`parser__better_version_exists`** leaves the versions where they are, and those that were
given up are not taken up again. -/
theorem TSParser.Sound.betterVersionExists {fuel : ℕ} {myErrorStatus : ErrorStatus} {better : Bool}
    (h : parser.Sound task since positions)
    (hrun : parserBetterVersionExists fuel version myErrorStatus parser = some (better, parser')) :
    parser'.Sound task since positions ∧ ∀ version', parser.HaltedAt version' →
      parser'.HaltedAt version' := by
  rw [parserBetterVersionExists, get_bind] at hrun
  split at hrun
  · obtain ⟨-, rfl⟩ := pure_eq_some_iff.mp hrun
    exact ⟨h, fun _ => id⟩
  · -- every turn leaves the versions or gives one up
    refine @Triple.loop _ _ _ (fun _ parser' => parser'.Sound task since positions ∧
      ∀ version', parser.HaltedAt version' → parser'.HaltedAt version') _ (fun _ parser' =>
        parser'.Sound task since positions ∧ ∀ version', parser.HaltedAt version' →
          parser'.HaltedAt version')
      ?_ fuel 0 parser better parser' ⟨h, fun _ => id⟩ hrun
    rintro i middle turn next ⟨hsound, hhalted⟩ hturn
    split at hturn
    · rw [onStack_bind_eq_some_iff (reads_isHalted i)] at hturn
      obtain ⟨isHalted, -, hturn⟩ := hturn
      split at hturn
      · obtain ⟨rfl, rfl⟩ := pure_eq_some_iff.mp hturn
        exact ⟨hsound, hhalted⟩
      · rw [onStack_bind_eq_some_iff (reads_errorStatus i)] at hturn
        obtain ⟨status, -, hturn⟩ := hturn
        cases hcompare : errorStatusCompare myErrorStatus status with
        | lt =>
            rw [hcompare, bind_eq_some_iff] at hturn
            obtain ⟨_, halted, hhalt, hturn⟩ := hturn
            obtain ⟨rfl, rfl⟩ := pure_eq_some_iff.mp hturn
            obtain ⟨hsound', hhalted'⟩ := hsound.halt hhalt
            exact ⟨hsound', fun version' hversion' =>
              hhalted' version' (hhalted version' hversion')⟩
        | gt =>
            rw [hcompare] at hturn
            obtain ⟨rfl, rfl⟩ := pure_eq_some_iff.mp hturn
            exact ⟨hsound, hhalted⟩
        | eq =>
            rw [hcompare] at hturn
            obtain ⟨rfl, rfl⟩ := pure_eq_some_iff.mp hturn
            exact ⟨hsound, hhalted⟩
    · obtain ⟨rfl, rfl⟩ := pure_eq_some_iff.mp hturn
      exact ⟨hsound, hhalted⟩

end Versions

/-! ## Breaking down the top of the stack -/

section Breakdown

variable {parser' : TSParser π} {version : ℕ}

/-- Pushing adds no versions. -/
theorem length_heads_push {pushed : Option SyntaxTree} {isPending : Bool} {state : UInt16}
    {result : PUnit} (hrun : onStack (tsStackPush version pushed isPending state) parser =
    some (result, parser')) :
    parser'.stack.heads.length = parser.stack.heads.length := by
  obtain ⟨stack, hpush, rfl⟩ := onStack_eq_some_iff.mp hrun
  obtain ⟨head, below, node, pushCount, -, -, -, -, rfl⟩ := tsStackPush_eq_some hpush
  exact List.length_set

/-- A slice that is broken down has a version, and no versions are added. -/
theorem length_heads_breakdownSlice {slice : StackSlice} {pending result : Bool}
    (hrun : parserBreakdownSlice language slice pending parser = some (result, parser')) :
    slice.version < parser.stack.heads.length ∧
      parser'.stack.heads.length = parser.stack.heads.length := by
  rw [parserBreakdownSlice, onStack_bind_eq_some_iff (reads_topState _)] at hrun
  obtain ⟨state, hstate, hrun⟩ := hrun
  rw [tsStackTopState, stackHead_bind_eq_some_iff] at hstate
  obtain ⟨head, hhead, -⟩ := hstate
  refine ⟨(List.getElem?_eq_some_iff.mp hhead).1, ?_⟩
  cases htrees : slice.trees with
  | nil =>
      rw [htrees] at hrun
      exact absurd hrun (by simp only [trap_eq_some_iff, not_false_eq_true])
  | cons parent extras =>
      rw [htrees] at hrun
      simp only [bind_eq_some_iff] at hrun
      obtain ⟨vars, children, hchildren, _, pushed, hpushed, _, last, hlast, hrun⟩ := hrun
      obtain ⟨rfl, rfl⟩ := pure_eq_some_iff.mp hrun
      -- first the children of the pending tree are pushed, then the extras that were on top of it
      have hcount : children.stack.heads.length = parser.stack.heads.length := by
        refine @Triple.forEach _ _ _ _ (fun _ middle => middle.stack.heads.length =
          parser.stack.heads.length) _ (fun child _ vars => ?_) _ parser vars children rfl hchildren
        rintro middle vars' next hmiddle hturn
        rw [bind_eq_some_iff] at hturn
        obtain ⟨_, pushed, hpush, hturn⟩ := hturn
        obtain ⟨-, rfl⟩ := pure_eq_some_iff.mp hturn
        exact (length_heads_push hpush).trans hmiddle
      have hextras : pushed.stack.heads.length = children.stack.heads.length := by
        refine @Triple.forEach _ _ _ _ (fun _ middle => middle.stack.heads.length =
          children.stack.heads.length) _ (fun extra _ _ => ?_) () children _ pushed rfl hpushed
        rintro middle _ next hmiddle hpush
        exact (length_heads_push hpush).trans hmiddle
      obtain ⟨stack, hmodify, rfl⟩ := onStack_eq_some_iff.mp hlast
      rw [tsStackDecreasePushCount, modifyHead, stackHead_bind_eq_some_iff] at hmodify
      obtain ⟨head, -, hmodify⟩ := hmodify
      obtain rfl := modify_eq_some_iff.mp hmodify
      exact (List.length_set.trans hextras).trans hcount

/-- A pass that breaks down slices finds a version for each of them. -/
theorem version_lt_of_breakdownSlices {slices : List StackSlice} {pending result : Bool}
    (hrun : forEach (parserBreakdownSlice language) slices pending parser =
      some (result, parser')) :
    ∀ slice ∈ slices, slice.version < parser.stack.heads.length := by
  induction slices generalizing parser pending with
  | nil => exact fun slice hslice => absurd hslice List.not_mem_nil
  | cons slice rest ih =>
      rw [forEach, bind_eq_some_iff] at hrun
      obtain ⟨pending', middle, hslice, hrest⟩ := hrun
      obtain ⟨hlt, hcount⟩ := length_heads_breakdownSlice hslice
      intro slice' hslice'
      rcases List.mem_cons.mp hslice' with rfl | hmem
      · exact hlt
      · exact hcount ▸ ih hrest slice' hmem

/-- A slice is broken down where its version ends, and the version is led back to where it was. -/
theorem TSParser.Sound.breakdownSlice {trees : List SyntaxTree} {pending result : Bool}
    (h : parser.Sound task since positions) (hversion : positions[version]? = some (some p))
    (htrees : task.LeadAmong since p q trees) (hpending : PendingTrees trees)
    (hrun : parserBreakdownSlice language ⟨trees, version⟩ pending parser =
      some (result, parser')) :
    parser'.Sound task since (positions.set version (some q)) := by
  rw [parserBreakdownSlice, onStack_bind_eq_some_iff (reads_topState _)] at hrun
  obtain ⟨state, -, hrun⟩ := hrun
  cases trees with
  | nil => exact absurd hpending id
  | cons parent extras =>
      obtain ⟨r, hparent, hextras⟩ := leadAmong_cons.mp htrees
      simp only [bind_eq_some_iff] at hrun
      obtain ⟨vars, children, hchildren, _, pushed, hpushed, _, last, hlast, hrun⟩ := hrun
      obtain ⟨rfl, rfl⟩ := pure_eq_some_iff.mp hrun
      have hsound := h.pushChildren hversion (hparent.children hpending.1) hchildren
      have hsound' := hsound.pushAll (getElem?_set_position hversion) hextras hpushed
      rw [List.set_set] at hsound'
      exact hsound'.decreasePushCount hlast

/-- **`parser__breakdown_top_of_stack`** leaves the versions where they are. -/
theorem TSParser.Sound.breakdownTopOfStack {fuel : ℕ} {didBreakDown : Bool}
    (h : parser.Sound task since positions) (hversion : positions[version]? = some (some p))
    (hrun : parserBreakdownTopOfStack language fuel version parser = some (didBreakDown, parser')) :
    parser'.Sound task since positions := by
  refine @Triple.loop _ _ _ (fun _ parser' => parser'.Sound task since positions) _
    (fun _ parser' => parser'.Sound task since positions) ?_ fuel false parser didBreakDown
    parser' h hrun
  rintro didBreakDown middle turn next hsound hturn
  rw [bind_eq_some_iff] at hturn
  obtain ⟨slices, popped, hpop, hturn⟩ := hturn
  obtain ⟨stack, hpending, rfl⟩ := onStack_eq_some_iff.mp hpop
  rcases tsStackPopPending_stands hsound.stack hversion hpending with
    ⟨rfl, hstands⟩ | ⟨trees, r, own, rfl, htrees, hstands, hown, hbuilt⟩ | ⟨slice, hslice, hstale⟩
  · obtain ⟨rfl, rfl⟩ := pure_eq_some_iff.mp hturn
    exact hsound.withStack hstands
  · -- one path: its children and extras lead back to where the version was
    simp only [List.isEmpty_cons, Bool.false_eq_true, if_false, forEach, bind_eq_some_iff,
      pure_eq_some_iff] at hturn
    obtain ⟨_, _, ⟨pending, last, hlast, rfl, rfl⟩, rfl, rfl⟩ := hturn
    have hpopped := (hsound.now.withStack hstands).breakdownSlice (getElem?_set_position hversion)
      ⟨own, hown, hbuilt⟩ htrees hlast
    rw [List.set_set, set_position_self hversion] at hpopped
    have hbroken := hpopped.earlier hsound.since_le
    cases pending with
    | true => exact hbroken
    | false => exact hbroken
  · -- one of several paths has a version that there is no more
    have hne : slices.isEmpty = false := by
      rw [List.isEmpty_eq_false_iff]
      exact List.ne_nil_of_mem hslice
    rw [hne, if_neg Bool.false_ne_true, bind_eq_some_iff] at hturn
    obtain ⟨pending, last, hslices, -⟩ := hturn
    exact absurd (version_lt_of_breakdownSlices hslices slice hslice) (Nat.not_lt.mpr hstale)

end Breakdown

/-! ## Lookaheads -/

section Lookahead

variable {parser' : TSParser π} {version : ℕ}

/-- The bytes of the edited tree add up. -/
theorem ParseTask.adds (task : ParseTask α language input) {root : SyntaxTree}
    (hroot : task.old = some root) : BytesAddUp root.tree :=
  (task.offers root hroot).adds

/-- Going behind a node. -/
theorem ReusableNode.PlacedIn.pop {reusable' : ReusableNode} (h : reusable.PlacedIn task.old)
    (hnext : reusableNodePop reusable = some reusable') : reusable'.PlacedIn task.old := by
  obtain ⟨cursor, hcursor, -⟩ := reusableNodePop_eq_some_iff.mp hnext
  have hold := (h cursor hcursor).1
  rw [hold, ReusableNode.placedIn_some_iff] at h ⊢
  exact h.pop (task.adds hold) hnext

/-- Going behind the first leaf of a node. -/
theorem ReusableNode.PlacedIn.popLeaf {reusable' : ReusableNode} (h : reusable.PlacedIn task.old)
    (hnext : reusableNodePopLeaf reusable = some reusable') : reusable'.PlacedIn task.old := by
  obtain ⟨leaf, hleaf, -⟩ := reusableNodePop_eq_some_iff.mp hnext
  obtain ⟨cursor, hcursor, -⟩ := Option.map_eq_some_iff.mp hleaf
  have hold := (h cursor hcursor).1
  rw [hold, ReusableNode.placedIn_some_iff] at h ⊢
  exact h.popLeaf (task.adds hold) hnext

/-- Going behind the lookahead, when the walk stands at it. -/
theorem ReusableNode.PlacedIn.passReused {reusable' : ReusableNode} {parser' : TSParser π}
    (h : reusable.PlacedIn task.old)
    (hrun : parserPassReused lookahead reusable parser = some (reusable', parser')) :
    parser = parser' ∧ reusable'.PlacedIn task.old := by
  rw [parserPassReused] at hrun
  split at hrun
  · obtain ⟨hnext, rfl⟩ := ofOption_eq_some_iff.mp hrun
    exact ⟨rfl, h.pop hnext⟩
  · obtain ⟨rfl, rfl⟩ := pure_eq_some_iff.mp hrun
    exact ⟨rfl, h⟩

/-- Going to the first child of a node. -/
theorem ReusableNode.PlacedIn.breakdown {reusable' : ReusableNode} (h : reusable.PlacedIn task.old)
    (hnext : reusableNodeBreakdown reusable = some reusable') : reusable'.PlacedIn task.old := by
  obtain ⟨cursor, child, hcursor, -, -⟩ := reusableNodeBreakdown_eq_some_iff.mp hnext
  have hold := (h cursor hcursor).1
  rw [hold, ReusableNode.placedIn_some_iff] at h ⊢
  exact h.breakdown (task.adds hold) hnext

/-- A turn of the loop of `parser__get_lookahead` goes on in the edited tree, or it finds
a lookahead. -/
theorem ReusableNode.PlacedIn.turn (h : reusable.PlacedIn task.old) :
    (∀ reusable', lookaheadTurn p.bytes reusable = .next reusable' ∨
        lookaheadTurn p.bytes reusable = .broken reusable' → reusable'.PlacedIn task.old) ∧
      ∀ cursor, lookaheadTurn p.bytes reusable = .reuse cursor →
        Stretch task.metric task.text p p [] → task.Looks task.base p cursor.tree reusable := by
  rcases hold : task.old with _ | root
  · have hnone := h
    rw [hold, ReusableNode.placedIn_none_iff] at hnone
    rw [lookaheadTurn, hnone]
    exact ⟨fun _ hturn => by simp at hturn, fun cursor hturn => LookaheadTurn.noConfusion hturn⟩
  · have hplaced := h
    rw [hold, ReusableNode.placedIn_some_iff] at hplaced
    obtain ⟨hnext, hreuse⟩ := @ReusableNode.Placed.turn _ _ (task.adds hold) p.bytes hplaced
    refine ⟨fun reusable' hturn => ReusableNode.placedIn_some_iff.mpr (hnext reusable' hturn),
      fun cursor hturn hp => ?_⟩
    obtain ⟨hcursor, hroot, hbyte, hunmarked, -⟩ := hreuse cursor hturn
    obtain ⟨p', q, hbytes, hleads⟩ := (task.offers root hold).node cursor hroot hunmarked
    obtain rfl := hleads.start.eq_of_bytes hp (hbytes.trans hbyte)
    exact ⟨⟨q, hleads⟩, h, fun _ => ⟨cursor, hcursor, rfl⟩⟩

/-- A lookahead that is broken down to its first child. -/
theorem ParseTask.Looks.breakdown {reusable' : ReusableNode} {cursor : Cursor NodeData}
    (h : task.Looks next p lookahead reusable) (hne : lookahead.children ≠ [])
    (hnext : reusableNodeBreakdown reusable = some reusable')
    (hcursor : reusable'.cursor = some cursor) : task.Looks next p cursor.tree reusable' := by
  obtain ⟨above, child, habove, hchild, rfl⟩ := reusableNodeBreakdown_eq_some_iff.mp hnext
  obtain ⟨above', habove', hlookahead⟩ := h.inner hne
  rw [habove, Option.some.injEq] at habove'
  subst habove'
  rw [Option.some.injEq] at hcursor
  subst hcursor
  refine ⟨?_, h.placed.breakdown hnext, fun _ => ⟨child, rfl, rfl⟩⟩
  obtain ⟨q, hleads⟩ := h.leads
  have hchildren := hleads.children hne
  have hfirst := (Cursor.child_eq_some_iff.mp hchild).1
  rw [hlookahead] at hfirst
  obtain ⟨first, rest, hsplit⟩ := List.exists_cons_of_ne_nil hne
  rw [hsplit, List.getElem?_cons_zero, Option.some.injEq] at hfirst
  rw [hsplit] at hchildren
  obtain ⟨r, hfirstLeads, -⟩ := leadAmong_cons.mp hchildren
  exact ⟨r, hfirst ▸ hfirstLeads⟩

/-- **`parser__breakdown_lookahead`** leaves the parser alone, and its lookahead is one. -/
theorem ParseTask.Looks.breakdownLookahead {fuel : ℕ} {state : UInt16}
    {result : Bool × SyntaxTree × ReusableNode} (h : task.Looks next p lookahead reusable)
    (hne : lookahead.children ≠ []) (hrun : parserBreakdownLookahead fuel lookahead state reusable
    parser = some (result, parser')) :
    parser' = parser ∧ task.Looks next p result.2.1 result.2.2 := by
  rw [parserBreakdownLookahead, get_bind] at hrun
  -- the walk stands at a lookahead, and at the one given as long as nothing was broken down
  refine @Triple.loop _ _ _ (fun (result : Bool × SyntaxTree × ReusableNode) state =>
      state = parser ∧ task.Looks next p result.2.1 result.2.2) _
    (fun (vars : Bool × SyntaxTree × ReusableNode) state => state = parser ∧ ∃ cursor,
      vars.2.2.cursor = some cursor ∧ task.Looks next p cursor.tree vars.2.2 ∧
        vars.2.1 = lookahead ∧ (vars.1 = false → cursor.tree = lookahead)) ?_ fuel
        (false, lookahead, reusable) parser result parser'
    ?_ hrun
  · rintro ⟨brokenDown, tree, walk⟩ state turn next'
      ⟨rfl, cursor, hcursor, hlooks, htree, hkept⟩ hturn
    simp only at hcursor hlooks htree hkept
    subst htree
    rw [hcursor] at hturn
    simp only at hturn
    split at hturn
    · next hinner =>
        cases hnext : reusableNodeBreakdown walk with
        | none =>
            rw [hnext] at hturn
            exact absurd hturn (by simp only [trap_eq_some_iff, not_false_eq_true])
        | some walk' =>
            rw [hnext] at hturn
            obtain ⟨rfl, rfl⟩ := pure_eq_some_iff.mp hturn
            obtain ⟨above, child, -, -, rfl⟩ := reusableNodeBreakdown_eq_some_iff.mp hnext
            exact ⟨rfl, child, rfl, hlooks.breakdown (List.ne_nil_of_length_pos hinner.1)
              hnext rfl, rfl, fun hfalse => absurd hfalse.symm Bool.false_ne_true⟩
    · obtain ⟨rfl, rfl⟩ := pure_eq_some_iff.mp hturn
      refine ⟨rfl, ?_⟩
      cases brokenDown with
      | true => exact hlooks
      | false => exact hkept rfl ▸ hlooks
  · obtain ⟨cursor, hcursor, hlookahead⟩ := h.inner hne
    exact ⟨rfl, cursor, hcursor, hlookahead ▸ h, rfl, fun _ => hlookahead⟩

/-- `parser__lex`. -/
theorem TSParser.Sound.lex {fuel : ℕ} (h : parser.Sound task since positions)
    (hversion : positions[version]? = some (some p))
    (hrun : parserLex language input fuel version parser = some (tree, parser')) :
    parser'.Sound task since positions ∧ tree.children = [] ∧
      ∃ q, task.Leads parser'.nextAddress p q tree := by
  rw [parserLex, onStack_bind_eq_some_iff (reads_topState _)] at hrun
  obtain ⟨state, -, hrun⟩ := hrun
  rw [onStack_bind_eq_some_iff (reads_topPosition _)] at hrun
  obtain ⟨position, hposition, hrun⟩ := hrun
  obtain ⟨rfl, hp⟩ := h.stack.topPosition hversion hposition
  rw [bind_eq_some_iff] at hrun
  obtain ⟨address, allocated, hallocate, hrun⟩ := hrun
  obtain ⟨rfl, rfl⟩ := parserAllocate_eq_some_iff.mp hallocate
  rw [onParserLexer, zoom, Option.map_eq_some_iff] at hrun
  obtain ⟨⟨leaf, lexer⟩, hlex, heq⟩ := hrun
  obtain ⟨rfl, rfl⟩ := Prod.mk.inj heq
  obtain ⟨hready, hleaf, hleads⟩ := task.lexes h.ready hp hlex
  exact ⟨{ h.allocate.earlier (Nat.le_succ_of_le h.since_le) with ready := hready }, hleaf, hleads⟩

/-- **`parser__get_lookahead`** finds a lookahead where the version ends. -/
theorem TSParser.Sound.getLookahead {fuel : ℕ} {result : SyntaxTree × ReusableNode × Bool}
    (h : parser.Sound task since positions) (hversion : positions[version]? = some (some p))
    (hreusable : reusable.PlacedIn task.old)
    (hrun : parserGetLookahead language input fuel version reusable parser =
      some (result, parser')) :
    parser'.Sound task since positions ∧ task.Looks parser'.nextAddress p result.1 result.2.1 := by
  rw [parserGetLookahead, onStack_bind_eq_some_iff (reads_topPosition _)] at hrun
  obtain ⟨position, hposition, hrun⟩ := hrun
  obtain ⟨rfl, hp⟩ := h.stack.topPosition hversion hposition
  rw [bind_eq_some_iff] at hrun
  obtain ⟨⟨reused, walk⟩, middle, hwalk, hrun⟩ := hrun
  have hwalked : middle.Sound task since positions ∧ walk.PlacedIn task.old ∧
      ∀ tree, reused = some tree → task.Looks task.base position tree walk := by
    refine @Triple.loop _ _ _
      (fun (result : Option SyntaxTree × ReusableNode) (middle : TSParser π) =>
        middle.Sound task since positions ∧ result.2.PlacedIn task.old ∧
          ∀ tree, result.1 = some tree → task.Looks task.base position tree result.2) _
      (fun walk middle => middle.Sound task since positions ∧ walk.PlacedIn task.old) ?_
      fuel reusable
      parser (reused, walk) middle ⟨h, hreusable⟩ hwalk
    rintro walk middle turn next ⟨hsound, hplaced⟩ hturn
    obtain ⟨hnext, hreuse⟩ := @ReusableNode.PlacedIn.turn _ _ _ _ task position walk hplaced
    -- a turn goes on in the walk, breaks down the top of the stack on the way, or ends
    cases hdiscr : lookaheadTurn position.bytes walk with
    | lex =>
        rw [hdiscr] at hturn
        obtain ⟨rfl, rfl⟩ := pure_eq_some_iff.mp hturn
        exact ⟨hsound, hplaced, fun tree htree => absurd htree (Option.some_ne_none tree).symm⟩
    | next walk' =>
        rw [hdiscr] at hturn
        obtain ⟨rfl, rfl⟩ := pure_eq_some_iff.mp hturn
        exact ⟨hsound, hnext walk' (Or.inl hdiscr)⟩
    | broken walk' =>
        rw [hdiscr, bind_eq_some_iff] at hturn
        obtain ⟨didBreakDown, broken, hbreak, hturn⟩ := hturn
        obtain ⟨rfl, rfl⟩ := pure_eq_some_iff.mp hturn
        exact ⟨hsound.breakdownTopOfStack hversion hbreak, hnext walk' (Or.inr hdiscr)⟩
    | reuse cursor =>
        rw [hdiscr] at hturn
        obtain ⟨rfl, rfl⟩ := pure_eq_some_iff.mp hturn
        refine ⟨hsound, hplaced, fun tree htree => ?_⟩
        obtain rfl := Option.some.inj htree
        exact hreuse cursor hdiscr hp
  obtain ⟨hsound, hplaced, hlooks⟩ := hwalked
  cases reused with
  | some tree =>
      obtain ⟨rfl, rfl⟩ := pure_eq_some_iff.mp hrun
      exact ⟨hsound, (hlooks tree rfl).mono hsound.base_le⟩
  | none =>
      rw [bind_eq_some_iff] at hrun
      -- nothing can be reused here, so a token is lexed
      obtain ⟨leaf, lexed, hlex, hrun⟩ := hrun
      obtain ⟨rfl, rfl⟩ := pure_eq_some_iff.mp hrun
      obtain ⟨hsound', hleaf, hleads⟩ := hsound.lex hversion hlex
      exact ⟨hsound', hleads, hplaced, fun hne => absurd hleaf hne⟩

end Lookahead

/-! ## Shifting -/

section Shift

variable {parser' : TSParser π} {version : ℕ} {state : UInt16} {extra : Bool} {result : SyntaxTree}

/-- What is known of the versions that are given up is a matter of their flags. -/
theorem TSParser.haltedAt_iff : parser.HaltedAt version ↔
    (parser.stack.heads.map StackHead.isHalted)[version]? = some true := by
  rw [List.getElem?_map, Option.map_eq_some_iff]
  exact Iff.rfl

/-- What `parser__shift` does: it pushes a tree that leads where the lookahead does, and so does the
lookahead that its caller sees. -/
theorem parserShift_eq_some (h : parser.Sound task since positions)
    (htree : task.Leads since p q lookahead)
    (hrun : parserShift language version state lookahead extra parser = some (result, parser')) :
    ∃ allocated shifted, allocated.Sound task since positions ∧ allocated.stack = parser.stack ∧
      task.Leads allocated.nextAddress p q shifted ∧ task.Leads allocated.nextAddress p q result ∧
      onStack (tsStackPush version (some shifted) (decide (0 < shifted.children.length))
        state) allocated = some ((), parser') := by
  rw [parserShift, get_bind, bind_eq_some_iff] at hrun
  obtain ⟨address, allocated, hallocate, hrun⟩ := hrun
  obtain ⟨rfl, rfl⟩ := parserAllocate_eq_some_iff.mp hallocate
  simp only [bind_eq_some_iff] at hrun
  obtain ⟨_, pushed, hpush, hrun⟩ := hrun
  obtain ⟨rfl, rfl⟩ := pure_eq_some_iff.mp hrun
  have hlookahead := htree.mono (Nat.le_succ_of_le h.since_le)
  refine ⟨_, _, h.allocate.earlier (Nat.le_succ_of_le h.since_le), rfl,
    leads_setExtra ?_, ?_, hpush⟩
  · split
    · exact (htree.mono h.since_le).makeCopy
    · exact hlookahead
  · split
    · exact hlookahead
    · exact leads_setExtra hlookahead

/-- **`parser__shift`** moves the version to the end of the lookahead. -/
theorem TSParser.Sound.shift (h : parser.Sound task since positions)
    (hversion : positions[version]? = some (some p)) (htree : task.Leads since p q lookahead)
    (hrun : parserShift language version state lookahead extra parser = some (result, parser')) :
    parser'.Sound task since (positions.set version (some q)) ∧
      task.Leads parser'.nextAddress p q result := by
  obtain ⟨allocated, shifted, hallocated, -, hshifted, hresult, hpush⟩ :=
    parserShift_eq_some h htree hrun
  have hpushed := hallocated.now.pushPending hversion hshifted
    (fun hpending => List.ne_nil_of_length_pos (of_decide_eq_true hpending)) hpush
  exact ⟨hpushed.earlier hallocated.since_le, hresult.mono hpushed.since_le⟩

/-- Shifting on a version that is given up. -/
theorem TSParser.Sound.shiftHalted (h : parser.Sound task since positions)
    (hhalted : parser.HaltedAt version) (htree : task.Leads since p q lookahead)
    (hrun : parserShift language version state lookahead extra parser = some (result, parser')) :
    (∃ positions', parser'.Sound task since positions') ∧
    task.Leads parser'.nextAddress p q result ∧ ∀ version', parser.HaltedAt version' →
    parser'.HaltedAt version' := by
  obtain ⟨allocated, shifted, hallocated, hstack, hshifted, hresult, hpush⟩ :=
    parserShift_eq_some h htree hrun
  obtain ⟨stack, hpushing, rfl⟩ := onStack_eq_some_iff.mp hpush
  obtain ⟨head, hhead, hflag⟩ := hhalted
  obtain ⟨⟨positions', hpushed⟩, hflags⟩ := tsStackPush_halted hallocated.stack (hstack ▸ hhead)
    hflag hpushing
  refine ⟨⟨positions', hallocated.withStack hpushed⟩, hresult, fun version' hversion' => ?_⟩
  rw [TSParser.haltedAt_iff] at hversion' ⊢
  rw [← hversion', ← hstack, ← hflags]

end Shift

end Task

end TreeSitterTextStorage
