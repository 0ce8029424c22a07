import Mathlib.Logic.Function.Basic
import TreeSitterTextStorage.Highlighting.IndexWalk
import TreeSitterTextStorage.Storage.TextStorage

/-! # What an attribute query answers

The answer of `attributes(at:effectiveRange:)` as a function of the tree and the location alone. On a
storage that shows a text through a well-formed tree, a query whose location has no cache entry gives
`answerAt` and stores `entryAt`, and a query whose location has an entry gives `readBack` of it. -/

namespace TreeSitterTextStorage

open RangedTree
open RoseTree hiding node

/-! ## The answer at a location -/

section Answer

variable (language : Language) (theme : ColorTheme) (length : ℕ) (root : Node)

/-- What the guards of `attributes(at:effectiveRange:)` pass on: those of `Node.write`, a structural
symbol, and an end before the end of the text. -/
def storageToken (self : TSNode) : Option (TokenType × UIColor) :=
  if (language.symbolMetadata self.symbol).structural = true ∧ self.stop < length then
    writeToken language theme length self
  else none

/-- Whether the walk of `attributes(at:effectiveRange:)` ends at a node. -/
def isToken (node : Node) : Bool := (storageToken language theme length node.label).isSome

/-- The node whose token colours a location, with its token type and colour: the outermost proper
descendant of the root that covers the location and passes the guards. -/
def tokenAt (location : ℕ) : Option (Node × TokenType × UIColor) :=
  ((descent (covers location) root).find? (isToken language theme length)).bind fun node =>
    (storageToken language theme length node.label).map (node, ·)

/-- The deepest node of the walk to a location. -/
def lastNodeAt (location : ℕ) : Node := deepest (covers location) root

/-- The effective range of a location without token. -/
def plainRangeAt (location : ℕ) : NSRange :=
  match (lastNodeAt root location).children.find? fun c => decide (location < c.label.start) with
  | some endNode => ⟨location, endNode.label.start - location⟩
  | none =>
      if tsNodeEq root.label (lastNodeAt root location).label then ⟨location, length - location⟩
      else NSRange.ofCountableRange (lastNodeAt root location).label.range

/-- The answer of a query that finds no cache entry. -/
def answerAt (location : ℕ) : Answer :=
  match tokenAt language theme length root location with
  | some (node, _, color) =>
      ⟨attributesForColor color, some (NSRange.ofCountableRange node.label.range)⟩
  | none => ⟨attributesForColor TextStorage.textColor, some (plainRangeAt length root location)⟩

/-- The cache entry that such a query stores. The range of a location without token is stored one
element longer, through `uint32range`. -/
def entryAt (location : ℕ) : CacheEntry :=
  match tokenAt language theme length root location with
  | some (node, tokenType, _) =>
      ⟨some tokenType, node.label.start, node.label.start + (node.label.range.count - 1),
        Nat.le_add_right _ _⟩
  | none =>
      let r := plainRangeAt length root location
      ⟨none, r.location, r.location + r.length, Nat.le_add_right _ _⟩

/-- The answer that is read back from a cache entry. -/
def readBack (entry : CacheEntry) : Answer :=
  ⟨attributesForColor ((entry.tokenType.bind theme.color).getD TextStorage.textColor),
    some (NSRange.ofClosedRange entry.range)⟩

variable {language theme length root}

/-- What a node must be to end the walk. -/
theorem storageToken_eq_some_iff {self : TSNode} {tokenType : TokenType} {color : UIColor} :
    storageToken language theme length self = some (tokenType, color) ↔
      self.symbol ≠ 0 ∧ language.tokenType self.symbol = some tokenType ∧
        (language.symbolMetadata self.symbol).structural = true ∧
        theme.color tokenType = some color ∧ self.stop < length ∧ self.start < self.stop := by
  rw [storageToken, Option.ite_none_right_eq_some, writeToken_eq_some_iff]
  constructor
  · rintro ⟨⟨hstructural, hstop⟩, hsymbol, htype, hcolor, -, -, hlt⟩
    exact ⟨hsymbol, htype, hstructural, hcolor, hstop, hlt⟩
  · rintro ⟨hsymbol, htype, hstructural, hcolor, hstop, hlt⟩
    exact ⟨⟨hstructural, hstop⟩, hsymbol, htype, hcolor, hlt.trans hstop, hstop.le, hlt⟩

/-- The token node of a location lies on its walk and passes the guards. -/
theorem tokenAt_eq_some_iff {location : ℕ} {node : Node} {tokenType : TokenType} {color : UIColor} :
    tokenAt language theme length root location = some (node, tokenType, color) ↔
      (descent (covers location) root).find? (isToken language theme length) = some node ∧
        storageToken language theme length node.label = some (tokenType, color) := by
  simp only [tokenAt, Option.bind_eq_some_iff, Option.map_eq_some_iff, Prod.mk.injEq]
  constructor
  · rintro ⟨found, hfind, token, htoken, rfl, rfl⟩
    exact ⟨hfind, htoken⟩
  · rintro ⟨hfind, htoken⟩
    exact ⟨node, hfind, (tokenType, color), htoken, rfl, rfl⟩

/-- A location has no token when no node of its walk passes the guards. -/
theorem tokenAt_eq_none_iff {location : ℕ} :
    tokenAt language theme length root location = none ↔
      (descent (covers location) root).find? (isToken language theme length) = none := by
  cases hfind : (descent (covers location) root).find? (isToken language theme length) with
  | none => simp [tokenAt, hfind]
  | some node =>
      have htoken := List.find?_some hfind
      obtain ⟨token, htoken⟩ := Option.isSome_iff_exists.mp htoken
      simp [tokenAt, hfind, htoken]

/-- A location has a token when some node of its walk passes the guards. -/
theorem tokenAt_ne_none_iff_descent {location : ℕ} :
    tokenAt language theme length root location ≠ none ↔
      ∃ node ∈ descent (covers location) root, isToken language theme length node = true := by
  rw [ne_eq, tokenAt_eq_none_iff, ← ne_eq, ← Option.isSome_iff_ne_none, List.find?_isSome]

/-- The deepest node of a walk is well formed and lies inside the root. -/
theorem lastNodeAt_within (h : WellFormed root) (location : ℕ) :
    WellFormed (lastNodeAt root location) ∧
      root.label.start ≤ (lastNodeAt root location).label.start ∧
      (lastNodeAt root location).label.stop ≤ root.label.stop := by
  rcases deepest_eq_or_mem (covers location) root with hroot | hmem
  · rw [lastNodeAt, hroot]
    exact ⟨h, le_rfl, le_rfl⟩
  · exact h.of_mem_descent hmem

/-- The range of a location without token stays inside the text. -/
theorem plainRangeAt_le {location : ℕ} (h : WellFormed root) (hstop : root.label.stop ≤ length)
    (hlocation : location < length) :
    (plainRangeAt length root location).location + (plainRangeAt length root location).length ≤
      length := by
  obtain ⟨hlast, -, hlastStop⟩ := lastNodeAt_within h location
  rw [plainRangeAt]
  split
  · next endNode hfind =>
      have hmem := List.mem_of_find?_eq_some hfind
      have hlt : location < endNode.label.start := by simpa using List.find?_some hfind
      have hle := (hlast.child_within hmem).2
      have hend := endNode.label.start_le_stop
      rw [ranged_stop, ranged_stop] at hle
      simp only
      omega
  · split
    · simp only
      omega
    · rw [TSNode.location_add_length]
      exact hlastStop.trans hstop

end Answer

/-! ## Queries on a storage -/

namespace TextStorage

/-- A storage that shows a text through a well-formed tree over it. -/
structure Shows (storage : TextStorage) (text : Text) (root : Node) : Prop where
  /-- The buffer is the data of the text. -/
  buffer : storage.document.input.data = utf16Data text
  /-- The text is short enough for its input to give its length. -/
  bound : 2 * text.length < 2 ^ 32
  /-- The tree of the document has the root. -/
  rootNode : storage.document.rootNode = some root
  /-- Node ranges are ordered, disjoint and nested. -/
  wellFormed : WellFormed root
  /-- The root lies in the text. -/
  stop_le : root.label.stop ≤ text.length
  /-- The stored length is the length of the text. -/
  length_eq : storage._length = text.length
  /-- The cache has an entry for every location. -/
  cache_le : text.length ≤ storage.cache.length

variable {self : TextStorage} {text : Text} {root : Node}

/-- A storage opened on a well-formed tree over its text shows the text through it. -/
theorem shows_opened {tree : Tree} {theme : ColorTheme} {language : Language}
    (hbound : 2 * text.length < 2 ^ 32)
    (hroot : (opened text tree theme language).document.rootNode = some root)
    (hwf : WellFormed root) (hstop : root.label.stop ≤ text.length) :
    (opened text tree theme language).Shows text root := by
  refine ⟨rfl, hbound, hroot, hwf, hstop, rfl, ?_⟩
  simp only [opened, List.length_replicate]
  omega

/-- The cache of an opened storage is empty. -/
theorem eq_none_of_mem_cache_opened {tree : Tree} {theme : ColorTheme} {language : Language}
    {entry : Option CacheEntry} (h : entry ∈ (opened text tree theme language).cache) :
    entry = none := List.eq_of_mem_replicate h

/-- **A new storage shows its text**, with an empty cache. -/
theorem shows_init {parser : Parser} {theme : ColorTheme} {language : Language}
    (h : init parser text theme language = some self) :
    ∃ root, self.Shows text root ∧ ∀ entry ∈ self.cache, entry = none := by
  obtain ⟨hbound, rfl⟩ := init_eq_some_iff.mp h
  obtain ⟨root, hroot⟩ :=
    Option.isSome_iff_exists.mp (parser.hasRoot language (utf16Bytes text) none)
  obtain ⟨hwf, hstop⟩ := parser.wellFormed language text root hroot
  refine ⟨visibleNode root root.tree, shows_opened hbound ?_ hwf ?_,
    fun entry => eq_none_of_mem_cache_opened⟩
  · simp only [opened, Document.rootNode, Option.bind_eq_bind, Option.bind_some, hroot]
  · rw [label_visibleNode]
    exact hstop

/-- The storage after a query has stored an entry. -/
def withEntry (self : TextStorage) (location : ℕ) (entry : CacheEntry) : TextStorage :=
  { self with cache := self.cache.set location (some entry) }

@[simp] theorem theme_withEntry (self : TextStorage) (location : ℕ) (entry : CacheEntry) :
    (self.withEntry location entry).theme = self.theme := rfl

@[simp] theorem language_withEntry (self : TextStorage) (location : ℕ) (entry : CacheEntry) :
    (self.withEntry location entry).language = self.language := rfl

/-- A stored entry changes nothing else. -/
theorem Shows.withEntry (h : self.Shows text root) (location : ℕ) (entry : CacheEntry) :
    (self.withEntry location entry).Shows text root :=
  ⟨h.buffer, h.bound, h.rootNode, h.wellFormed, h.stop_le, h.length_eq,
    h.cache_le.trans List.length_set.ge⟩

/-- The length of the text fits its integer type. -/
theorem Shows.toUInt32_length (h : self.Shows text root) :
    toUInt32 (text.length : ℤ) = some text.length := by
  have hlt : text.length < 2 ^ 32 := by
    have hbound := h.bound
    omega
  exact toUInt32_eq_some_iff.mpr ⟨rfl, hlt⟩

/-- The guards never trap on a storage that shows a text. -/
theorem Shows.passGuards_eq (h : self.Shows text root) (node : TSNode) :
    self.passGuards node = some (storageToken self.language self.theme text.length node) := by
  have hlength : self.length = some text.length := by
    rw [TextStorage.length, string, h.buffer, decodeUtf16_utf16Data, Option.map_some]
  have hunsigned := h.toUInt32_length
  rw [passGuards, storageToken, writeToken]
  by_cases hsymbol : node.symbol = 0
  · rw [if_pos hsymbol, if_neg (not_not_intro hsymbol), ite_self]
  · rw [if_neg hsymbol, if_pos hsymbol]
    cases htype : self.language.tokenType node.symbol with
    | none => simp
    | some tokenType =>
        simp only [Language.metadata_of_tokenType htype, Option.bind_eq_bind, Option.bind_some]
        cases hstructural : (self.language.symbolMetadata node.symbol).structural with
        | false => simp
        | true =>
            cases hcolor : self.theme.color tokenType with
            | none => simp
            | some color =>
                -- a node that ends inside the text also starts inside it
                have hle := node.start_le_stop
                simp only [Bool.not_true, Bool.false_eq_true, if_false, Option.bind_some, true_and]
                by_cases hstart : node.start < text.length
                · rw [if_pos (h.length_eq ▸ hstart), hlength, Option.bind_some, hunsigned,
                    Option.bind_some]
                  by_cases hstop : node.stop < text.length
                  · by_cases hcount : node.range.count > 0
                    · rw [if_pos ⟨hstop, hcount⟩, if_pos hstop, if_pos ⟨hstart, hstop.le, hcount⟩]
                    · rw [if_neg fun hand => hcount hand.2, if_pos hstop,
                        if_neg fun hand => hcount hand.2.2]
                  · rw [if_neg fun hand => hstop hand.1, if_neg hstop]
                · have hstop : ¬ node.stop < text.length := by omega
                  rw [if_neg (h.length_eq ▸ hstart), if_neg hstop]

/-- The walk ends at the first node that passes the guards, or at the last one. -/
theorem Shows.walk_eq (h : self.Shows text root) (start : Node) (path : List Node) :
    self.walk start path = some
      (match (path.find? (isToken self.language self.theme text.length)).bind fun node =>
          (storageToken self.language self.theme text.length node.label).map (node, ·) with
        | some (node, tokenType, color) => .token node tokenType color
        | none => .exhausted (path.getLastD start)) := by
  induction path generalizing start with
  | nil => rfl
  | cons child rest ih =>
      rw [walk, h.passGuards_eq]
      simp only [Option.bind_eq_bind, Option.bind_some]
      cases htoken : storageToken self.language self.theme text.length child.label with
      | some token =>
          have hchild : isToken self.language self.theme text.length child = true := by
            rw [isToken, htoken, Option.isSome_some]
          rw [List.find?_cons_of_pos hchild]
          simp [htoken]
      | none =>
          have hchild : ¬ isToken self.language self.theme text.length child = true := by
            rw [isToken, htoken, Option.isSome_none]
            exact Bool.false_ne_true
          rw [List.find?_cons_of_neg hchild, ih, List.getLastD_cons]

/-- The range of a location without token never traps. -/
theorem Shows.plainRange_eq (h : self.Shows text root) {location : ℕ}
    (hlocation : location < text.length) :
    self.plainRange root (lastNodeAt root location) location =
      some (plainRangeAt text.length root location) := by
  rw [plainRange, plainRangeAt]
  cases hfind : (lastNodeAt root location).children.find?
      (fun c => decide (location < c.label.start)) with
  | some endNode =>
      have hlt : location < endNode.label.start := by simpa using List.find?_some hfind
      simp only
      rw [subUInt32, if_pos hlt.le, Option.map_some]
  | none =>
      simp only
      split
      · rw [h.length_eq, subUInt32, if_pos hlocation.le, Option.map_some]
      · rfl

/-- The closed range that a token node stores. -/
theorem ofCountableRange_range {tokenNode : TSNode} (h : tokenNode.start < tokenNode.stop) :
    CountableClosedRange.ofCountableRange tokenNode.range =
      some ⟨tokenNode.start, tokenNode.start + (tokenNode.range.count - 1),
        Nat.le_add_right _ _⟩ := by
  have hstop : tokenNode.stop - 1 = tokenNode.start + (tokenNode.range.count - 1) := by
    rw [TSNode.count_range]
    omega
  rw [CountableClosedRange.ofCountableRange_of_lt (show tokenNode.range.lowerBound < _ from h),
    Option.some.injEq, CountableClosedRange.mk.injEq]
  exact ⟨rfl, hstop⟩

/-- **A query without cache entry** answers from the tree and stores its entry. Without a range
pointer it stores only the entries of tokens. -/
theorem Shows.attributes_of_miss (h : self.Shows text root) {location : ℕ}
    (hlocation : location < text.length) (hmiss : self.cache[location]? = some none) (range : Bool) :
    self.attributes location range =
      some (⟨(answerAt self.language self.theme text.length root location).attributes,
        if range then (answerAt self.language self.theme text.length root location).effectiveRange
        else none⟩,
        if range || (tokenAt self.language self.theme text.length root location).isSome then
          self.withEntry location
            (entryAt self.language self.theme text.length root location)
        else self) := by
  have hbound := h.bound
  have hlt : location < 2 ^ 32 := by omega
  have hunsigned : toUInt32 (location : ℤ) = some location :=
    toUInt32_eq_some_iff.mpr ⟨rfl, hlt⟩
  have hwalk := h.walk_eq root (descent (covers location) root)
  rw [← tokenAt] at hwalk
  rw [attributes, hmiss]
  simp only [Option.bind_eq_bind, Option.bind_some, hunsigned, h.rootNode,
    TraverseInRangeGenerator.nodes_eq_descent, hwalk]
  rw [answerAt, entryAt]
  cases htoken : tokenAt self.language self.theme text.length root location with
  | some found =>
      -- the guards have excluded the empty ranges on which the conversion traps
      obtain ⟨tokenNode, tokenType, color⟩ := found
      obtain ⟨-, -, -, -, -, hnonempty⟩ :=
        storageToken_eq_some_iff.mp (tokenAt_eq_some_iff.mp htoken).2
      simp only [ofCountableRange_range hnonempty, Option.bind_some, Option.isSome_some,
        Bool.or_true, if_true]
      rfl
  | none =>
      have hle := plainRangeAt_le h.wellFormed h.stop_le hlocation
      have hplain := h.plainRange_eq hlocation
      rw [lastNodeAt, deepest] at hplain
      have hclosed := NSRange.ofCountableRange_uint32range
        (show (plainRangeAt text.length root location).location +
          (plainRangeAt text.length root location).length + 1 < 2 ^ 32 by omega)
      cases range with
      | false => rfl
      | true =>
          simp only [Bool.not_true, Bool.false_eq_true, if_false]
          rw [hplain, Option.bind_some, ← Option.bind_assoc, hclosed, Option.bind_some,
            Bool.true_or, if_pos rfl, if_pos trivial]
          rfl

/-- A location of the text has a cache entry. -/
theorem Shows.cache_eq_none (h : self.Shows text root) (hempty : ∀ entry ∈ self.cache, entry = none)
    {location : ℕ} (hlocation : location < text.length) : self.cache[location]? = some none := by
  have hlt : location < self.cache.length := lt_of_lt_of_le hlocation h.cache_le
  rw [List.getElem?_eq_getElem hlt, hempty _ (List.getElem_mem hlt)]

/-- A query on an empty cache, with a range pointer. -/
theorem Shows.attributes_of_empty (h : self.Shows text root)
    (hempty : ∀ entry ∈ self.cache, entry = none) {location : ℕ} (hlocation : location < text.length) :
    self.attributes location true =
      some (answerAt self.language self.theme text.length root location,
        self.withEntry location (entryAt self.language self.theme text.length root location)) := by
  rw [h.attributes_of_miss hlocation (h.cache_eq_none hempty hlocation), Bool.true_or, if_pos rfl,
    if_pos rfl]

/-- **A query with a cache entry** reads the entry back. -/
theorem attributes_of_hit {location : ℕ} {entry : CacheEntry}
    (hhit : self.cache[location]? = some (some entry)) :
    self.attributes location true = some (readBack self.theme entry, self) := by
  rw [attributes, hhit]
  rfl

/-- The cache as a table. -/
def table (self : TextStorage) (location : ℕ) : Option CacheEntry := self.cache[location]?.join

/-- A stored entry updates the table. -/
theorem table_withEntry {self : TextStorage} {location : ℕ} (h : location < self.cache.length)
    (entry : CacheEntry) :
    (self.withEntry location entry).table = Function.update self.table location (some entry) := by
  funext other
  rw [table, withEntry]
  by_cases heq : other = location
  · subst heq
    rw [Function.update_self, List.getElem?_set_self h, Option.join_some]
  · rw [Function.update_of_ne heq, List.getElem?_set_ne (Ne.symm heq), table]

end TextStorage

/-! ## A small tree -/

/-- The text `[1]`. -/
def arrayText : Text := [0x5b, 0x31, 0x5d]

/-- A storage on `[1]`. -/
def arrayStorage : TextStorage := TextStorage.opened arrayText arrayTree .default .json

/-- The visible tree of `[1]`: an array with a bracket, a number and a bracket. -/
def arrayRoot : Node := arrayStorage.document.rootNode.get rfl

/-- The storage shows `[1]`. -/
theorem shows_arrayStorage : arrayStorage.Shows arrayText arrayRoot :=
  TextStorage.shows_opened (by decide) rfl (by decide) (by decide)

/-- A parser that takes every text for one number, which is what the JSON grammar makes of digits. -/
def numberParser : Parser where
  parserParse _ served _ :=
    jsonNode .symValue 0 (served.length / 2) [jsonNode .symNumber 0 (served.length / 2) []]
  hasRoot language served reusableTree := rfl
  wellFormed language text root hroot := by
    have hlength : (utf16Bytes text).length / 2 = text.length := by
      rw [length_utf16Bytes, Nat.mul_div_cancel_left _ (by decide)]
    rw [hlength] at hroot
    have heq := Option.some.inj hroot
    subst heq
    refine ⟨wellFormed_leaf (TSNode.start_le_stop _), ?_⟩
    show 0 + 0 + 0 + text.length ≤ text.length
    omega

end TreeSitterTextStorage
