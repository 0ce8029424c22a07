import TreeSitterTextStorage.Storage.Queries

/-! # Effective ranges

The effective range that a query returns always contains the location and stays inside the text. It
is homogeneous when it is the range of a token, ends at the next child, or is the rest of the text
behind a location that no child of the root covers. When the range is all of the deepest node of the
walk, a token inside that node in front of the location breaks it. -/

namespace TreeSitterTextStorage

open RangedTree
open RoseTree hiding node

/-! ## Tokens -/

section Tokens

variable (language : Language) (theme : ColorTheme) (length : ℕ) (root : Node)

/-- The tokens of a tree: the outermost nodes below the root that pass the guards of a query. -/
def tokens : List Node := root.children.flatMap (outermost (isToken language theme length))

/-- The colour of a location: that of its token, or the text colour. -/
def colorAt (location : ℕ) : UIColor :=
  match tokenAt language theme length root location with
  | some (_, _, color) => color
  | none => TextStorage.textColor

variable {language theme length root}

/-- The token of a location is the token that covers it. -/
theorem tokenAt_eq_some_iff_mem_tokens (h : WellFormed root) {location : ℕ} {tokenNode : Node}
    {tokenType : TokenType} {color : UIColor} :
    tokenAt language theme length root location = some (tokenNode, tokenType, color) ↔
      (tokenNode ∈ tokens language theme length root ∧ covers location tokenNode = true) ∧
        storageToken language theme length tokenNode.label = some (tokenType, color) := by
  have hfilter := h.filter_outermost_children (isToken language theme length) location
  rw [tokenAt_eq_some_iff, tokens, ← List.mem_filter, hfilter, Option.mem_toList]

/-- A location has a token exactly when a token covers it. -/
theorem tokenAt_ne_none_iff (h : WellFormed root) {location : ℕ} :
    tokenAt language theme length root location ≠ none ↔
      ∃ tokenNode ∈ tokens language theme length root, covers location tokenNode = true := by
  have hfilter := h.filter_outermost_children (isToken language theme length) location
  rw [ne_eq, tokenAt_eq_none_iff, ← ne_eq, ← Option.isSome_iff_ne_none, Option.isSome_iff_exists]
  refine exists_congr fun tokenNode => ?_
  rw [tokens, ← List.mem_filter, hfilter, Option.mem_toList]

/-- The attributes of the answer are those of the colour of the location. -/
theorem attributes_answerAt (location : ℕ) :
    (answerAt language theme length root location).attributes =
      attributesForColor (colorAt language theme length root location) := by
  unfold answerAt colorAt
  cases tokenAt language theme length root location with
  | none => rfl
  | some found => rfl

/-- The effective range of the answer. -/
def rangeAt (language : Language) (theme : ColorTheme) (length : ℕ) (root : Node)
    (location : ℕ) : NSRange :=
  match tokenAt language theme length root location with
  | some (tokenNode, _, _) => NSRange.ofCountableRange tokenNode.label.range
  | none => plainRangeAt length root location

theorem effectiveRange_answerAt (location : ℕ) :
    (answerAt language theme length root location).effectiveRange =
      some (rangeAt language theme length root location) := by
  unfold answerAt rangeAt
  cases tokenAt language theme length root location with
  | none => rfl
  | some found => rfl

end Tokens

/-! ## Containment -/

section Containment

variable {language : Language} {theme : ColorTheme} {length : ℕ} {root : Node} {location : ℕ}

/-- The deepest node of a walk that leaves the root covers the location. -/
theorem covers_lastNodeAt (h : descent (covers location) root ≠ []) :
    covers location (lastNodeAt root location) = true :=
  of_mem_descent (deepest_mem h)

/-- The plain range, where the deepest node has a child behind the location. -/
theorem plainRangeAt_of_next {endNode : Node}
    (h : (lastNodeAt root location).children.find? (fun c => decide (location < c.label.start)) =
      some endNode) :
    plainRangeAt length root location = ⟨location, endNode.label.start - location⟩ := by
  rw [plainRangeAt, h]

/-- The plain range, where the deepest node has no child behind the location. -/
theorem plainRangeAt_of_no_next
    (h : (lastNodeAt root location).children.find? (fun c => decide (location < c.label.start)) =
      none) :
    plainRangeAt length root location =
      if tsNodeEq root.label (lastNodeAt root location).label then ⟨location, length - location⟩
      else NSRange.ofCountableRange (lastNodeAt root location).label.range := by
  rw [plainRangeAt, h]

/-- The effective range contains the location. -/
theorem contains_rangeAt (hlocation : location < length) :
    (rangeAt language theme length root location).contains location = true := by
  unfold rangeAt
  cases htoken : tokenAt language theme length root location with
  | some found =>
      obtain ⟨tokenNode, tokenType, color⟩ := found
      have hmem := List.mem_of_find?_eq_some (tokenAt_eq_some_iff.mp htoken).1
      exact (contains_ofCountableRange location tokenNode).trans (of_mem_descent hmem)
  | none =>
      show (plainRangeAt length root location).contains location = true
      cases hfind : (lastNodeAt root location).children.find?
          (fun c => decide (location < c.label.start)) with
      | some endNode =>
          have hlt : location < endNode.label.start := by simpa using List.find?_some hfind
          rw [plainRangeAt_of_next hfind, NSRange.contains_iff]
          simp only
          omega
      | none =>
          rw [plainRangeAt_of_no_next hfind]
          split
          · rw [NSRange.contains_iff]
            simp only
            omega
          · next hne =>
              -- `ts_node_eq` tells the deepest node from the root, so the walk has left the root
              apply (contains_ofCountableRange location _).trans
              apply covers_lastNodeAt
              intro hnil
              apply hne
              rw [lastNodeAt, deepest_of_descent_eq_nil hnil]
              exact tsNodeEq_self root.label

/-- The effective range stays inside the text. -/
theorem rangeAt_le (h : WellFormed root) (hstop : root.label.stop ≤ length)
    (hlocation : location < length) :
    (rangeAt language theme length root location).location +
      (rangeAt language theme length root location).length ≤ length := by
  unfold rangeAt
  cases htoken : tokenAt language theme length root location with
  | some found =>
      obtain ⟨tokenNode, tokenType, color⟩ := found
      obtain ⟨-, -, -, -, hlt, -⟩ :=
        storageToken_eq_some_iff.mp (tokenAt_eq_some_iff.mp htoken).2
      exact (TSNode.location_add_length tokenNode.label).trans_le hlt.le
  | none => exact plainRangeAt_le h hstop hlocation

end Containment

/-! ## Homogeneity -/

section Homogeneity

variable {language : Language} {theme : ColorTheme} {length : ℕ} {root : Node} {location : ℕ}

/-- Every location of the effective range has the colour of the location. -/
def Homogeneous (language : Language) (theme : ColorTheme) (length : ℕ) (root : Node)
    (location : ℕ) : Prop :=
  ∀ index, (rangeAt language theme length root location).contains index = true →
    colorAt language theme length root index = colorAt language theme length root location

/-- A location whose walk is that of another location has its colour. -/
theorem colorAt_congr {index : ℕ}
    (h : descent (covers index) root = descent (covers location) root) :
    colorAt language theme length root index = colorAt language theme length root location := by
  unfold colorAt tokenAt
  rw [h]

/-- The range of a token is homogeneous. -/
theorem homogeneous_of_token (h : WellFormed root)
    (htoken : tokenAt language theme length root location ≠ none) :
    Homogeneous language theme length root location := by
  obtain ⟨⟨tokenNode, tokenType, color⟩, htoken⟩ := Option.ne_none_iff_exists'.mp htoken
  obtain ⟨hfind, hstorage⟩ := tokenAt_eq_some_iff.mp htoken
  intro index hindex
  have hrange : rangeAt language theme length root location =
      NSRange.ofCountableRange tokenNode.label.range := by
    unfold rangeAt
    rw [htoken]
  rw [hrange, contains_ofCountableRange] at hindex
  have hsame : tokenAt language theme length root index = some (tokenNode, tokenType, color) :=
    tokenAt_eq_some_iff.mpr ⟨h.find_descent_of_covers hfind hindex, hstorage⟩
  unfold colorAt
  rw [htoken, hsame]

/-- No child of the deepest node of a walk covers the location. -/
theorem not_covers_children_lastNodeAt :
    ∀ c ∈ (lastNodeAt root location).children, covers location c = false :=
  descent_eq_nil_iff.mp (descent_deepest (covers location) root)

/-- A range that ends at the next child of the deepest node is homogeneous. -/
theorem homogeneous_of_next (h : WellFormed root)
    (htoken : tokenAt language theme length root location = none)
    (hnext : ∃ c ∈ (lastNodeAt root location).children, location < c.label.start) :
    Homogeneous language theme length root location := by
  obtain ⟨hlast, -, -⟩ := lastNodeAt_within h location
  have hfind : ∃ endNode, (lastNodeAt root location).children.find?
      (fun c => decide (location < c.label.start)) = some endNode := by
    rw [← Option.isSome_iff_exists, List.find?_isSome]
    obtain ⟨c, hc, hlt⟩ := hnext
    exact ⟨c, hc, decide_eq_true hlt⟩
  obtain ⟨endNode, hfind⟩ := hfind
  have hrange : rangeAt language theme length root location =
      ⟨location, endNode.label.start - location⟩ := by
    unfold rangeAt
    rw [htoken]
    exact plainRangeAt_of_next hfind
  intro index hindex
  rw [hrange, NSRange.contains_iff] at hindex
  simp only at hindex
  have hlt : index < endNode.label.start := by omega
  apply colorAt_congr
  -- the walk to the index goes down to the same node and stops there as well
  apply h.descent_congr
  · by_cases hnil : descent (covers location) root = []
    · exact Or.inl (deepest_of_descent_eq_nil hnil)
    · right
      have hcovers := covers_lastNodeAt hnil
      have hend := (hlast.child_within (List.mem_of_find?_eq_some hfind)).2
      have hle := endNode.label.start_le_stop
      rw [covers_iff] at hcovers
      show covers index (lastNodeAt root location) = true
      rw [covers_iff]
      simp only [ranged_start, ranged_stop] at hcovers hend ⊢
      omega
  · intro c hc
    exact hlast.not_covers_of_lt_next not_covers_children_lastNodeAt hfind hindex.1 hlt hc

/-- The rest of the text behind a location that no child of the root covers is homogeneous. -/
theorem homogeneous_of_root (h : WellFormed root)
    (hroot : ∀ c ∈ root.children, covers location c = false) :
    Homogeneous language theme length root location := by
  have hnil : descent (covers location) root = [] := descent_eq_nil_iff.mpr hroot
  have hlast : lastNodeAt root location = root := deepest_of_descent_eq_nil hnil
  have htoken : tokenAt language theme length root location = none := by
    rw [tokenAt_eq_none_iff, hnil, List.find?_nil]
  cases hfind : root.children.find? (fun c => decide (location < c.label.start)) with
  | some endNode =>
      apply homogeneous_of_next h htoken
      rw [hlast]
      exact ⟨endNode, List.mem_of_find?_eq_some hfind, by simpa using List.find?_some hfind⟩
  | none =>
      have hrange : rangeAt language theme length root location =
          ⟨location, length - location⟩ := by
        unfold rangeAt
        rw [htoken]
        show plainRangeAt length root location = _
        rw [plainRangeAt_of_no_next (by rw [hlast, hfind]), hlast,
          if_pos (tsNodeEq_self root.label)]
      intro index hindex
      rw [hrange, NSRange.contains_iff] at hindex
      apply colorAt_congr
      rw [hnil, descent_eq_nil_iff]
      intro c hc
      exact not_covers_of_no_next hroot hfind hindex.1 hc

/-- Whether a token lies in the plain range of a location without next child: behind the location,
if `ts_node_eq` cannot tell the deepest node of the walk from the root, and else
inside that node. -/
def InPlainRange (root : Node) (location : ℕ) (tokenNode : Node) : Prop :=
  if tsNodeEq root.label (lastNodeAt root location).label then location < tokenNode.label.stop
  else (lastNodeAt root location).label.start < tokenNode.label.stop ∧
    tokenNode.label.start < (lastNodeAt root location).label.stop

/-- A token lies in the plain range of a location without next child exactly when it covers an index
of that range. -/
theorem inPlainRange_iff {tokenNode : Node} (hlocation : location < length)
    (hstop : tokenNode.label.stop < length)
    (hnonempty : tokenNode.label.start < tokenNode.label.stop)
    (hnil : descent (covers location) root ≠ [])
    (hfind : (lastNodeAt root location).children.find?
      (fun c => decide (location < c.label.start)) = none) :
    InPlainRange root location tokenNode ↔ ∃ index, covers index tokenNode = true ∧
      (plainRangeAt length root location).contains index = true := by
  have hcovers := covers_lastNodeAt hnil
  rw [covers_iff] at hcovers
  rw [plainRangeAt_of_no_next hfind]
  unfold InPlainRange
  simp only [covers_iff, ranged_start, ranged_stop] at hcovers ⊢
  by_cases heq : tsNodeEq root.label (lastNodeAt root location).label = true
  · rw [if_pos heq, if_pos heq]
    simp only [NSRange.contains_iff]
    constructor
    · intro hbehind
      exact ⟨max location tokenNode.label.start, by omega, by omega⟩
    · rintro ⟨index, hindex, hcontains⟩
      omega
  · rw [if_neg heq, if_neg heq]
    simp only [contains_ofCountableRange, covers_iff, ranged_start, ranged_stop]
    constructor
    · intro hoverlap
      exact ⟨max (lastNodeAt root location).label.start tokenNode.label.start, by omega, by omega⟩
    · rintro ⟨index, hindex, hcontains⟩
      omega

/-- A plain range without next child is homogeneous exactly when every token in it has the text
colour. -/
theorem homogeneous_iff_of_no_next (h : WellFormed root) (hlocation : location < length)
    (htoken : tokenAt language theme length root location = none)
    (hnil : descent (covers location) root ≠ [])
    (hfind : (lastNodeAt root location).children.find?
      (fun c => decide (location < c.label.start)) = none) :
    Homogeneous language theme length root location ↔
      ∀ tokenNode ∈ tokens language theme length root, ∀ tokenType color,
        storageToken language theme length tokenNode.label = some (tokenType, color) →
          InPlainRange root location tokenNode → color = TextStorage.textColor := by
  have hrange : rangeAt language theme length root location =
    plainRangeAt length root location := by
    unfold rangeAt
    rw [htoken]
  have hcolor : colorAt language theme length root location = TextStorage.textColor := by
    unfold colorAt
    rw [htoken]
  unfold Homogeneous
  rw [hrange, hcolor]
  constructor
  · intro hall tokenNode hmem tokenType color hstorage hin
    -- a location that lies in the range and in the token has the colour of the token
    obtain ⟨-, -, -, -, hstop, hnonempty⟩ := storageToken_eq_some_iff.mp hstorage
    obtain ⟨index, hindex, hcontains⟩ :=
      (inPlainRange_iff hlocation hstop hnonempty hnil hfind).mp hin
    have htokenAt : tokenAt language theme length root index = some (tokenNode, tokenType, color) :=
      (tokenAt_eq_some_iff_mem_tokens h).mpr ⟨⟨hmem, hindex⟩, hstorage⟩
    have hsame := hall index hcontains
    unfold colorAt at hsame
    rwa [htokenAt] at hsame
  · intro hall index hcontains
    unfold colorAt
    cases htokenAt : tokenAt language theme length root index with
    | none => rfl
    | some found =>
        -- the token of the index lies in the range
        obtain ⟨tokenNode, tokenType, color⟩ := found
        obtain ⟨⟨hmem, hindex⟩, hstorage⟩ := (tokenAt_eq_some_iff_mem_tokens h).mp htokenAt
        obtain ⟨-, -, -, -, hstop, hnonempty⟩ := storageToken_eq_some_iff.mp hstorage
        apply hall tokenNode hmem tokenType color hstorage
        exact (inPlainRange_iff hlocation hstop hnonempty hnil hfind).mpr
          ⟨index, hindex, hcontains⟩

/-- **When an effective range is homogeneous**: when a token covers the location, or the deepest
node of the walk has a child behind it, or no child of the root covers it, or every token in the
plain range has the text colour. -/
theorem homogeneous_iff (h : WellFormed root) (hlocation : location < length) :
    Homogeneous language theme length root location ↔
      (∃ tokenNode ∈ tokens language theme length root, covers location tokenNode = true) ∨
      (∃ c ∈ (lastNodeAt root location).children, location < c.label.start) ∨
      (∀ c ∈ root.children, covers location c = false) ∨
      ∀ tokenNode ∈ tokens language theme length root, ∀ tokenType color,
        storageToken language theme length tokenNode.label = some (tokenType, color) →
          InPlainRange root location tokenNode → color = TextStorage.textColor := by
  rw [← tokenAt_ne_none_iff h]
  by_cases htoken : tokenAt language theme length root location = none
  · by_cases hnext : ∃ c ∈ (lastNodeAt root location).children, location < c.label.start
    · exact iff_of_true (homogeneous_of_next h htoken hnext) (Or.inr (Or.inl hnext))
    · by_cases hroot : ∀ c ∈ root.children, covers location c = false
      · exact iff_of_true (homogeneous_of_root h hroot) (Or.inr (Or.inr (Or.inl hroot)))
      · -- the walk leaves the root, and ends without a child behind the location
        have hwalk : descent (covers location) root ≠ [] := mt descent_eq_nil_iff.mp hroot
        have hfind : (lastNodeAt root location).children.find?
            (fun c => decide (location < c.label.start)) = none := by
          rw [List.find?_eq_none]
          intro c hc hlt
          exact hnext ⟨c, hc, of_decide_eq_true hlt⟩
        rw [homogeneous_iff_of_no_next h hlocation htoken hwalk hfind]
        constructor
        · exact fun hall => Or.inr (Or.inr (Or.inr hall))
        · rintro (hsome | hsome | hnone | hall)
          · exact absurd htoken hsome
          · exact absurd hsome hnext
          · exact absurd hnone hroot
          · exact hall
  · exact iff_of_true (homogeneous_of_token h htoken) (Or.inl htoken)

end Homogeneity

/-! ## Effective ranges of queries -/

namespace TextStorage

/-- An attribute query returns a range that contains the location, lies in the text, and has the
attributes of the location everywhere. -/
def EffectiveRangeSound (self : TextStorage) (text : Text) (location : ℕ) : Prop :=
  ∃ answer next r, self.attributes location true = some (answer, next) ∧
    answer.effectiveRange = some r ∧ r.contains location = true ∧
    r.location + r.length ≤ text.length ∧
    ∀ index, r.contains index = true → ∀ range, ∃ answer' next',
      self.attributes index range = some (answer', next') ∧ answer'.attributes = answer.attributes

variable {self : TextStorage} {text : Text} {root : Node} {location : ℕ}

/-- On an empty cache only homogeneity is in question. -/
theorem effectiveRangeSound_iff_homogeneous (h : self.Shows text root)
    (hempty : ∀ entry ∈ self.cache, entry = none) (hlocation : location < text.length) :
    self.EffectiveRangeSound text location ↔
      Homogeneous self.language self.theme text.length root location := by
  have hquery := h.attributes_of_empty hempty hlocation
  have hcontains := @contains_rangeAt self.language self.theme text.length root location hlocation
  have hle := @rangeAt_le self.language self.theme text.length root location h.wellFormed h.stop_le
    hlocation
  -- a query on any index of the range answers with the colour of the index
  have hindex : ∀ index, (rangeAt self.language self.theme text.length root location).contains index
      = true → ∀ range, ∃ next, self.attributes index range =
        some (⟨attributesForColor (colorAt self.language self.theme text.length root index),
          if range then (answerAt self.language self.theme text.length root index).effectiveRange
          else none⟩, next) := by
    intro index hin range
    rw [NSRange.contains_iff] at hin
    have hlt : index < text.length := by omega
    rw [h.attributes_of_miss hlt (h.cache_eq_none hempty hlt), attributes_answerAt]
    exact ⟨_, rfl⟩
  constructor
  · rintro ⟨answer, next, r, hanswer, hrange, -, -, hall⟩
    rw [hquery, Option.some.injEq, Prod.mk.injEq] at hanswer
    obtain ⟨rfl, -⟩ := hanswer
    rw [effectiveRange_answerAt, Option.some.injEq] at hrange
    subst hrange
    intro index hin
    obtain ⟨next', hindexed⟩ := hindex index hin true
    obtain ⟨answer', next'', hanswer', hsame⟩ := hall index hin true
    rw [hindexed, Option.some.injEq, Prod.mk.injEq] at hanswer'
    obtain ⟨rfl, -⟩ := hanswer'
    rwa [attributes_answerAt, attributesForColor_inj] at hsame
  · intro hhomogeneous
    refine ⟨_, _, _, hquery, effectiveRange_answerAt location, hcontains, hle, ?_⟩
    intro index hin range
    obtain ⟨next', hindexed⟩ := hindex index hin range
    refine ⟨_, _, hindexed, ?_⟩
    rw [attributes_answerAt, hhomogeneous index hin]

/-- **When an effective range is sound.** From an empty cache, the range of a location is sound
exactly when a token covers the location, or the deepest node of its walk has a child behind it, or
no child of the root covers it, or every token in the plain range has the text colour. -/
theorem effectiveRangeSound_iff (h : self.Shows text root)
    (hempty : ∀ entry ∈ self.cache, entry = none) (hlocation : location < text.length) :
    self.EffectiveRangeSound text location ↔
      (∃ tokenNode ∈ tokens self.language self.theme text.length root,
        covers location tokenNode = true) ∨
      (∃ c ∈ (lastNodeAt root location).children, location < c.label.start) ∨
      (∀ c ∈ root.children, covers location c = false) ∨
      ∀ tokenNode ∈ tokens self.language self.theme text.length root, ∀ tokenType color,
        storageToken self.language self.theme text.length tokenNode.label =
          some (tokenType, color) → InPlainRange root location tokenNode → color = textColor := by
  rw [effectiveRangeSound_iff_homogeneous h hempty hlocation,
    homogeneous_iff h.wellFormed hlocation]

/-- The range of the number of `[1]`. -/
theorem effectiveRangeSound_iff_array :
    arrayStorage.EffectiveRangeSound arrayText 1 ↔
      (∃ tokenNode ∈ tokens arrayStorage.language arrayStorage.theme arrayText.length arrayRoot,
        covers 1 tokenNode = true) ∨
      (∃ c ∈ (lastNodeAt arrayRoot 1).children, 1 < c.label.start) ∨
      (∀ c ∈ arrayRoot.children, covers 1 c = false) ∨
      ∀ tokenNode ∈ tokens arrayStorage.language arrayStorage.theme arrayText.length arrayRoot,
        ∀ tokenType color,
          storageToken arrayStorage.language arrayStorage.theme arrayText.length tokenNode.label =
            some (tokenType, color) →
          InPlainRange arrayRoot 1 tokenNode → color = textColor :=
  effectiveRangeSound_iff shows_arrayStorage (fun _ => eq_none_of_mem_cache_opened) (by decide)

/-- The text `#ifdef A`, and `#endif` on the next line. -/
def ifdefText : Text :=
  [0x23, 0x69, 0x66, 0x64, 0x65, 0x66, 0x20, 0x41, 0x0a, 0x23, 0x65, 0x6e, 0x64, 0x69, 0x66]

/-- A node of the tree of `ifdefText`, by its symbol, whether handles see it, the text in front of
it from the start of its parent's padding, and its size. -/
def ifdefNode (symbol : UInt16) (visible : Bool) (offset padding size : Length)
    (children : List Tree) : Tree :=
  .node
    { symbol := symbol
      visible := visible
      named := visible
      padding := padding
      size := size
      offset := offset }
    children

/-- The tree of `ifdefText`: a `sym_translation_unit` with a `sym_preproc_ifdef`, of which handles
see only the `sym_identifier` between the two directives. -/
def ifdefTree : Tree :=
  ifdefNode 107 true Length.zero Length.zero ⟨30, 15, ⟨1, 6⟩⟩
    [ifdefNode 116 true Length.zero Length.zero ⟨30, 15, ⟨1, 6⟩⟩
      [ifdefNode 12 false Length.zero Length.zero ⟨12, 6, ⟨0, 6⟩⟩ [],
        ifdefNode 91 true ⟨12, 6, ⟨0, 6⟩⟩ ⟨2, 1, ⟨0, 1⟩⟩ ⟨2, 1, ⟨0, 1⟩⟩ [],
        ifdefNode 11 false ⟨16, 8, ⟨0, 8⟩⟩ ⟨2, 1, ⟨1, 0⟩⟩ ⟨12, 6, ⟨0, 6⟩⟩ []]]

/-- A storage on `ifdefText`, with every symbol structural. -/
def ifdefStorage : TextStorage :=
  opened ifdefText ifdefTree .default (Language.cpp 231
    (fun _ => ⟨true, true, true, false⟩) (by decide))

/-- The visible tree of `ifdefText`. -/
def ifdefRoot : Node := ifdefStorage.document.rootNode.get rfl

/-- The range of `#endif` is all of the conditional, with the coloured name in it. -/
theorem not_effectiveRangeSound_ifdef :
    ¬ ∀ (self : TextStorage) (text : Text) (root : Node), self.Shows text root →
      (∀ entry ∈ self.cache, entry = none) →
      ∀ location, location < text.length → self.EffectiveRangeSound text location := by
  intro hall
  have hshows : ifdefStorage.Shows ifdefText ifdefRoot :=
    shows_opened (by decide) rfl (by decide) (by decide)
  obtain ⟨answer, next, r, hanswer, hrange, -, -, hsame⟩ := hall ifdefStorage ifdefText ifdefRoot
    hshows (fun _ => eq_none_of_mem_cache_opened) 9 (by decide)
  have hendif : (ifdefStorage.attributes 9 true).map Prod.fst =
      some ⟨attributesForColor textColor, some ⟨0, 15⟩⟩ := by decide +kernel
  have hname : (ifdefStorage.attributes 7 true).map (fun result => result.1.attributes) ≠
      some (attributesForColor textColor) := by decide +kernel
  rw [hanswer, Option.map_some, Option.some.injEq] at hendif
  change answer = _ at hendif
  rw [hendif, Option.some.injEq] at hrange
  obtain ⟨answer', next', hanswer', hequal⟩ := hsame 7 (hrange ▸ by decide) true
  apply hname
  rw [hanswer', Option.map_some, hequal, hendif]

end TextStorage

end TreeSitterTextStorage
