import TreeSitterTextStorage.Highlighting.AttributedString
import TreeSitterTextStorage.Highlighting.IndexWalk

/-! # Painting the outermost tokens

What `Node.write` leaves behind, in terms of the tree alone: every unit has the attributes of the
outermost node over it that qualifies as a token, and the units without such a node keep theirs. The
order in which the nodes are painted does not matter, since no two painted nodes overlap. -/

namespace TreeSitterTextStorage

open RoseTree RangedTree

/-! ## Qualifying nodes -/

section Qualifying

variable (language : Language) (theme : ColorTheme) (length : ℕ)

/-- A node that qualifies as a token of a string of the given length, with its colour. -/
structure Qualifies (token : Node) (color : UIColor) : Prop where
  /-- The symbol is not the one of the end of the text. -/
  symbol_ne : token.label.symbol ≠ 0
  /-- The token type of the symbol has the colour in the theme. -/
  themed : ∃ tokenType, language.tokenType token.label.symbol = some tokenType ∧
    theme.color tokenType = some color
  /-- The node starts inside the string. -/
  start_lt : token.label.start < length
  /-- The node ends inside the string. -/
  stop_le : token.label.stop ≤ length
  /-- The range of the node is not empty. -/
  nonempty : token.label.start < token.label.stop

variable {language theme length}

/-- The nodes at which `Node.write` stops are the ones that qualify. -/
theorem writeToken_iff_qualifies {token : Node} {color : UIColor} :
    (∃ tokenType, writeToken language theme length token.label = some (tokenType, color)) ↔
      Qualifies language theme length token color := by
  constructor
  · rintro ⟨tokenType, htoken⟩
    obtain ⟨hsymbol, htype, hcolor, hstart, hstop, hlt⟩ := writeToken_eq_some_iff.mp htoken
    exact ⟨hsymbol, ⟨tokenType, htype, hcolor⟩, hstart, hstop, hlt⟩
  · rintro ⟨hsymbol, ⟨tokenType, htype, hcolor⟩, hstart, hstop, hlt⟩
    exact ⟨tokenType, writeToken_eq_some_iff.mpr ⟨hsymbol, htype, hcolor, hstart, hstop, hlt⟩⟩

theorem writes_iff_qualifies {token : Node} :
    writes language theme length token = true ↔
      ∃ color, Qualifies language theme length token color := by
  rw [writes, Option.isSome_iff_exists]
  constructor
  · rintro ⟨⟨tokenType, color⟩, htoken⟩
    exact ⟨color, writeToken_iff_qualifies.mp ⟨tokenType, htoken⟩⟩
  · rintro ⟨color, hqualifies⟩
    obtain ⟨tokenType, htoken⟩ := writeToken_iff_qualifies.mpr hqualifies
    exact ⟨(tokenType, color), htoken⟩

/-- The call for a node that qualifies sets its colour. -/
theorem exists_writeCall {token : Node} (h : writes language theme length token = true) :
    ∃ call, writeCall language theme length token = some call ∧
      Qualifies language theme length token call.color := by
  obtain ⟨⟨tokenType, color⟩, htoken⟩ := Option.isSome_iff_exists.mp h
  exact ⟨_, Option.map_eq_some_iff.mpr ⟨_, htoken, rfl⟩,
    writeToken_iff_qualifies.mp ⟨tokenType, htoken⟩⟩

/-- A node qualifies with one colour. -/
theorem Qualifies.color_unique {token : Node} {color color' : UIColor}
    (h : Qualifies language theme length token color)
    (h' : Qualifies language theme length token color') : color = color' := by
  obtain ⟨tokenType, htype, hcolor⟩ := h.themed
  obtain ⟨tokenType', htype', hcolor'⟩ := h'.themed
  obtain rfl := Option.some.inj (htype.symm.trans htype')
  exact Option.some.inj (hcolor.symm.trans hcolor')

end Qualifying

/-! ## Strings beyond `UInt32` -/

section Beyond

variable {language : Language} {theme : ColorTheme} {length : ℕ}

/-- On a length beyond `UInt32` the guards trap at every themed node and stop at no other. -/
theorem not_themed_of_writeGuards {self : TSNode} {token : Option (TokenType × UIColor)}
    (hbound : 2 ^ 32 ≤ length) (h : writeGuards language theme length self = some token) :
    token = none ∧ (self.symbol ≠ 0 → ∀ tokenType color,
      language.tokenType self.symbol = some tokenType → theme.color tokenType ≠ some color) := by
  have htrap : toUInt32 (length : ℤ) = none := by
    rw [toUInt32, if_neg (by omega)]
  rw [writeGuards] at h
  split at h
  · next hsymbol => exact ⟨(Option.some.inj h).symm, fun hne => absurd hsymbol hne⟩
  · split at h
    · next htype =>
        refine ⟨(Option.some.inj h).symm, fun _ tokenType color htype' => ?_⟩
        exact absurd (htype.symm.trans htype') (by simp)
    · next tokenType htype =>
        split at h
        · next hcolor =>
            refine ⟨(Option.some.inj h).symm, fun _ tokenType' color htype' => ?_⟩
            obtain rfl := Option.some.inj (htype.symm.trans htype')
            rw [hcolor]
            exact (Option.some_ne_none color).symm
        · rw [htrap, Option.bind_eq_bind, Option.bind_none] at h
          exact absurd h.symm (Option.some_ne_none token)

/-- When the loop over the children completes, it completes at each of them. -/
theorem exists_write_of_writeAll {font : UIFont} {children : List Node} {child : Node}
    {attributedString painted : AttributedString} (hchild : child ∈ children)
    (h : writeAll language theme length font children attributedString = some painted) :
    ∃ before after, write language theme length font child before = some after := by
  induction children generalizing attributedString with
  | nil => exact absurd hchild List.not_mem_nil
  | cons first rest ih =>
      rw [writeAll] at h
      obtain ⟨next, hnext, hrest⟩ := Option.bind_eq_some_iff.mp h
      rcases List.mem_cons.mp hchild with rfl | hchild
      · exact ⟨attributedString, next, hnext⟩
      · exact ih hchild hrest

/-- Where `Node.write` completes on a length beyond `UInt32`, no node of the tree is themed. -/
theorem not_themed_of_write {font : UIFont} {root token : Node}
    {attributedString painted : AttributedString} (hbound : 2 ^ 32 ≤ length)
    (h : write language theme length font root attributedString = some painted)
    (htoken : HasNode root token) (hsymbol : token.label.symbol ≠ 0) {tokenType : TokenType}
    {color : UIColor} (htype : language.tokenType token.label.symbol = some tokenType) :
    theme.color tokenType ≠ some color := by
  induction root using RoseTree.induct generalizing attributedString painted with
  | node self children ih =>
      obtain ⟨passed, hpassed, hrest⟩ := Option.bind_eq_some_iff.mp h
      obtain ⟨rfl, hthemed⟩ := not_themed_of_writeGuards hbound hpassed
      rcases htoken with rfl | hbelow
      · exact hthemed hsymbol tokenType color htype
      · -- the guards have stopped nowhere, so the loop has come to the child above the node
        obtain ⟨child, hchild, htoken⟩ := below_iff.mp hbelow
        obtain ⟨before, after, hwrite⟩ := exists_write_of_writeAll hchild hrest
        exact ih child hchild hwrite htoken

end Beyond

/-! ## The painted string -/

/-- What `Node.write` is to leave behind: the calls of `setAttributes` stay inside the string, lead to
the painted string, and every unit has the attributes of the outermost qualifying node over it, or its
old attributes where no node over it qualifies. -/
structure PaintsOutermost (language : Language) (theme : ColorTheme) (length : ℕ) (font : UIFont)
    (root : Node) (attributedString painted : AttributedString) : Prop where
  /-- The calls lead to the painted string. -/
  calls : (writeCalls language theme length root).foldlM (fun attributedString call =>
    setAttributes attributedString ⟨some call.color, some font⟩ call.range)
    attributedString = some painted
  /-- The calls stay inside the string. -/
  inside : ∀ call ∈ writeCalls language theme length root,
    call.range.location + call.range.length ≤ length
  /-- The outermost qualifying node over a unit decides its attributes. -/
  outermost : ∀ index, (∃ token color, HasNode root token ∧
      token.label.range.contains index = true ∧ Qualifies language theme length token color) →
    ∃ token color,
      OutermostAt (fun token => ∃ color, Qualifies language theme length token color)
        index root token ∧
      Qualifies language theme length token color ∧
      painted[index]? = some ⟨some color, some font⟩
  /-- A unit without qualifying node keeps its attributes. -/
  kept : ∀ index, (∀ token color, HasNode root token →
      token.label.range.contains index = true → ¬ Qualifies language theme length token color) →
    painted[index]? = attributedString[index]?

section Painted

variable {language : Language} {theme : ColorTheme} {length : ℕ}

/-- Over a unit with a qualifying node one call reaches the unit: the one for the outermost of
them. -/
theorem exists_paintedBy {root : Node} (h : WellFormed root) {index : ℕ}
    (hexists : ∃ token color, HasNode root token ∧ token.label.range.contains index = true ∧
      Qualifies language theme length token color) :
    ∃ token call, paintedBy (writeCalls language theme length root) index = some call ∧
      OutermostAt (fun token => ∃ color, Qualifies language theme length token color)
        index root token ∧
      Qualifies language theme length token call.color := by
  cases hfind : (coveringPath index root).find? (writes language theme length) with
  | none =>
      obtain ⟨token, color, hnode, hcontains, hqualifies⟩ := hexists
      have hwrites := h.find_coveringPath_eq_none_iff.mp hfind token hnode hcontains
      rw [writes_iff_qualifies.mpr ⟨color, hqualifies⟩] at hwrites
      exact Bool.noConfusion hwrites
  | some token =>
      obtain ⟨call, hcall, hqualifies⟩ := exists_writeCall (List.find?_some hfind)
      have houtermost := h.outermostAt_of_find hfind
      simp only [writes_iff_qualifies] at houtermost
      refine ⟨token, call, ?_, houtermost, hqualifies⟩
      rw [paintedBy_writeCalls h, hfind, Option.bind_some, hcall]

/-- No call reaches a unit without a qualifying node. -/
theorem paintedBy_eq_none {root : Node} (h : WellFormed root) {index : ℕ}
    (hnone : ∀ token color, HasNode root token → token.label.range.contains index = true →
      ¬ Qualifies language theme length token color) :
    paintedBy (writeCalls language theme length root) index = none := by
  rw [paintedBy_writeCalls h, h.find_coveringPath_eq_none_iff.mpr ?_, Option.bind_none]
  intro token hnode hcovers
  rw [Bool.eq_false_iff, Ne, writes_iff_qualifies]
  rintro ⟨color, hqualifies⟩
  exact hnone token color hnode hcovers hqualifies

/-- `Node.write` leaves the attributes of the outermost qualifying node. -/
theorem getElem?_write_of_outermostAt {root : Node} (h : WellFormed root) {font : UIFont}
    {attributedString painted : AttributedString} (hlength : length ≤ attributedString.length)
    (hpainted : write language theme length font root attributedString = some painted) {index : ℕ}
    {token : Node} {color : UIColor}
    (houtermost : OutermostAt (fun token => ∃ color, Qualifies language theme length token color)
      index root token)
    (hqualifies : Qualifies language theme length token color) :
    painted[index]? = some ⟨some color, some font⟩ := by
  obtain ⟨token', call, hcall, houtermost', hqualifies'⟩ :=
    exists_paintedBy h ⟨token, color, houtermost.hasNode, houtermost.covers, hqualifies⟩
  obtain rfl := houtermost.unique houtermost'
  obtain rfl := hqualifies'.color_unique hqualifies
  rw [getElem?_write hlength hpainted, hcall]

/-- `Node.write` leaves alone what no qualifying node covers. -/
theorem getElem?_write_of_not_qualifies {root : Node} (h : WellFormed root) {font : UIFont}
    {attributedString painted : AttributedString} (hlength : length ≤ attributedString.length)
    (hpainted : write language theme length font root attributedString = some painted) {index : ℕ}
    (hnone : ∀ token color, HasNode root token → token.label.range.contains index = true →
      ¬ Qualifies language theme length token color) :
    painted[index]? = attributedString[index]? := by
  rw [getElem?_write hlength hpainted, paintedBy_eq_none h hnone]

/-- **`Node.write` paints the outermost tokens** of a well-formed tree, on every string that is as long
as it is told: it completes on every length that is a `UInt32`, and whenever it completes, every unit
has the attributes of the outermost qualifying node over it. -/
theorem write_paintsOutermost {root : Node} (h : WellFormed root) (font : UIFont)
    {attributedString : AttributedString} (hlength : length ≤ attributedString.length) :
    (length < 2 ^ 32 →
      ∃ painted, write language theme length font root attributedString = some painted) ∧
    ∀ painted, write language theme length font root attributedString = some painted →
      PaintsOutermost language theme length font root attributedString painted := by
  refine ⟨exists_write font root hlength, ?_⟩
  intro painted hpainted
  refine ⟨foldlM_writeCalls_of_write hpainted, fun call => range_writeCalls, ?_, ?_⟩
  · intro index hexists
    obtain ⟨token, call, -, houtermost, hqualifies⟩ := exists_paintedBy h hexists
    exact ⟨token, call.color, houtermost, hqualifies,
      getElem?_write_of_outermostAt h hlength hpainted houtermost hqualifies⟩
  · exact fun index => getElem?_write_of_not_qualifies h hlength hpainted

end Painted

/-- Painting `[1]`. -/
theorem write_paintsOutermost_array :
    ∃ painted,
      write Language.json .default 3 ⟨"Menlo", 12⟩ (visibleNode arrayNode arrayNode.tree)
        (List.replicate 3 ⟨some .black, none⟩) = some painted ∧
      PaintsOutermost Language.json .default 3 ⟨"Menlo", 12⟩
        (visibleNode arrayNode arrayNode.tree) (List.replicate 3 ⟨some .black, none⟩) painted := by
  obtain ⟨hcompletes, hpaints⟩ :=
    @write_paintsOutermost Language.json .default 3 (visibleNode arrayNode arrayNode.tree)
      (by decide) ⟨"Menlo", 12⟩ (List.replicate 3 ⟨some .black, none⟩) (by decide)
  obtain ⟨painted, hpainted⟩ := hcompletes (by decide)
  exact ⟨painted, hpainted, hpaints painted hpainted⟩

end TreeSitterTextStorage
