import TreeSitterTextStorage.Delegate.TextStorageDelegate
import TreeSitterTextStorage.Highlighting.OutermostTokens
import TreeSitterTextStorage.Storage.Queries

/-! # What the delegate recolours

`parse(textStorage:)` is to colour all of the text as `Node.write` does. It walks to index 0 only, so
it meets no node that starts behind the first unit, and its guard asks for a closed range inside the
text, so it passes over the nodes that end with the text. Of the nodes it does colour the innermost one
wins at every unit, where `Node.write` stops at the outermost one. -/

namespace TreeSitterTextStorage

open RoseTree RangedTree

namespace TextStorageDelegate

/-! ## The recoloured nodes -/

section Recoloured

variable (language : Language) (length : ℕ)

/-- The guards of `parse(textStorage:)` on a node: the colour that passes them. -/
def recolour (node : Node) : Option UIColor :=
  if containsIntegersIn length node.label.start node.label.stop ∧ node.label.symbol ≠ 0 then
    (language.tokenType node.label.symbol).bind ColorTheme.default.color
  else none

/-- A node that `parse(textStorage:)` colours, with its colour: it lies below the root over index 0,
passes the guards that `Node.write` has as well, and ends before the text does. -/
structure Recoloured (root node : Node) (color : UIColor) : Prop where
  /-- The node lies below the root. -/
  below : Below root node
  /-- The node covers index 0. -/
  first : node.label.range.contains 0 = true
  /-- The symbol is not the one of the end of the text. -/
  symbol_ne : node.label.symbol ≠ 0
  /-- The token type of the symbol has the colour in the default theme. -/
  themed : ∃ tokenType, language.tokenType node.label.symbol = some tokenType ∧
    ColorTheme.default.color tokenType = some color
  /-- The node ends before the text does. -/
  stop_lt : node.label.stop < length

variable {language length}

/-- What the guards ask of a node. -/
theorem recolour_eq_some_iff {node : Node} {color : UIColor} :
    recolour language length node = some color ↔
      node.label.stop < length ∧ node.label.symbol ≠ 0 ∧
        ∃ tokenType, language.tokenType node.label.symbol = some tokenType ∧
          ColorTheme.default.color tokenType = some color := by
  have hle := node.label.start_le_stop
  rw [recolour, Option.ite_none_right_eq_some, Option.bind_eq_some_iff, containsIntegersIn,
    decide_eq_true_iff, and_assoc]
  exact and_congr_left fun _ => ⟨And.right, fun hstop => ⟨by omega, hstop⟩⟩

/-- A round of the loop sets the colour that passes the guards. -/
theorem parseNode_eq (textStorage : NSTextStorage) (node : Node) :
    parseNode language length textStorage node =
      match recolour language length node with
      | some color => textStorage.setAttributes (attributes color)
          (NSRange.ofCountableRange node.label.range)
      | none => some textStorage := by
  rw [parseNode, recolour]
  by_cases hcontains : containsIntegersIn length node.label.start node.label.stop = true
  · by_cases hsymbol : node.label.symbol = 0
    · simp [hcontains, hsymbol]
    · rw [hcontains, Bool.not_true, if_neg Bool.false_ne_true, if_neg hsymbol,
        if_pos ⟨rfl, hsymbol⟩]
      cases language.tokenType node.label.symbol with
      | none => rfl
      | some tokenType =>
          rw [Option.bind_some]
          cases hcolor : ColorTheme.default.color tokenType <;> simp only [hcolor]
  · simp [hcontains]

variable (language length)

/-- The nodes that the loop colours, in the order of the loop. -/
def recolouredNodes (root : Node) : List Node :=
  (descent (covers 0) root).filter fun node => (recolour language length node).isSome

variable {language length}

/-- The loop colours exactly the recoloured nodes of a well-formed tree. -/
theorem mem_recolouredNodes_iff {root node : Node} (h : WellFormed root) :
    node ∈ recolouredNodes language length root ↔
      HasNode root node ∧ ∃ color, Recoloured language length root node color := by
  rw [recolouredNodes, List.mem_filter, h.mem_descent_iff, Option.isSome_iff_exists]
  constructor
  · rintro ⟨⟨hbelow, hfirst⟩, color, hcolor⟩
    obtain ⟨hstop, hsymbol, hthemed⟩ := recolour_eq_some_iff.mp hcolor
    exact ⟨Or.inr hbelow, color, hbelow, hfirst, hsymbol, hthemed, hstop⟩
  · rintro ⟨-, color, hbelow, hfirst, hsymbol, hthemed, hstop⟩
    exact ⟨⟨hbelow, hfirst⟩, color, recolour_eq_some_iff.mpr ⟨hstop, hsymbol, hthemed⟩⟩

/-- On the way of the loop every recoloured node lies below the ones before it. -/
theorem pairwise_recolouredNodes (root : Node) :
    (recolouredNodes language length root).Pairwise Below :=
  (List.pairwise_cons.mp (pairwise_descent (covers 0) root)).2.filter _

/-- The colour of a recoloured node is the one that passes the guards. -/
theorem Recoloured.recolour_eq {root node : Node} {color : UIColor}
    (h : Recoloured language length root node color) :
    recolour language length node = some color :=
  recolour_eq_some_iff.mpr ⟨h.stop_lt, h.symbol_ne, h.themed⟩

/-- `Node.write` colours a recoloured node as well, unless it stops above it. -/
theorem Recoloured.qualifies {root node : Node} {color : UIColor}
    (h : Recoloured language length root node color) :
    Qualifies language .default length node color := by
  have hfirst := covers_iff.mp ((contains_range_eq 0 node).symm.trans h.first)
  simp only [ranged_start, ranged_stop] at hfirst
  have hstop := h.stop_lt
  exact ⟨h.symbol_ne, h.themed, by omega, hstop.le, by omega⟩

/-- A recoloured node covers the last unit in front of its end. -/
theorem Recoloured.covers_last {root node : Node} {color : UIColor}
    (h : Recoloured language length root node color) :
    covers (node.label.stop - 1) node = true := by
  have hlt := h.qualifies.nonempty
  rw [covers_iff]
  simp only [ranged_start, ranged_stop]
  omega

end Recoloured

/-! ## The painted units -/

section Painted

variable {language : Language} {length : ℕ}

/-- Setting attributes of a text storage sets them in its attributed string. -/
theorem attributes_of_setAttributes {textStorage painted : NSTextStorage} {attributes : Attributes}
    {range : NSRange} (h : textStorage.setAttributes attributes range = some painted) :
    setAttributes textStorage.attributes attributes range = some painted.attributes := by
  unfold NSTextStorage.setAttributes at h
  split at h
  · next result hresult => rw [hresult, ← Option.some.inj h]
  · exact absurd h.symm (Option.some_ne_none painted)

/-- The rounds of the loop set the attributes of the nodes that pass the guards, in order. -/
theorem foldlM_parseNode {nodes : List Node} {textStorage painted : NSTextStorage}
    (h : nodes.foldlM (parseNode language length) textStorage = some painted) :
    (nodes.filter fun node => (recolour language length node).isSome).foldlM
      (fun attributedString node => setAttributes attributedString
        ⟨recolour language length node, none⟩ (NSRange.ofCountableRange node.label.range))
      textStorage.attributes = some painted.attributes := by
  induction nodes generalizing textStorage with
  | nil => rw [← Option.some.inj h]; rfl
  | cons node rest ih =>
      rw [List.foldlM_cons] at h
      obtain ⟨next, hnext, hrest⟩ := Option.bind_eq_some_iff.mp h
      rw [parseNode_eq] at hnext
      cases hcolor : recolour language length node with
      | none =>
          rw [hcolor] at hnext
          rw [List.filter_cons_of_neg (by simp [hcolor]), Option.some.inj hnext]
          exact ih hrest
      | some color =>
          rw [hcolor] at hnext
          rw [List.filter_cons_of_pos (by simp [hcolor]), List.foldlM_cons, hcolor]
          exact Option.bind_eq_some_iff.mpr ⟨_, attributes_of_setAttributes hnext, ih hrest⟩

/-- The attributes that `parse(textStorage:)` leaves: those of the last recoloured node over a unit, or
the old ones. -/
theorem getElem?_parse {document : Document} {root : Node} (hroot : document.rootNode = some root)
    {textStorage painted : NSTextStorage} (h : parse document textStorage = some painted)
    (index : ℕ) :
    painted.attributes[index]? =
      (((recolouredNodes document.language textStorage.length root).filter
        (covers index)).getLast?.map fun node =>
          ⟨recolour document.language textStorage.length node, none⟩).or
        textStorage.attributes[index]? := by
  rw [parse, hroot, Option.bind_eq_bind, Option.bind_some,
    TraverseInRangeGenerator.nodes_eq_descent] at h
  have hfold := foldlM_parseNode h
  have hinside : ∀ node ∈ recolouredNodes document.language textStorage.length root,
      (NSRange.ofCountableRange node.label.range).location +
        (NSRange.ofCountableRange node.label.range).length ≤ textStorage.attributes.length := by
    intro node hnode
    obtain ⟨color, hcolor⟩ := Option.isSome_iff_exists.mp (List.mem_filter.mp hnode).2
    exact (TSNode.location_add_length node.label).trans_le
      (textStorage.length_eq ▸ (recolour_eq_some_iff.mp hcolor).1.le)
  obtain ⟨result, hresult, -, hget⟩ := foldlM_setAttributes
    (fun node => ⟨recolour document.language textStorage.length node, none⟩)
    (fun node => NSRange.ofCountableRange node.label.range) hinside
  obtain rfl := Option.some.inj (hresult.symm.trans hfold)
  simp only [hget, contains_ofCountableRange, recolouredNodes]

/-- The last recoloured node over a unit is the innermost one. -/
theorem innermostAt_of_getLast_recolouredNodes {root node : Node} (h : WellFormed root) {index : ℕ}
    (hlast : ((recolouredNodes language length root).filter (covers index)).getLast? = some node) :
    InnermostAt (fun node => ∃ color, Recoloured language length root node color) index root node :=
  innermostAt_of_getLast (pairwise_recolouredNodes root) (fun _ => mem_recolouredNodes_iff h) hlast

/-- Over a unit that a recoloured node covers there is an innermost one. -/
theorem exists_innermostAt_recoloured {root : Node} (h : WellFormed root) {index : ℕ}
    (hexists : ∃ node color, Recoloured language length root node color ∧
      node.label.range.contains index = true) :
    ∃ node, InnermostAt (fun node => ∃ color, Recoloured language length root node color)
      index root node := by
  cases hlast : ((recolouredNodes language length root).filter (covers index)).getLast? with
  | none =>
      obtain ⟨node, color, hnode, hcontains⟩ := hexists
      have hnone := (getLast_filter_covers_eq_none_iff fun _ => mem_recolouredNodes_iff h).mp hlast
        node (Or.inr hnode.below) ⟨color, hnode⟩
      exact absurd ((contains_range_eq index node).symm.trans hcontains) (by simp [hnone])
  | some node => exact ⟨node, innermostAt_of_getLast_recolouredNodes h hlast⟩

/-- A recoloured node that ends behind all recoloured nodes below it is the innermost one over its last
unit. -/
theorem Recoloured.innermostAt_last {root node : Node} {color : UIColor} (h : WellFormed root)
    (hnode : Recoloured language length root node color)
    (hbehind : ∀ inner innerColor, Recoloured language length root inner innerColor →
      Below node inner → inner.label.stop < node.label.stop) :
    InnermostAt (fun node => ∃ color, Recoloured language length root node color)
      (node.label.stop - 1) root node := by
  refine ⟨Or.inr hnode.below, hnode.covers_last, ⟨color, hnode⟩, ?_⟩
  rintro inner hinner hcovers ⟨innerColor, hinnerColor⟩
  rcases h.comparable hinner (Or.inr hnode.below) hcovers hnode.covers_last with
    heq | habove | hbelow
  · exact Or.inl heq
  · exact Or.inr habove
  · -- a recoloured node below ends in front of the last unit
    have hlt := hbehind inner innerColor hinnerColor hbelow
    have hstop := (covers_iff.mp hcovers).2
    simp only [ranged_stop] at hstop
    omega

/-- The recoloured nodes below the innermost one over a unit end in front of the unit. -/
theorem stop_lt_of_innermostAt {root node : Node} {index : ℕ}
    (h : InnermostAt (fun node => ∃ color, Recoloured language length root node color)
      index root node) (inner : Node) (color : UIColor)
    (hinner : Recoloured language length root inner color) (hbelow : Below node inner) :
    inner.label.stop < node.label.stop := by
  have hcovers := (covers_iff.mp h.covers).2
  have hfirst := covers_iff.mp ((contains_range_eq 0 inner).symm.trans hinner.first)
  simp only [ranged_start, ranged_stop] at hcovers hfirst
  have hnot : covers index inner = false := by
    rw [Bool.eq_false_iff]
    intro hindex
    rcases h.below inner (Or.inr hinner.below) hindex ⟨color, hinner⟩ with heq | habove
    · exact hbelow.ne heq.symm
    · exact hbelow.asymm habove
  rw [covers_eq_false_iff] at hnot
  simp only [ranged_start, ranged_stop] at hnot
  omega

/-- `parse(textStorage:)` leaves the colour of the innermost recoloured node. -/
theorem foregroundColor_parse {document : Document} {root : Node}
    (hroot : document.rootNode = some root) (hwellFormed : WellFormed root)
    {textStorage painted : NSTextStorage} (h : parse document textStorage = some painted)
    {index : ℕ} {node : Node} {color : UIColor}
    (hinnermost : InnermostAt
      (fun node => ∃ color, Recoloured document.language textStorage.length root node color)
      index root node)
    (hcolor : Recoloured document.language textStorage.length root node color) :
    painted.attributes[index]?.bind Attributes.foregroundColor = some color := by
  rw [getElem?_parse hroot h]
  cases hlast : ((recolouredNodes document.language textStorage.length root).filter
      (covers index)).getLast? with
  | none =>
      have hnone := (getLast_filter_covers_eq_none_iff fun _ =>
        mem_recolouredNodes_iff hwellFormed).mp hlast node hinnermost.hasNode hinnermost.holds
      rw [hinnermost.covers] at hnone
      exact Bool.noConfusion hnone
  | some last =>
      obtain rfl := hinnermost.unique (innermostAt_of_getLast_recolouredNodes hwellFormed hlast)
      exact hcolor.recolour_eq

end Painted

/-! ## Complete recolouring -/

/-- What recolouring is to achieve: it completes, and every unit has the colour that `Node.write` leaves
when it paints the same tree into the same attributed string. -/
def RecolouringComplete (font : UIFont) (document : Document) (root : Node)
    (textStorage : NSTextStorage) : Prop :=
  ∃ painted, parse document textStorage = some painted ∧
    ∀ written, write document.language .default textStorage.length font root
        textStorage.attributes = some written →
      ∀ index < textStorage.length,
        painted.attributes[index]?.bind Attributes.foregroundColor =
          written[index]?.bind Attributes.foregroundColor

/-- When the walk to index 0 colours enough, and the innermost node is as good as the outermost one. -/
structure WalkSuffices (language : Language) (length : ℕ) (root : Node)
    (attributedString : AttributedString) : Prop where
  /-- What no recoloured node covers already has the colour of the outermost token over it. -/
  uncovered : ∀ index < length,
    (∀ node color, Recoloured language length root node color →
      node.label.range.contains index = false) →
    ∀ token color,
      OutermostAt (fun token => ∃ color, Qualifies language .default length token color)
        index root token →
      Qualifies language .default length token color →
      attributedString[index]?.bind Attributes.foregroundColor = some color
  /-- A recoloured node that ends behind all recoloured nodes below it has the colour of the outermost
  token over index 0. -/
  nested : ∀ node color, Recoloured language length root node color →
    (∀ inner innerColor, Recoloured language length root inner innerColor → Below node inner →
      inner.label.stop < node.label.stop) →
    ∀ token tokenColor,
      OutermostAt (fun token => ∃ color, Qualifies language .default length token color)
        0 root token →
      Qualifies language .default length token tokenColor → tokenColor = color

section Complete

variable {document : Document} {root : Node} {textStorage : NSTextStorage} {font : UIFont}

/-- A unit that no recoloured node covers keeps its attributes. -/
theorem getElem?_parse_of_not_recoloured (hroot : document.rootNode = some root)
    (hwellFormed : WellFormed root) {painted : NSTextStorage}
    (h : parse document textStorage = some painted) {index : ℕ}
    (hnone : ∀ node color, Recoloured document.language textStorage.length root node color →
      node.label.range.contains index = false) :
    painted.attributes[index]? = textStorage.attributes[index]? := by
  have hlast : ((recolouredNodes document.language textStorage.length root).filter
      (covers index)).getLast? = none := by
    refine (getLast_filter_covers_eq_none_iff fun _ => mem_recolouredNodes_iff hwellFormed).mpr ?_
    rintro node - ⟨color, hcolor⟩
    exact hnone node color hcolor
  rw [getElem?_parse hroot h, hlast]
  rfl

/-- The walk suffices when recolouring is complete. -/
theorem walkSuffices_of_recolouringComplete (hroot : document.rootNode = some root)
    (hwellFormed : WellFormed root) (hbound : textStorage.length < 2 ^ 32)
    (h : RecolouringComplete font document root textStorage) :
    WalkSuffices document.language textStorage.length root textStorage.attributes := by
  have hlength : textStorage.length ≤ textStorage.attributes.length := textStorage.length_eq.ge
  have hexists : ∃ written, write document.language .default textStorage.length font root
      textStorage.attributes = some written := exists_write font root hlength hbound
  obtain ⟨painted, hpainted, hcomplete⟩ := h
  obtain ⟨written, hwritten⟩ := hexists
  have hsame := hcomplete written hwritten
  constructor
  · intro index hindex huncovered token color houtermost hqualifies
    rw [← getElem?_parse_of_not_recoloured hroot hwellFormed hpainted huncovered, hsame index hindex,
      getElem?_write_of_outermostAt hwellFormed hlength hwritten houtermost hqualifies]
    rfl
  · intro node color hnode hinner token tokenColor houtermost hqualifies
    -- the last unit of the node shows its own colour on one side and the token's on the other
    have hinnermost := hnode.innermostAt_last hwellFormed hinner
    have hlast := hwellFormed.outermostAt_congr houtermost (Or.inr hnode.below)
      ⟨color, hnode.qualifies⟩ hnode.first hnode.covers_last
    have hlt : node.label.stop - 1 < textStorage.length :=
      (Nat.sub_le _ _).trans_lt hnode.stop_lt
    have hcolor := hsame (node.label.stop - 1) hlt
    rw [foregroundColor_parse hroot hwellFormed hpainted hinnermost hnode,
      getElem?_write_of_outermostAt hwellFormed hlength hwritten hlast hqualifies] at hcolor
    exact (Option.some.inj hcolor).symm

/-- Recolouring is complete when the walk suffices. -/
theorem foregroundColor_parse_eq (hroot : document.rootNode = some root)
    (hwellFormed : WellFormed root)
    (h : WalkSuffices document.language textStorage.length root textStorage.attributes)
    {painted : NSTextStorage} (hpainted : parse document textStorage = some painted)
    {written : AttributedString}
    (hwritten : write document.language .default textStorage.length font root
      textStorage.attributes = some written) {index : ℕ} (hindex : index < textStorage.length) :
    painted.attributes[index]?.bind Attributes.foregroundColor =
      written[index]?.bind Attributes.foregroundColor := by
  have hlength : textStorage.length ≤ textStorage.attributes.length := textStorage.length_eq.ge
  by_cases hrecoloured : ∃ node color,
      Recoloured document.language textStorage.length root node color ∧
        node.label.range.contains index = true
  · obtain ⟨node, hinnermost⟩ := exists_innermostAt_recoloured hwellFormed hrecoloured
    obtain ⟨color, hnode⟩ := hinnermost.holds
    obtain ⟨token, call, -, houtermost, hqualifies⟩ := exists_paintedBy hwellFormed
      ⟨node, color, hinnermost.hasNode, hinnermost.covers, hnode.qualifies⟩
    have hfirst := hwellFormed.outermostAt_congr houtermost hinnermost.hasNode
      ⟨color, hnode.qualifies⟩ hinnermost.covers hnode.first
    have hcolor : call.color = color :=
      h.nested node color hnode (stop_lt_of_innermostAt hinnermost) token call.color hfirst hqualifies
    rw [foregroundColor_parse hroot hwellFormed hpainted hinnermost hnode,
      getElem?_write_of_outermostAt hwellFormed hlength hwritten houtermost hqualifies, hcolor]
    rfl
  · have huncovered : ∀ node color,
        Recoloured document.language textStorage.length root node color →
          node.label.range.contains index = false := by
      intro node color hnode
      exact Bool.eq_false_iff.mpr fun hcontains => hrecoloured ⟨node, color, hnode, hcontains⟩
    rw [getElem?_parse_of_not_recoloured hroot hwellFormed hpainted huncovered]
    by_cases hqualifies : ∃ token color, HasNode root token ∧
        token.label.range.contains index = true ∧
        Qualifies document.language .default textStorage.length token color
    · obtain ⟨token, call, -, houtermost, hqualifies⟩ := exists_paintedBy hwellFormed hqualifies
      rw [getElem?_write_of_outermostAt hwellFormed hlength hwritten houtermost hqualifies,
        h.uncovered index hindex huncovered token call.color houtermost hqualifies]
      rfl
    · rw [getElem?_write_of_not_qualifies hwellFormed hlength hwritten]
      exact fun token color htoken hcontains hcolor =>
        hqualifies ⟨token, color, htoken, hcontains, hcolor⟩

/-- Where `Node.write` completes on a text beyond `UInt32` nothing is themed, so nothing is asked. -/
theorem walkSuffices_of_not_lt {written : AttributedString} (hbound : ¬ textStorage.length < 2 ^ 32)
    (hwritten : write document.language .default textStorage.length font root
      textStorage.attributes = some written) :
    WalkSuffices document.language textStorage.length root textStorage.attributes := by
  constructor
  · intro index _ _ token color houtermost hqualifies
    obtain ⟨tokenType, htype, hcolor⟩ := hqualifies.themed
    exact absurd hcolor (not_themed_of_write (not_lt.mp hbound) hwritten houtermost.hasNode
      hqualifies.symbol_ne htype)
  · intro node color hnode
    obtain ⟨tokenType, htype, hcolor⟩ := hnode.themed
    exact absurd hcolor (not_themed_of_write (not_lt.mp hbound) hwritten (Or.inr hnode.below)
      hnode.symbol_ne htype)

/-- **When recolouring is complete.** On a well-formed tree recolouring leaves every unit with the
colour that `Node.write` gives it exactly when the walk to index 0 suffices; a text beyond `UInt32`
asks nothing, since `Node.write` colours nothing there. -/
theorem recolouringComplete_iff (hroot : document.rootNode = some root)
    (hwellFormed : WellFormed root) :
    RecolouringComplete font document root textStorage ↔
      (textStorage.length < 2 ^ 32 →
        WalkSuffices document.language textStorage.length root textStorage.attributes) := by
  constructor
  · exact fun h hbound => walkSuffices_of_recolouringComplete hroot hwellFormed hbound h
  · intro h
    obtain ⟨painted, hpainted, -⟩ := parse_eq_some hroot textStorage
    refine ⟨painted, hpainted, fun written hwritten index hindex => ?_⟩
    have hsuffices :
        WalkSuffices document.language textStorage.length root textStorage.attributes := by
      by_cases hbound : textStorage.length < 2 ^ 32
      · exact h hbound
      · exact walkSuffices_of_not_lt hbound hwritten
    exact foregroundColor_parse_eq hroot hwellFormed hsuffices hpainted hwritten hindex

end Complete

/-- A text storage with the text `[1]`, all of it black. -/
def arrayTextStorage : NSTextStorage := ⟨arrayText, List.replicate 3 ⟨some .black, none⟩, rfl⟩

/-- The theorem on `[1]`. -/
theorem recolouringComplete_iff_array :
    RecolouringComplete ⟨"Menlo", 12⟩ arrayStorage.document arrayRoot arrayTextStorage ↔
      WalkSuffices Language.json 3 arrayRoot (List.replicate 3 ⟨some .black, none⟩) :=
  (recolouringComplete_iff rfl (by decide)).trans (forall_prop_of_true (by decide))

/-- The number of `[1]` starts behind the first unit and stays black. -/
theorem not_recolouringComplete_array :
    ¬ ∀ (font : UIFont) (document : Document) (root : Node) (textStorage : NSTextStorage),
      document.input.data = utf16Data textStorage.string → document.rootNode = some root →
        WellFormed root → root.label.stop ≤ textStorage.length →
          RecolouringComplete font document root textStorage := by
  intro hall
  obtain ⟨painted, hpainted, hsame⟩ := hall ⟨"Menlo", 12⟩ arrayStorage.document arrayRoot
    arrayTextStorage rfl rfl (by decide) (by decide)
  have hblack : (parse arrayStorage.document arrayTextStorage).bind
      (fun painted => painted.attributes[1]?.bind Attributes.foregroundColor) = some .black := by
    decide +kernel
  have hnumber : (write arrayStorage.document.language .default arrayTextStorage.length ⟨"Menlo", 12⟩
      arrayRoot arrayTextStorage.attributes).bind
      (fun written => written[1]?.bind Attributes.foregroundColor) = some (.rgb 40 52 206) := by
    decide +kernel
  obtain ⟨written, hwritten, hcolor⟩ := Option.bind_eq_some_iff.mp hnumber
  have heq := hsame written hwritten 1 (by decide)
  rw [hpainted, Option.bind_some, heq, hcolor] at hblack
  exact absurd hblack (by decide)

end TextStorageDelegate

end TreeSitterTextStorage
