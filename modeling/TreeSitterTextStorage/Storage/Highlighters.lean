import TreeSitterTextStorage.Storage.Queries

/-! # Two highlighters

An attribute query walks from below the root to a location; `Node.write` paints from the root down.
Both stop at the first node that passes their guards, but the query's guards ask for more and its
walk leaves the root out. -/

namespace TreeSitterTextStorage

open RangedTree
open RoseTree hiding node

/-! ## The two sets of guards -/

section Guards

variable {language : Language} {theme : ColorTheme} {length location : ℕ} {root : Node}

/-- The query's guards are those of `Node.write` and two more. -/
theorem isToken_iff {child : Node} :
    isToken language theme length child = true ↔
      writes language theme length child = true ∧
        (language.symbolMetadata child.label.symbol).structural = true ∧
        child.label.stop < length := by
  rw [isToken, storageToken, writes]
  split
  · next h => exact ⟨fun hwrites => ⟨hwrites, h⟩, fun hand => hand.1⟩
  · next h => exact iff_of_false Bool.false_ne_true fun hand => h hand.2

/-- Where a query finds a token, `Node.write` paints a node. -/
theorem find_writes_of_isToken {tokenNode : Node} (h : WellFormed root)
    (htoken : (descent (covers location) root).find? (isToken language theme length) =
      some tokenNode) :
    ((coveringPath location root).find? (writes language theme length)).isSome = true := by
  have hmem : tokenNode ∈ descent (covers location) root := List.mem_of_find?_eq_some htoken
  have hcovers : covers location root = true := h.covers_of_mem_descent hmem (of_mem_descent hmem)
  rw [List.find?_isSome, coveringPath, if_pos hcovers]
  exact ⟨tokenNode, List.mem_cons_of_mem root hmem, (isToken_iff.mp (List.find?_some htoken)).1⟩

/-- The walk of a query passes the nodes above the painted one. It ends at the painted node, if that
lies below the root and passes the query's guards too, and goes on below it otherwise. -/
theorem find_isToken_of_path {above below : List Node} {painted : Node}
    (hpath : coveringPath location root = above ++ painted :: below)
    (habove : ∀ node ∈ above, writes language theme length node = false) :
    (descent (covers location) root).find? (isToken language theme length) =
      if above ≠ [] ∧ isToken language theme length painted = true then some painted
      else below.find? (isToken language theme length) := by
  rw [coveringPath] at hpath
  split at hpath
  · cases above with
    | nil =>
        -- the painted node is the root, where no walk comes to
        obtain ⟨-, rfl⟩ := List.cons.inj hpath
        rw [if_neg fun hand => hand.1 rfl]
    | cons top above =>
        rw [List.cons_append, List.cons.injEq] at hpath
        obtain ⟨-, hdescent⟩ := hpath
        have hnone : above.find? (isToken language theme length) = none := by
          rw [List.find?_eq_none]
          intro node hnode htoken
          have hwrites := habove node (List.mem_cons_of_mem top hnode)
          rw [(isToken_iff.mp htoken).1] at hwrites
          exact Bool.noConfusion hwrites
        rw [hdescent, List.find?_append, hnone, Option.none_or, List.find?_cons]
        by_cases htoken : isToken language theme length painted = true
        · rw [if_pos ⟨List.cons_ne_nil top above, htoken⟩, htoken]
        · rw [if_neg fun hand => htoken hand.2, Bool.eq_false_iff.mpr htoken]
  · exact absurd hpath.symm (by simp)

end Guards

/-- Nothing the query asks for beyond `Node.write` matters over a location: the topmost node over it
that `Node.write` paints, if there is one, lies below the root, is structural and ends before the end
of the text; or the topmost token below that node has its token type. -/
def GuardsAgree (language : Language) (theme : ColorTheme) (length : ℕ) (root : Node)
    (location : ℕ) : Prop :=
  ∀ above painted below, coveringPath location root = above ++ painted :: below →
    (∀ node ∈ above, writes language theme length node = false) →
      writes language theme length painted = true →
        (above ≠ [] ∧ (language.symbolMetadata painted.label.symbol).structural = true ∧
          painted.label.stop < length) ∨
        ∃ tokenNode, below.find? (isToken language theme length) = some tokenNode ∧
          language.tokenType tokenNode.label.symbol = language.tokenType painted.label.symbol

/-- The guards agree over a location exactly when the first painted node over it has the token type of
the first token on the walk. -/
theorem guardsAgree_iff_find {language : Language} {theme : ColorTheme} {length : ℕ} {root : Node}
    {location : ℕ} :
    GuardsAgree language theme length root location ↔
      ∀ painted, (coveringPath location root).find? (writes language theme length) = some painted →
        ∃ tokenNode,
          (descent (covers location) root).find? (isToken language theme length) = some tokenNode ∧
          language.tokenType tokenNode.label.symbol = language.tokenType painted.label.symbol := by
  constructor
  · intro hguards painted hpainted
    obtain ⟨hwrites, above, below, hpath, habove⟩ := List.find?_eq_some_iff_append.mp hpainted
    have habove' : ∀ node ∈ above, writes language theme length node = false := by
      simpa using habove
    rw [find_isToken_of_path hpath habove']
    by_cases htoken : above ≠ [] ∧ isToken language theme length painted = true
    · rw [if_pos htoken]
      exact ⟨painted, rfl, rfl⟩
    · rw [if_neg htoken]
      rcases hguards above painted below hpath habove' hwrites with ⟨hbelow, hextra⟩ | hsame
      · exact absurd ⟨hbelow, isToken_iff.mpr ⟨hwrites, hextra⟩⟩ htoken
      · exact hsame
  · intro hfind above painted below hpath habove hwrites
    have hpainted : (coveringPath location root).find? (writes language theme length) =
        some painted := by
      rw [List.find?_eq_some_iff_append]
      exact ⟨hwrites, above, below, hpath, by simpa using habove⟩
    obtain ⟨tokenNode, htokenNode, htype⟩ := hfind painted hpainted
    rw [find_isToken_of_path hpath habove] at htokenNode
    by_cases htoken : above ≠ [] ∧ isToken language theme length painted = true
    · exact Or.inl ⟨htoken.1, (isToken_iff.mp htoken.2).2⟩
    · rw [if_neg htoken] at htokenNode
      exact Or.inr ⟨tokenNode, htokenNode, htype⟩

namespace TextStorage

/-- The token type whose colour a query has stored for a location. -/
def storedTokenType (self : TextStorage) (location : ℕ) : Option TokenType :=
  (self.table location).bind CacheEntry.tokenType

/-- An attribute query and `Node.write` agree on a location: either both give it the colour of one
token type, or the query gives it the text colour and `Node.write` leaves it as it was. -/
def HighlightersAgree (self : TextStorage) (root : Node) (font : UIFont) (plain : AttributedString)
    (location : ℕ) : Prop :=
  ∃ answer next painted,
    self.attributes location true = some (answer, next) ∧
      write self.language self.theme plain.length font root plain = some painted ∧
      match next.storedTokenType location,
        paintedBy (writeCalls self.language self.theme plain.length root) location with
      | some tokenType, some call =>
          tokenType = call.tokenType ∧ answer.attributes = attributesForColor call.color ∧
            painted[location]? = some ⟨some call.color, some font⟩
      | none, none =>
          answer.attributes = attributesForColor textColor ∧ painted[location]? = plain[location]?
      | _, _ => False

/-- The agreement in terms of the answer and the calls alone. -/
theorem highlightersAgree_iff_answerAt {self : TextStorage} {text : Text} {root : Node}
    (h : self.Shows text root) (hempty : ∀ entry ∈ self.cache, entry = none) (font : UIFont)
    {plain : AttributedString} (hplain : plain.length = text.length) {location : ℕ}
    (hlocation : location < text.length) :
    self.HighlightersAgree root font plain location ↔
      match (entryAt self.language self.theme text.length root location).tokenType,
        paintedBy (writeCalls self.language self.theme text.length root) location with
      | some tokenType, some call =>
          tokenType = call.tokenType ∧
            (answerAt self.language self.theme text.length root location).attributes =
              attributesForColor call.color
      | none, none =>
          (answerAt self.language self.theme text.length root location).attributes =
            attributesForColor textColor
      | _, _ => False := by
  have hbound : text.length < 2 ^ 32 := by
    have := h.bound
    omega
  obtain ⟨paintedString, hwrite⟩ :=
    @exists_write self.language self.theme text.length font root plain hplain.ge hbound
  have hcache : location < self.cache.length := lt_of_lt_of_le hlocation h.cache_le
  have hquery := h.attributes_of_empty hempty hlocation
  have hstored : ∀ entry, (self.withEntry location entry).storedTokenType location =
      entry.tokenType := by
    intro entry
    rw [storedTokenType, table_withEntry hcache, Function.update_self, Option.bind_some]
  have hunit := getElem?_write hplain.ge hwrite location
  -- both highlighters complete, so the agreement is about their results
  simp only [HighlightersAgree, hquery, hplain, hwrite, Option.some.injEq, Prod.mk.injEq, and_assoc,
    exists_and_left, exists_eq_left', hstored]
  cases (entryAt self.language self.theme text.length root location).tokenType with
  | some tokenType =>
      cases hcall : paintedBy (writeCalls self.language self.theme text.length root) location with
      | some call =>
          rw [hcall] at hunit
          simp [hunit]
      | none => rfl
  | none =>
      cases hcall : paintedBy (writeCalls self.language self.theme text.length root) location with
      | some call => rfl
      | none =>
          rw [hcall] at hunit
          simp [hunit]

/-- The agreement in terms of the first painted node and the first token over the location. -/
theorem highlightersAgree_iff_find {self : TextStorage} {text : Text} {root : Node}
    (h : self.Shows text root) (hempty : ∀ entry ∈ self.cache, entry = none) (font : UIFont)
    {plain : AttributedString} (hplain : plain.length = text.length) {location : ℕ}
    (hlocation : location < text.length) :
    self.HighlightersAgree root font plain location ↔
      ∀ painted, (coveringPath location root).find?
          (writes self.language self.theme text.length) = some painted →
        ∃ tokenNode, (descent (covers location) root).find?
            (isToken self.language self.theme text.length) = some tokenNode ∧
          self.language.tokenType tokenNode.label.symbol =
            self.language.tokenType painted.label.symbol := by
  rw [highlightersAgree_iff_answerAt h hempty font hplain hlocation,
    paintedBy_writeCalls h.wellFormed, entryAt, answerAt]
  cases hpaints : (coveringPath location root).find?
      (writes self.language self.theme text.length) with
  | none =>
      -- nothing is painted, so the walk finds no token either
      have hnone : tokenAt self.language self.theme text.length root location = none := by
        rw [tokenAt_eq_none_iff]
        by_contra hsome
        obtain ⟨tokenNode, htoken⟩ := Option.ne_none_iff_exists'.mp hsome
        have := find_writes_of_isToken h.wellFormed htoken
        rw [hpaints, Option.isSome_none] at this
        exact Bool.false_ne_true this
      simp [hnone]
  | some painted =>
      have hpainted := List.find?_some hpaints
      obtain ⟨⟨tokenType, color⟩, hwriteToken⟩ := Option.isSome_iff_exists.mp hpainted
      obtain ⟨-, htype, hcolor, -⟩ := writeToken_eq_some_iff.mp hwriteToken
      cases htoken : tokenAt self.language self.theme text.length root location with
      | none =>
          rw [tokenAt_eq_none_iff] at htoken
          simp [writeCall, hwriteToken, htoken]
      | some found =>
          obtain ⟨tokenNode, tokenType', color'⟩ := found
          obtain ⟨hfind, hstorage⟩ := tokenAt_eq_some_iff.mp htoken
          obtain ⟨-, htype', -, hcolor', -⟩ := storageToken_eq_some_iff.mp hstorage
          simp only [writeCall, hwriteToken, Option.map_some, Option.bind_some, Option.some.injEq,
            forall_eq', hfind, exists_eq_left', htype, htype', attributesForColor_inj]
          constructor
          · exact fun hand => hand.1
          · rintro rfl
            exact ⟨rfl, Option.some.inj (hcolor'.symm.trans hcolor)⟩

/-- **When the highlighters agree.** On a storage with an empty cache they agree on a location
exactly when what the query asks for beyond `Node.write` does not matter there. -/
theorem highlightersAgree_iff {self : TextStorage} {text : Text} {root : Node}
    (h : self.Shows text root) (hempty : ∀ entry ∈ self.cache, entry = none) (font : UIFont)
    {plain : AttributedString} (hplain : plain.length = text.length) {location : ℕ}
    (hlocation : location < text.length) :
    self.HighlightersAgree root font plain location ↔
      GuardsAgree self.language self.theme text.length root location := by
  rw [highlightersAgree_iff_find h hempty font hplain hlocation, guardsAgree_iff_find]

/-- The highlighters agree on the number of `[1]`. -/
theorem highlightersAgree_iff_array :
    arrayStorage.HighlightersAgree arrayRoot font (List.replicate 3 ⟨some .black, some font⟩) 1 ↔
      GuardsAgree arrayStorage.language arrayStorage.theme arrayText.length arrayRoot 1 :=
  highlightersAgree_iff shows_arrayStorage (fun _ => eq_none_of_mem_cache_opened) font rfl
    (by decide)

/-- A storage on the text `true`, whose only node is its root. -/
def trueStorage : TextStorage :=
  opened [0x74, 0x72, 0x75, 0x65] (jsonNode .symValue 0 4 [jsonNode .symTrue 0 4 []]) .default .json

/-- The visible tree of `true`. -/
def trueRoot : Node := trueStorage.document.rootNode.get rfl

/-- The keyword `true` as a whole text is painted, and has the text colour in the storage. -/
theorem not_highlightersAgree_true :
    ¬ ∀ (self : TextStorage) (text : Text) (root : Node), self.Shows text root →
      (∀ entry ∈ self.cache, entry = none) →
      ∀ (font : UIFont) (plain : AttributedString), plain.length = text.length →
        ∀ location, location < text.length → self.HighlightersAgree root font plain location := by
  intro hall
  have hshows : trueStorage.Shows [0x74, 0x72, 0x75, 0x65] trueRoot :=
    shows_opened (by decide) rfl (by decide) (by decide)
  obtain ⟨answer, next, painted, hanswer, -, hmatch⟩ := hall trueStorage _ trueRoot hshows
    (fun _ => eq_none_of_mem_cache_opened) font (List.replicate 4 ⟨some .black, some font⟩) rfl 0
    (by decide)
  have hstored : (trueStorage.attributes 0 true).map (fun result => result.2.storedTokenType 0) =
      some none := by decide +kernel
  have hpainted : (paintedBy (writeCalls trueStorage.language trueStorage.theme 4 trueRoot) 0).map
      WriteCall.tokenType = some .keyword := by decide +kernel
  obtain ⟨call, hcall, -⟩ := Option.map_eq_some_iff.mp hpainted
  rw [hanswer, Option.map_some, Option.some.injEq] at hstored
  rw [hstored, List.length_replicate, hcall] at hmatch
  exact hmatch

end TextStorage

end TreeSitterTextStorage
