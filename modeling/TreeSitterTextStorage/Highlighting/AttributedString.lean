import TreeSitterTextStorage.Highlighting.Language
import TreeSitterTextStorage.Highlighting.Node
import TreeSitterTextStorage.Library.Splice

/-! # Painting an attributed string

`NSAttributedString.swift`: `Node.write` paints the tokens of a tree into an attributed string, from
the root down, and stops at the first node of every branch that passes its guards. -/

namespace TreeSitterTextStorage

open RoseTree RangedTree Splice

/-- `UIFont`. -/
structure UIFont where
  /-- The name of the font. -/
  name : String
  /-- The size of the font in points. -/
  size : ℕ
  deriving DecidableEq, Repr

/-- An attribute dictionary, with the two keys that the program sets. -/
structure Attributes where
  /-- `foregroundColor`. -/
  foregroundColor : Option UIColor
  /-- `font`. -/
  font : Option UIFont
  deriving DecidableEq, Repr

/-- `NSMutableAttributedString`: the attributes of every UTF-16 unit of a string. -/
abbrev AttributedString := List Attributes

/-- `setAttributes(_:range:)`, which raises an exception on a range that leaves the string. -/
def setAttributes (attributedString : AttributedString) (attributes : Attributes) (range : NSRange) :
    Option AttributedString :=
  if range.location + range.length ≤ attributedString.length then
    some (splice range.location (range.location + range.length)
      (List.replicate range.length attributes) attributedString)
  else none

/-! ## The guards of `Node.write` -/

section Write

variable (language : Language) (theme : ColorTheme) (length : ℕ)

/-- The guards of `Node.write` on a node: the token type and the colour that pass them. The outer `none`
is a trap, which a length beyond `UInt32` causes. The test of the symbol's metadata is commented out in
the source. -/
def writeGuards (self : TSNode) : Option (Option (TokenType × UIColor)) :=
  if self.symbol = 0 then some none
  else
    match language.tokenType self.symbol with
    | none => some none
    | some tokenType =>
        match theme.color tokenType with
        | none => some none
        | some color => do
            -- only a node that has come to the last guard converts the length
            let length ← toUInt32 length
            if self.start < length ∧ self.stop ≤ length ∧ self.range.count > 0 then
              some (some (tokenType, color))
            else some none

mutual
/-- `Node.write(to:language:theme:font:length:)`. -/
def write (font : UIFont) : Node → AttributedString → Option AttributedString
  | .node self children, attributedString => do
      match ← writeGuards language theme length self with
      | some (_, color) =>
          setAttributes attributedString ⟨some color, some font⟩
            (NSRange.ofCountableRange self.range)
      | none => writeAll font children attributedString
/-- The loop of `Node.write` over the children. -/
def writeAll (font : UIFont) : List Node → AttributedString → Option AttributedString
  | [], attributedString => some attributedString
  | child :: rest, attributedString => do
      let attributedString ← write font child attributedString
      writeAll font rest attributedString
end

/-- What the guards of `Node.write` pass on when the length is a `UInt32`. -/
def writeToken (self : TSNode) : Option (TokenType × UIColor) :=
  if self.symbol ≠ 0 then do
    let tokenType ← language.tokenType self.symbol
    let color ← theme.color tokenType
    if self.start < length ∧ self.stop ≤ length ∧ self.range.count > 0 then
      some (tokenType, color)
    else none
  else none

/-- One call of `setAttributes` by `Node.write`, with the token type that led to it. -/
structure WriteCall where
  /-- The token type of the node. -/
  tokenType : TokenType
  /-- The colour of the token type. -/
  color : UIColor
  /-- The range of the node. -/
  range : NSRange
  deriving DecidableEq, Repr

mutual
/-- The calls that `Node.write` makes, in order. -/
def writeCalls : Node → List WriteCall
  | .node self children =>
      match writeToken language theme length self with
      | some (tokenType, color) => [⟨tokenType, color, NSRange.ofCountableRange self.range⟩]
      | none => writeCallsAll children
/-- The calls for a list of children. -/
def writeCallsAll : List Node → List WriteCall
  | [] => []
  | child :: rest => writeCalls child ++ writeCallsAll rest
end

variable {language theme length}

/-- What a node must be for `Node.write` to stop at it. -/
theorem writeToken_eq_some_iff {self : TSNode} {tokenType : TokenType} {color : UIColor} :
    writeToken language theme length self = some (tokenType, color) ↔
      self.symbol ≠ 0 ∧ language.tokenType self.symbol = some tokenType ∧
        theme.color tokenType = some color ∧ self.start < length ∧ self.stop ≤ length ∧
        self.start < self.stop := by
  have hcount : self.range.count > 0 ↔ self.start < self.stop := by
    rw [TSNode.count_range]
    omega
  simp only [writeToken, Option.bind_eq_bind, Option.ite_none_right_eq_some,
    Option.bind_eq_some_iff, Option.some.injEq, Prod.mk.injEq]
  constructor
  · rintro ⟨hsymbol, type, htype, c, hcolor, ⟨hstart, hstop, hlt⟩, rfl, rfl⟩
    exact ⟨hsymbol, htype, hcolor, hstart, hstop, hcount.mp hlt⟩
  · rintro ⟨hsymbol, htype, hcolor, hstart, hstop, hlt⟩
    exact ⟨hsymbol, tokenType, htype, color, hcolor, ⟨hstart, hstop, hcount.mpr hlt⟩, rfl, rfl⟩

/-- A length beyond `UInt32` traps or leaves the guards with nothing to pass on. -/
theorem writeToken_of_writeGuards {self : TSNode} {token : Option (TokenType × UIColor)}
    (h : writeGuards language theme length self = some token) :
    writeToken language theme length self = token := by
  rw [writeGuards] at h
  rw [writeToken]
  by_cases hsymbol : self.symbol = 0
  · rw [if_pos hsymbol, Option.some.injEq] at h
    rw [if_neg (not_not_intro hsymbol), h]
  · rw [if_neg hsymbol] at h
    rw [if_pos hsymbol]
    cases htype : language.tokenType self.symbol with
    | none =>
        rw [htype] at h
        exact Option.some.inj h
    | some tokenType =>
        rw [htype] at h
        simp only [Option.bind_eq_bind, Option.bind_some]
        cases hcolor : theme.color tokenType with
        | none =>
            simp only [hcolor] at h
            exact Option.some.inj h
        | some color =>
            simp only [hcolor, Option.bind_eq_bind, Option.bind_eq_some_iff] at h
            obtain ⟨unsigned, hunsigned, hguard⟩ := h
            obtain ⟨heq, -⟩ := toUInt32_eq_some_iff.mp hunsigned
            obtain rfl := Int.natCast_inj.mp heq
            rw [Option.bind_some, ← Option.some.injEq, ← hguard]
            split <;> rfl

/-- The guards trap on no length below `2^32`. -/
theorem writeGuards_of_lt (self : TSNode) (hbound : length < 2 ^ 32) :
    writeGuards language theme length self = some (writeToken language theme length self) := by
  have hsome : (writeGuards language theme length self).isSome = true := by
    have hunsigned : toUInt32 (length : ℤ) = some length := toUInt32_eq_some_iff.mpr ⟨rfl, hbound⟩
    rw [writeGuards]
    split
    · rfl
    · split
      · rfl
      · split
        · rfl
        · rw [hunsigned, Option.bind_eq_bind, Option.bind_some]
          split <;> rfl
  obtain ⟨token, htoken⟩ := Option.isSome_iff_exists.mp hsome
  rw [htoken, writeToken_of_writeGuards htoken]

/-- **What `Node.write` does** when it completes: it makes its calls, in order. -/
theorem foldlM_writeCalls_of_write {font : UIFont} {self : Node}
    {attributedString painted : AttributedString}
    (h : write language theme length font self attributedString = some painted) :
    (writeCalls language theme length self).foldlM
      (fun attributedString call =>
        setAttributes attributedString ⟨some call.color, some font⟩ call.range)
      attributedString = some painted := by
  induction self using RoseTree.induct generalizing attributedString painted with
  | node self children ih =>
      obtain ⟨token, htoken, hrest⟩ := Option.bind_eq_some_iff.mp h
      rw [writeCalls, writeToken_of_writeGuards htoken]
      cases token with
      | some token => simpa using hrest
      | none =>
          simp only at hrest ⊢
          clear h htoken
          induction children generalizing attributedString with
          | nil => exact hrest
          | cons child rest ihRest =>
              rw [writeAll] at hrest
              obtain ⟨next, hnext, hrest⟩ := Option.bind_eq_some_iff.mp hrest
              rw [writeCallsAll, List.foldlM_append, ih child List.mem_cons_self hnext]
              exact ihRest (fun t ht => ih t (List.mem_cons_of_mem child ht)) hrest

/-- **`Node.write` makes its calls** on every string whose length is a `UInt32`. -/
theorem write_eq_foldlM (font : UIFont) (self : Node) (attributedString : AttributedString)
    (hbound : length < 2 ^ 32) :
    write language theme length font self attributedString =
      (writeCalls language theme length self).foldlM
        (fun attributedString call =>
          setAttributes attributedString ⟨some call.color, some font⟩ call.range)
        attributedString := by
  induction self using RoseTree.induct generalizing attributedString with
  | node self children ih =>
      rw [write, writeGuards_of_lt self hbound, writeCalls, Option.bind_eq_bind, Option.bind_some]
      cases writeToken language theme length self with
      | some token => simp
      | none =>
          simp only
          induction children generalizing attributedString with
          | nil => rfl
          | cons child rest ihRest =>
              rw [writeAll, writeCallsAll, List.foldlM_append, ih child List.mem_cons_self]
              refine bind_congr fun next => ?_
              exact ihRest (fun t ht => ih t (List.mem_cons_of_mem child ht)) next

/-! ## The painted nodes -/

variable (language theme length)

/-- Whether `Node.write` stops at a node and paints it. -/
def writes (node : Node) : Bool := (writeToken language theme length node.label).isSome

/-- The call that paints a node. -/
def writeCall (node : Node) : Option WriteCall :=
  (writeToken language theme length node.label).map fun token =>
    ⟨token.1, token.2, NSRange.ofCountableRange node.label.range⟩

/-- **The painted nodes** are the outermost ones that pass the guards, in document order. -/
theorem writeCalls_eq_outermost (node : Node) :
    writeCalls language theme length node =
      (outermost (writes language theme length) node).filterMap (writeCall language theme length) := by
  induction node using RoseTree.induct with
  | node self children ih =>
      have hall : writeCallsAll language theme length children =
          (outermostList (writes language theme length) children).filterMap
            (writeCall language theme length) := by
        induction children with
        | nil => rfl
        | cons child rest ihRest =>
            rw [writeCallsAll, ih child List.mem_cons_self,
              ihRest fun t ht => ih t (List.mem_cons_of_mem child ht), outermostList,
              List.filterMap_append]
      rw [writeCalls, outermost, writes]
      -- a node that passes the guards hides what is below it
      cases htoken : writeToken language theme length self with
      | none => rw [label_node, htoken, if_neg (by simp), hall]
      | some token =>
          rw [label_node, htoken, if_pos (by simp), List.filterMap_cons, writeCall, label_node,
            htoken]
          rfl

/-- The call that decides the attributes of a unit: the last one whose range contains it. -/
def paintedBy (calls : List WriteCall) (index : ℕ) : Option WriteCall :=
  (calls.filter fun call => call.range.contains index).getLast?

variable {language theme length}

/-- The range of a painted node contains the indices the node covers. -/
theorem contains_writeCall {node : Node} {call : WriteCall} {index : ℕ}
    (h : writeCall language theme length node = some call) :
    call.range.contains index = covers index node := by
  obtain ⟨token, -, rfl⟩ := Option.map_eq_some_iff.mp h
  exact contains_ofCountableRange index node

/-- **The paint at an index**: of a well-formed tree at most one call reaches an index, the one for
the first node on the covering path of the index that passes the guards. -/
theorem paintedBy_writeCalls {root : Node} (h : WellFormed root) (index : ℕ) :
    paintedBy (writeCalls language theme length root) index =
      ((coveringPath index root).find? (writes language theme length)).bind
        (writeCall language theme length) := by
  have hfilter : ((outermost (writes language theme length) root).filterMap
      (writeCall language theme length)).filter (fun call => call.range.contains index) =
      ((outermost (writes language theme length) root).filter (covers index)).filterMap
        (writeCall language theme length) := by
    rw [List.filter_filterMap, List.filterMap_filter]
    apply List.filterMap_congr
    intro node _
    cases hcall : writeCall language theme length node with
    | none => simp [Option.filter]
    | some call => simp [Option.filter, contains_writeCall hcall]
  rw [paintedBy, writeCalls_eq_outermost, hfilter, h.filter_outermost]
  cases (coveringPath index root).find? (writes language theme length) with
  | none => rfl
  | some node =>
      simp only [Option.toList_some, Option.bind_some]
      cases hcall : writeCall language theme length node with
      | none => simp [hcall]
      | some call => simp [hcall]

/-- Every call of `Node.write` stays inside the string. -/
theorem range_writeCalls {node : Node} {call : WriteCall}
    (h : call ∈ writeCalls language theme length node) :
    call.range.location + call.range.length ≤ length := by
  rw [writeCalls_eq_outermost, List.mem_filterMap] at h
  obtain ⟨painted, -, hcall⟩ := h
  obtain ⟨⟨tokenType, color⟩, htoken, rfl⟩ := Option.map_eq_some_iff.mp hcall
  obtain ⟨-, -, -, -, hstop, -⟩ := writeToken_eq_some_iff.mp htoken
  exact (TSNode.location_add_length painted.label).trans_le hstop

end Write

/-! ## The painted string -/

/-- Setting attributes keeps the length. -/
theorem length_setAttributes {attributedString painted : AttributedString} {attributes : Attributes}
    {range : NSRange} (h : setAttributes attributedString attributes range = some painted) :
    painted.length = attributedString.length := by
  obtain ⟨hle, hpainted⟩ := Option.ite_none_right_eq_some.mp h
  rw [Option.some.injEq] at hpainted
  subst hpainted
  rw [length_splice _ (Nat.le_add_right _ _) hle, List.length_replicate]
  omega

/-- Setting attributes inside a string changes exactly the units of the range. -/
theorem setAttributes_eq_some {attributedString : AttributedString} {range : NSRange}
    (attributes : Attributes) (h : range.location + range.length ≤ attributedString.length) :
    ∃ painted, setAttributes attributedString attributes range = some painted ∧
      painted.length = attributedString.length ∧
      ∀ index, painted[index]? =
        if range.contains index then some attributes else attributedString[index]? := by
  refine ⟨_, if_pos h, length_setAttributes (if_pos h), ?_⟩
  intro index
  rw [splice, List.append_assoc, List.getElem?_append, List.length_take,
    Nat.min_eq_left (Nat.le_of_add_right_le h), List.getElem?_append, List.length_replicate,
    NSRange.contains]
  -- the index lies in front of the range, in it, or behind it
  by_cases hlow : index < range.location
  · rw [if_pos hlow, List.getElem?_take_of_lt hlow, if_neg (by simp; omega)]
  · rw [if_neg hlow]
    by_cases hhigh : index - range.location < range.length
    · rw [if_pos hhigh, List.getElem?_replicate, if_pos hhigh, if_pos (by simp; omega)]
    · rw [if_neg hhigh, List.getElem?_drop, if_neg (by simp; omega)]
      congr 1
      omega

/-- Calls of `setAttributes` inside a string leave every unit with the attributes of the last call that
reaches it. -/
theorem foldlM_setAttributes {ι : Type} (attributes : ι → Attributes) (range : ι → NSRange)
    {calls : List ι} {attributedString : AttributedString}
    (h : ∀ call ∈ calls, (range call).location + (range call).length ≤ attributedString.length) :
    ∃ painted, calls.foldlM (fun attributedString call =>
        setAttributes attributedString (attributes call) (range call))
        attributedString = some painted ∧
      painted.length = attributedString.length ∧
      ∀ index, painted[index]? =
        ((calls.filter fun call => (range call).contains index).getLast?.map attributes).or
          attributedString[index]? := by
  induction calls generalizing attributedString with
  | nil => exact ⟨attributedString, rfl, rfl, fun index => rfl⟩
  | cons call rest ih =>
      obtain ⟨next, hnext, hlength, hget⟩ := setAttributes_eq_some (attributes call)
        (h call List.mem_cons_self)
      have hrest : ∀ other ∈ rest, (range other).location + (range other).length ≤ next.length :=
        fun other hother => hlength ▸ h other (List.mem_cons_of_mem call hother)
      obtain ⟨painted, hpainted, hlength', hget'⟩ := ih hrest
      refine ⟨painted, ?_, hlength'.trans hlength, ?_⟩
      · rw [List.foldlM_cons, hnext]
        exact hpainted
      · -- the rest of the calls decides, unless none of them reaches the unit
        intro index
        rw [hget', List.filter_cons]
        by_cases hcontains : (range call).contains index
        · rw [if_pos hcontains, List.getLast?_cons]
          cases hlast : (rest.filter fun call => (range call).contains index).getLast? with
          | none => simp [hget, hcontains]
          | some other => simp
        · rw [if_neg hcontains]
          cases (rest.filter fun call => (range call).contains index).getLast? with
          | none => simp [hget, hcontains]
          | some other => simp

/-- The calls of `Node.write` complete on a string that is at least as long as they take it to be, and
leave every unit with the attributes of the last call that reaches it. -/
theorem foldlM_writeCalls {language : Language} {theme : ColorTheme} {length : ℕ} (font : UIFont)
    (root : Node) {attributedString : AttributedString} (hlength : length ≤ attributedString.length) :
    ∃ painted, (writeCalls language theme length root).foldlM (fun attributedString call =>
        setAttributes attributedString ⟨some call.color, some font⟩ call.range)
        attributedString = some painted ∧
      painted.length = attributedString.length ∧
      ∀ index, painted[index]? = match paintedBy (writeCalls language theme length root) index with
        | some call => some ⟨some call.color, some font⟩
        | none => attributedString[index]? := by
  have hinside : ∀ call ∈ writeCalls language theme length root,
      call.range.location + call.range.length ≤ attributedString.length :=
    fun _ hcall => (range_writeCalls hcall).trans hlength
  obtain ⟨painted, hpainted, hlength', hget⟩ :=
    foldlM_setAttributes (fun call => ⟨some call.color, some font⟩) WriteCall.range hinside
  refine ⟨painted, hpainted, hlength', fun index => ?_⟩
  rw [hget, paintedBy]
  cases ((writeCalls language theme length root).filter
    fun call => call.range.contains index).getLast? <;> rfl

/-- `Node.write` completes on every length that is a `UInt32`. -/
theorem exists_write {language : Language} {theme : ColorTheme} {length : ℕ} (font : UIFont)
    (root : Node) {attributedString : AttributedString} (hlength : length ≤ attributedString.length)
    (hbound : length < 2 ^ 32) :
    ∃ painted, write language theme length font root attributedString = some painted := by
  obtain ⟨painted, hpainted, -⟩ :=
    @foldlM_writeCalls language theme length font root attributedString hlength
  exact ⟨painted, (write_eq_foldlM font root attributedString hbound).trans hpainted⟩

/-- **`Node.write` paints every unit** with the attributes of the last call that reaches it, and
leaves the others alone. -/
theorem getElem?_write {language : Language} {theme : ColorTheme} {length : ℕ} {root : Node}
    {font : UIFont} {attributedString painted : AttributedString}
    (hlength : length ≤ attributedString.length)
    (hpainted : write language theme length font root attributedString = some painted) (index : ℕ) :
    painted[index]? = match paintedBy (writeCalls language theme length root) index with
      | some call => some ⟨some call.color, some font⟩
      | none => attributedString[index]? := by
  obtain ⟨result, hresult, -, hget⟩ :=
    @foldlM_writeCalls language theme length font root attributedString hlength
  obtain rfl := Option.some.inj (hresult.symm.trans (foldlM_writeCalls_of_write hpainted))
  exact hget index

end TreeSitterTextStorage
