import TreeSitterTextStorage.Highlighting.AttributedString
import TreeSitterTextStorage.Input.InputText

/-! # Tokens in UTF-16 units

The range of a node counts characters as the lexer does, one for every advance, while attributed
strings count UTF-16 units. At a position that the lexer reaches, the two differ by the number of
surrogate pairs in front of it, so the range of a token covers its own text exactly when no pair lies
in front of its end. -/

namespace TreeSitterTextStorage

/-! ## Positions the lexer reaches -/

/-- One advance of the lexer. -/
def Reader.advance (reader : Reader) (skip : Bool) : Option (Unit × Reader) :=
  reader.step (.advance skip)

/-- A lexer started at the start of a text and advanced over it. -/
def advanced (text : Text) (skips : List Bool) : Option Reader :=
  (Machine.run Reader.step (Reader.fresh (utf16Data text)) [.setInput, .start]).bind fun started =>
    Machine.run Reader.advance started skips

/-- The lexer reaches a position of a text by successive advances. -/
def Reaches (text : Text) (position : Length) : Prop :=
  ∃ skips reader, advanced text skips = some reader ∧ reader.lexer.currentPosition = position

/-- A position whose characters are the units in front of it less the surrogate pairs among them, and
which is not inside a pair. -/
structure CountsUnits (text : Text) (position : Length) : Prop where
  /-- The position is a unit boundary. -/
  even : 2 ∣ position.bytes
  /-- The position lies in the text or at its end. -/
  bytes_le : position.bytes ≤ 2 * text.length
  /-- The position is not inside a pair. -/
  whole : splitsPair (text.take (position.bytes / 2)) (text.drop (position.bytes / 2)) = false
  /-- Each pair in front of the position is one character and two units. -/
  chars : position.chars + pairCount (text.take (position.bytes / 2)) = position.bytes / 2

/-- The start of a text. -/
theorem countsUnits_zero (text : Text) : CountsUnits text Length.zero where
  even := Nat.dvd_zero 2
  bytes_le := Nat.zero_le _
  whole := splitsPair_nil_left _
  chars := rfl

/-- The position behind the code point at a position. -/
theorem CountsUnits.pass {text : Text} {position next : Length} (h : CountsUnits text position)
    (hlt : position.bytes < 2 * text.length) (hchars : next.chars = position.chars + 1)
    (hbytes : next.bytes = position.bytes + (utf16Iterate ((utf16Bytes text).drop position.bytes)
      (2 * text.length - position.bytes)).2) : CountsUnits text next := by
  obtain ⟨⟨n, hn⟩, hle, hwhole, hcount⟩ := h
  have hhalf : position.bytes / 2 = n := by omega
  rw [hhalf] at hwhole hcount
  have hback : text.drop n ≠ [] := by
    rw [ne_eq, List.drop_eq_nil_iff]
    omega
  obtain ⟨unit, rest, hdrop⟩ := List.exists_cons_of_ne_nil hback
  have hlength : 2 * text.length - 2 * n = 2 * (unit :: rest).length := by
    rw [← hdrop, List.length_drop]
    omega
  rw [hn, drop_utf16Bytes, hlength, hdrop, utf16Iterate_utf16Bytes_size] at hbytes
  -- the code point is the unit or the pair behind the position
  obtain ⟨hwhole', hcount'⟩ := pairCount_pass hwhole hback
  simp only [List.drop_drop, ← List.take_add] at hwhole' hcount'
  rw [hdrop] at hwhole' hcount'
  have hsize : next.bytes = 2 * (n + if startsWithPair (unit :: rest) then 2 else 1) := by
    rw [hbytes]
    split <;> omega
  have hhalf' : next.bytes / 2 = n + if startsWithPair (unit :: rest) then 2 else 1 := by omega
  refine ⟨⟨_, hsize⟩, ?_, ?_, ?_⟩
  · have := utf16Iterate_size ((utf16Bytes text).drop position.bytes)
      (2 * text.length - position.bytes)
    rw [hn, drop_utf16Bytes, hlength, hdrop, utf16Iterate_utf16Bytes_size, ← hdrop,
      List.length_drop] at this
    rw [hbytes, ← hdrop]
    omega
  · rw [hhalf']
    exact hwhole'
  · rw [hhalf', hchars]
    omega

/-- A lexer that has a lookahead at a position that counts units. -/
structure Reader.Counting (text : Text) (reader : Reader) : Prop where
  /-- The lexer is in step with the data of the text. -/
  atBoundary : reader.AtBoundary text
  /-- The lexer has a lookahead. -/
  lookahead : reader.lexer.lookaheadSize ≠ 0
  /-- The position counts units. -/
  counts : CountsUnits text reader.lexer.currentPosition

/-- **An advance** goes from a position that counts units to another one. -/
theorem Reader.Counting.advance {text : Text} (hbound : 2 * text.length < 2 ^ 32)
    {reader next : Reader} (h : reader.Counting text) {skip : Bool} {output : Unit}
    (hnext : reader.advance skip = some (output, next)) : next.Counting text := by
  obtain ⟨next', hstep, hboundary, hposition, hlook⟩ :=
    @Reader.step_atBoundary text hbound reader (.advance skip) h.atBoundary trivial
  rw [Reader.advance, hstep, Option.some.injEq, Prod.mk.injEq] at hnext
  obtain ⟨-, rfl⟩ := hnext
  have hbytes := bytes_positionAfter h.atBoundary hbound (.advance skip)
  simp only [← hposition] at hbytes
  refine ⟨hboundary, hlook rfl, ?_⟩
  by_cases hend : reader.bytes = 2 * text.length
  · -- at the end the lexer stays where it is
    have hstay : next'.lexer.currentPosition = reader.lexer.currentPosition := by
      rw [hposition, positionAfter, length_utf16Bytes, if_neg]
      exact Nat.not_lt.mpr hend.ge
    rw [hstay]
    exact h.counts
  · have hlt : reader.lexer.currentPosition.bytes < 2 * text.length :=
      Nat.lt_of_le_of_ne h.atBoundary.bytes_le hend
    rw [if_neg (not_or.mpr ⟨h.lookahead, hend⟩)] at hbytes
    apply h.counts.pass hlt
    · rw [hposition, positionAfter, length_utf16Bytes, if_pos hlt, passLookahead,
        if_pos h.lookahead]
    · exact hbytes

/-- A lexer starts at a position that counts units, and only on a text that is not too large. -/
theorem counting_started {text : Text} {started : Reader}
    (h : Machine.run Reader.step (Reader.fresh (utf16Data text)) [.setInput, .start] =
      some started) : 2 * text.length < 2 ^ 32 ∧ started.Counting text := by
  obtain ⟨output, reader, hset, hrest⟩ := Machine.run_cons_eq_some.mp h
  obtain ⟨output', reader', hstart, hnil⟩ := Machine.run_cons_eq_some.mp hrest
  rw [Machine.run_nil, Option.some.injEq] at hnil
  subst hnil
  rw [Reader.step, lexerStep, Option.map_some, Option.some.injEq, Prod.mk.injEq] at hset
  obtain ⟨-, rfl⟩ := hset
  have hserved : (Input.init (utf16Data text)).served.length = 2 * text.length := by
    rw [Input.served, Input.init, drop_utf16Data, length_utf16Bytes]
  -- a start that completes has read, which a buffer that is too large does not allow
  have hbound : 2 * text.length < 2 ^ 32 := by
    by_contra hlarge
    obtain ⟨⟨lexer, input⟩, hlexer, -⟩ := Option.map_eq_some_iff.mp hstart
    have hunread := lexerStep_unread rfl (by simp only [Reader.fresh, hserved]; omega) rfl ⟨rfl, rfl⟩
      hlexer
    exact Bool.noConfusion hunread.2.2.2.2
  obtain ⟨first, hfirst, hfirstAt, hzero, -⟩ :=
    @Reader.step_atBoundary text hbound _ .setInput (Reader.atBoundary_fresh text) trivial
  rw [Reader.step, lexerStep, Option.map_some, Option.some.injEq, Prod.mk.injEq] at hfirst
  obtain ⟨-, rfl⟩ := hfirst
  obtain ⟨second, hsecond, hsecondAt, hsame, hlook⟩ :=
    @Reader.step_atBoundary text hbound _ .start hfirstAt trivial
  rw [hstart, Option.some.injEq, Prod.mk.injEq] at hsecond
  obtain ⟨-, rfl⟩ := hsecond
  refine ⟨hbound, hsecondAt, hlook rfl, ?_⟩
  rw [hsame, positionAfter, hzero, positionAfter]
  exact countsUnits_zero text

/-- **Characters and units**: every position that the lexer reaches counts units. -/
theorem Reaches.countsUnits {text : Text} {position : Length} (h : Reaches text position) :
    CountsUnits text position := by
  obtain ⟨skips, reader, hreader, rfl⟩ := h
  obtain ⟨started, hstarted, hrun⟩ := Option.bind_eq_some_iff.mp hreader
  obtain ⟨hbound, hcounting⟩ := counting_started hstarted
  exact (Machine.run_invariant (Reader.Counting text)
    (fun reader skip output next h hnext => h.advance hbound hnext) hcounting hrun).counts

/-! ## Tokens -/

/-- A token whose start and end are positions that the lexer reaches. -/
structure TokenAt (text : Text) (token : TSNode) (start stop : Length) : Prop where
  /-- The lexer reaches the start. -/
  reachesStart : Reaches text start
  /-- The lexer reaches the end. -/
  reachesStop : Reaches text stop
  /-- The start is not behind the end. -/
  ordered : start.bytes ≤ stop.bytes
  /-- The token starts at the start, in characters. -/
  startChar : tsNodeStartChar token = start.chars
  /-- The token starts at the start, in bytes. -/
  startByte : tsNodeStartByte token = start.bytes
  /-- The token ends at the end, in characters. -/
  endChar : tsNodeEndChar token = stop.chars
  /-- The token ends at the end, in bytes. -/
  endByte : tsNodeEndByte token = stop.bytes

/-- The range of a node covers exactly the units of the node's own text. -/
def CoversOwnUnits (self : TSNode) : Prop :=
  ∀ index, (NSRange.ofCountableRange self.range).contains index = true ↔
    tsNodeStartByte self / 2 ≤ index ∧ index < tsNodeEndByte self / 2

/-- Two half-open ranges, of which the first has its bounds `p` and `q` further left, have the same
elements exactly when the second is empty or its end is not moved. -/
theorem moved_bounds_iff {m n p q : ℕ} (hle : m ≤ n) (hpq : p ≤ q) (hordered : m - p ≤ n - q) :
    (∀ index, m - p ≤ index ∧ index < n - q ↔ m ≤ index ∧ index < n) ↔ m = n ∨ q = 0 := by
  constructor
  · intro hsame
    by_cases hempty : m = n
    · exact Or.inl hempty
    · -- the last element of the second range lies in the first only if the end is not moved
      right
      have hlast := (hsame (n - 1)).mpr (by omega)
      omega
  · rintro (rfl | rfl) index
    · omega
    · omega

/-- **When colours land on a token's own text.** The range that `Node.write` passes to `setAttributes`
for a token is the range of the node, and it covers exactly the token's own units when the token is
empty or no surrogate pair lies in front of its end, and only then. -/
theorem coversOwnUnits_iff {text : Text} {self : TSNode} {start stop : Length}
    (h : TokenAt text self start stop) :
    (∀ language theme length children call,
      writeCall language theme length (.node self children) = some call →
        call.range = NSRange.ofCountableRange self.range) ∧
      (CoversOwnUnits self ↔ tsNodeStartByte self = tsNodeEndByte self ∨
        pairCount (text.take (tsNodeEndByte self / 2)) = 0) := by
  constructor
  · intro language theme length children call hcall
    obtain ⟨token, -, rfl⟩ := Option.map_eq_some_iff.mp hcall
    rfl
  obtain ⟨⟨m, hm⟩, -, -, hstart⟩ := h.reachesStart.countsUnits
  obtain ⟨⟨n, hn⟩, -, -, hstop⟩ := h.reachesStop.countsUnits
  have hle := h.ordered
  have hmono := @pairCount_take_le text m n (by omega)
  rw [hm] at hstart
  rw [hn] at hstop
  rw [Nat.mul_div_cancel_left m (by decide)] at hstart
  rw [Nat.mul_div_cancel_left n (by decide)] at hstop
  have hlower : self.range.lowerBound = m - pairCount (text.take m) := by
    rw [TSNode.lowerBound_range, TSNode.start, h.startChar]
    omega
  have hupper : self.range.upperBound = n - pairCount (text.take n) := by
    rw [TSNode.upperBound_range, TSNode.stop, h.endChar]
    omega
  have hordered := self.range.ordered
  unfold CoversOwnUnits
  rw [h.startByte, h.endByte, hm, hn, Nat.mul_div_cancel_left m (by decide),
    Nat.mul_div_cancel_left n (by decide)]
  rw [hlower, hupper] at hordered
  simp only [NSRange.contains_iff, NSRange.ofCountableRange, CountableRange.count, hlower, hupper,
    Nat.add_sub_of_le hordered]
  rw [moved_bounds_iff (by omega) hmono hordered, Nat.mul_right_inj (by decide)]

/-! ## A string with a surrogate pair -/

/-- The text `["😀"]`. -/
def smileText : Text := [0x5b, 0x22, 0xd83d, 0xde00, 0x22, 0x5d]

/-- The string in it: three characters in four units, behind the bracket. -/
def smileToken : TSNode where
  tree := .node
    { symbol := Json.symString.rawValue
      visible := true
      named := true
      padding := Length.zero
      size := ⟨8, 3, ⟨0, 3⟩⟩
      offset := ⟨2, 1, ⟨0, 1⟩⟩ } []
  offsetChar := 1
  offsetByte := 2
  offsetRow := 0
  contextOffsets := [⟨2, 1, ⟨0, 1⟩⟩]

/-- The lexer reaches both ends of the string. -/
theorem tokenAt_smile : TokenAt smileText smileToken ⟨2, 1, ⟨0, 1⟩⟩ ⟨10, 4, ⟨0, 4⟩⟩ := by
  have hreaches : ∀ skips position, (advanced smileText skips).map
      (fun reader => reader.lexer.currentPosition) = some position → Reaches smileText position := by
    intro skips position h
    obtain ⟨reader, hreader, hposition⟩ := Option.map_eq_some_iff.mp h
    exact ⟨skips, reader, hreader, hposition⟩
  refine ⟨hreaches [false] _ ?_, hreaches [false, false, false, false] _ ?_, ?_, ?_, ?_, ?_, ?_⟩
  all_goals decide +kernel

/-- The theorem on the string of `["😀"]`. -/
theorem coversOwnUnits_iff_smile :
    (∀ language theme length children call,
      writeCall language theme length (.node smileToken children) = some call →
        call.range = NSRange.ofCountableRange smileToken.range) ∧
      (CoversOwnUnits smileToken ↔ tsNodeStartByte smileToken = tsNodeEndByte smileToken ∨
        pairCount (smileText.take (tsNodeEndByte smileToken / 2)) = 0) :=
  coversOwnUnits_iff tokenAt_smile

/-- The closing quote of the string keeps its old colour. -/
theorem not_coversOwnUnits_smile :
    ¬ ∀ (text : Text) (token : TSNode) (start stop : Length), TokenAt text token start stop →
      CoversOwnUnits token := by
  intro hall
  have hquote := (hall smileText smileToken _ _ tokenAt_smile 4).mpr (by decide)
  exact absurd hquote (by decide)

end TreeSitterTextStorage
