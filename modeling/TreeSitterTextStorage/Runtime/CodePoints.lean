import TreeSitterTextStorage.Runtime.Spans
import TreeSitterTextStorage.Runtime.Utf16

/-! # The code points of a text

The lexer advances over a surrogate pair at once and over every other unit on its own, unpaired
surrogates included. These are the symbols in which a parse measures a text: each is a character and
takes a column, and the line feed ends a row. -/

namespace TreeSitterTextStorage

/-- What the lexer advances over at once. -/
inductive CodePoint where
  /-- A unit on its own. -/
  | lone (unit : UInt16)
  /-- A surrogate pair. -/
  | pair (high low : UInt16)
  deriving DecidableEq, Repr

/-- The units of a code point. -/
def CodePoint.units : CodePoint → Text
  | lone unit => [unit]
  | pair high low => [high, low]

theorem CodePoint.length_units_pos (point : CodePoint) : 0 < point.units.length := by
  cases point with
  | lone unit => exact Nat.one_pos
  | pair high low => exact Nat.two_pos

/-- What the lexer measures of code points. -/
def codePointMetric : Metric CodePoint where
  newline point := decide (point = .lone 10)
  columns _ := 1
  size point := 2 * point.units.length
  size_pos point := Nat.mul_pos Nat.two_pos point.length_units_pos
  columns_le point := by
    have := point.length_units_pos
    omega

/-- A code point as a text of its own. -/
theorem lengthOf_codePoint (point : CodePoint) :
    codePointMetric.lengthOf [point] =
      ⟨codePointMetric.size point, 1, if point = .lone 10 then ⟨1, 0⟩ else ⟨0, 1⟩⟩ := by
  have hextent : codePointMetric.extent [point] = codePointMetric.step point := by
    rw [Extent.Ruler.extent_cons, Extent.Ruler.extent_nil, add_zero]
  rw [Metric.lengthOf, Metric.pointOf, hextent, Extent.Ruler.step]
  by_cases hline : point = .lone 10
  · rw [if_pos hline, if_pos (show codePointMetric.newline point = true from decide_eq_true hline)]
    rfl
  · rw [if_neg hline, if_neg (show ¬ codePointMetric.newline point = true from by
      rw [codePointMetric, decide_eq_true_iff]
      exact hline)]
    rfl

/-- The code points of a text. -/
def codePoints : Text → List CodePoint
  | [] => []
  | [unit] => [.lone unit]
  | unit :: next :: rest =>
      if isHighSurrogate unit && isLowSurrogate next then .pair unit next :: codePoints rest
      else .lone unit :: codePoints (next :: rest)

theorem codePoints_of_pair {high low : UInt16} {rest : Text}
    (h : startsWithPair (high :: low :: rest) = true) :
    codePoints (high :: low :: rest) = .pair high low :: codePoints rest := if_pos h

theorem codePoints_of_lone {unit : UInt16} {rest : Text}
    (h : startsWithPair (unit :: rest) = false) :
    codePoints (unit :: rest) = .lone unit :: codePoints rest := by
  cases rest with
  | nil => rfl
  | cons next rest => exact if_neg (Bool.eq_false_iff.mp h)

/-- A text starts with a pair or with a unit on its own. -/
theorem codePoints_cases (unit : UInt16) (rest : Text) :
    (∃ low rest', rest = low :: rest' ∧ startsWithPair (unit :: low :: rest') = true) ∨
      startsWithPair (unit :: rest) = false := by
  cases hpair : startsWithPair (unit :: rest) with
  | false => exact Or.inr rfl
  | true =>
      cases rest with
      | nil => exact absurd hpair Bool.false_ne_true
      | cons low rest' => exact Or.inl ⟨low, rest', rfl, hpair⟩

/-- The text of code points. -/
def unitsOf (points : List CodePoint) : Text := points.flatMap CodePoint.units

@[simp] theorem unitsOf_cons (point : CodePoint) (points : List CodePoint) :
    unitsOf (point :: points) = point.units ++ unitsOf points := List.flatMap_cons

/-- **Code points are made of the text.** -/
@[simp] theorem unitsOf_codePoints (text : Text) : unitsOf (codePoints text) = text := by
  induction text using codePoints.induct with
  | case1 => rfl
  | case2 unit => rfl
  | case3 high low rest hpair ih =>
      rw [codePoints_of_pair hpair, unitsOf_cons, ih]
      rfl
  | case4 unit next rest hpair ih =>
      have hlone : startsWithPair (unit :: next :: rest) = false := Bool.eq_false_iff.mpr hpair
      rw [codePoints_of_lone hlone, unitsOf_cons, ih]
      rfl

/-- There are no more code points than units. -/
theorem length_le_unitsOf (points : List CodePoint) : points.length ≤ (unitsOf points).length := by
  induction points with
  | nil => exact Nat.le_refl 0
  | cons point points ih =>
      have hpos := point.length_units_pos
      rw [unitsOf_cons, List.length_append, List.length_cons]
      omega

/-- The bytes of code points are those of their units. -/
theorem bytesOf_codePointMetric (points : List CodePoint) :
    codePointMetric.bytesOf points = 2 * (unitsOf points).length := by
  induction points with
  | nil => rfl
  | cons point points ih =>
      rw [← List.singleton_append, Metric.bytesOf_append, ih, List.singleton_append, unitsOf_cons,
        List.length_append, Nat.mul_add]
      rfl

/-- The bytes of the code points of a text. -/
@[simp] theorem bytesOf_codePoints (text : Text) :
    codePointMetric.bytesOf (codePoints text) = 2 * text.length := by
  rw [bytesOf_codePointMetric, unitsOf_codePoints]

/-- The code points behind the first one are those of the text behind its units. -/
theorem codePoints_eq_cons {text : Text} {point : CodePoint} {points : List CodePoint}
    (h : codePoints text = point :: points) :
    ∃ rest, text = point.units ++ rest ∧ codePoints rest = points := by
  cases text with
  | nil => exact absurd h (List.cons_ne_nil point points).symm
  | cons unit rest =>
      rcases codePoints_cases unit rest with ⟨low, rest', rfl, hpair⟩ | hlone
      · rw [codePoints_of_pair hpair] at h
        obtain ⟨rfl, rfl⟩ := List.cons.inj h
        exact ⟨rest', rfl, rfl⟩
      · rw [codePoints_of_lone hlone] at h
        obtain ⟨rfl, rfl⟩ := List.cons.inj h
        exact ⟨rest, rfl, rfl⟩

/-- The code points behind a border are those of the text behind it. -/
theorem codePoints_eq_append {text : Text} {front back : List CodePoint}
    (h : codePoints text = front ++ back) :
    ∃ rest, text = unitsOf front ++ rest ∧ codePoints rest = back := by
  induction front generalizing text with
  | nil => exact ⟨text, rfl, h⟩
  | cons point front ih =>
      obtain ⟨rest, rfl, hrest⟩ := codePoints_eq_cons h
      obtain ⟨back', rfl, hback⟩ := ih hrest
      exact ⟨back', by rw [unitsOf_cons, List.append_assoc], hback⟩

/-- A border that runs through no pair separates the code points. -/
theorem codePoints_append {front back : Text} (h : splitsPair front back = false) :
    codePoints (front ++ back) = codePoints front ++ codePoints back := by
  induction front using codePoints.induct with
  | case1 => rfl
  | case2 unit =>
      have hlone : startsWithPair (unit :: back) = false := by
        rw [← splitsPair_append_singleton []]
        exact h
      exact codePoints_of_lone hlone
  | case3 high low rest hpair ih =>
      -- the border of the rest is the same one
      have hrest : splitsPair rest back = false := by
        cases rest with
        | nil => rfl
        | cons next rest =>
            rw [splitsPair, List.getLast?_cons_cons, List.getLast?_cons_cons] at h
            exact h
      calc codePoints (high :: low :: rest ++ back)
          = .pair high low :: codePoints (rest ++ back) := codePoints_of_pair hpair
        _ = codePoints (high :: low :: rest) ++ codePoints back := by
            rw [ih hrest, codePoints_of_pair hpair, List.cons_append]
  | case4 unit next rest hpair ih =>
      have hlone : startsWithPair (unit :: next :: rest) = false := Bool.eq_false_iff.mpr hpair
      have hrest : splitsPair (next :: rest) back = false := by
        rw [splitsPair, List.getLast?_cons_cons] at h
        exact h
      calc codePoints (unit :: next :: rest ++ back)
          = .lone unit :: codePoints (next :: rest ++ back) := codePoints_of_lone hlone
        _ = codePoints (unit :: next :: rest) ++ codePoints back := by
            rw [ih hrest, codePoints_of_lone hlone, List.cons_append]

/-! ## Decoding -/

/-- A text decodes to a line feed only when it starts with one. -/
theorem utf16Iterate_eq_newline_iff {unit : UInt16} {rest : Text} {length : ℕ} :
    (utf16Iterate (utf16Bytes (unit :: rest)) length).1 = 10 ↔ unit = 10 := by
  constructor
  · intro h
    simp only [utf16Iterate, unitAt_zero] at h
    split at h
    · have hunit : (unit.toNat : ℤ) = 10 := h
      exact UInt16.toNat_inj.mp (by exact_mod_cast hunit)
    · next hsurrogate =>
        rw [not_or, UInt16.not_lt, UInt16.le_iff_toNat_le] at hsurrogate
        have hhigh : (0xd800 : UInt16).toNat = 0xd800 := rfl
        split at h
        · split at h
          · split at h
            · next hnext =>
                -- a pair decodes to no less than the first code point beyond the plane of the units
                rw [ge_iff_le, UInt16.le_iff_toNat_le] at hnext
                have hlow : (0xdc00 : UInt16).toNat = 0xdc00 := rfl
                simp only at h
                omega
            · exact absurd h (by decide)
          · exact absurd h (by decide)
        · exact absurd h (by decide)
  · rintro rfl
    simp only [utf16Iterate, unitAt_zero]
    rfl

/-- **The lexer decodes the code points of a text**: the first one takes its size, and is a line
feed when the lexer says so. -/
theorem utf16Iterate_codePoints {text : Text} {point : CodePoint} {points : List CodePoint}
    (h : codePoints text = point :: points) :
    (utf16Iterate (utf16Bytes text) (2 * text.length)).2 = codePointMetric.size point ∧
      ((utf16Iterate (utf16Bytes text) (2 * text.length)).1 = 10 ↔ point = .lone 10) := by
  cases text with
  | nil => exact absurd h (List.cons_ne_nil point points).symm
  | cons unit rest =>
      rw [utf16Iterate_utf16Bytes_size, utf16Iterate_eq_newline_iff]
      rcases codePoints_cases unit rest with ⟨low, rest', rfl, hpair⟩ | hlone
      · rw [codePoints_of_pair hpair] at h
        obtain ⟨rfl, -⟩ := List.cons.inj h
        rw [if_pos hpair]
        refine ⟨rfl, ?_, fun hten => CodePoint.noConfusion hten⟩
        -- no line feed starts a pair
        rintro rfl
        exact absurd hpair (by rw [startsWithPair]; exact Bool.false_ne_true)
      · rw [codePoints_of_lone hlone] at h
        obtain ⟨rfl, -⟩ := List.cons.inj h
        rw [hlone, if_neg Bool.false_ne_true, CodePoint.lone.injEq]
        exact ⟨rfl, Iff.rfl⟩

end TreeSitterTextStorage
