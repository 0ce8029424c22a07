import TreeSitterTextStorage.Foundation.Text

/-! # Decoding UTF-16

`utf16_iterate` of `utf16.c`, on the memory behind a pointer, and what it decodes from the bytes of a
string. -/

namespace TreeSitterTextStorage

/-- The unit at an index of the memory behind a pointer. Bytes behind the end of the storage read as
`0`. -/
def unitAt (memory : List UInt8) (index : ℕ) : UInt16 :=
  unitOfBytes (memory.getD (2 * index) 0) (memory.getD (2 * index + 1) 0)

/-- `utf16_iterate`: the code point at the start of the memory, `-1` for an unpaired surrogate, and
the number of bytes it takes. -/
def utf16Iterate (string : List UInt8) (length : ℕ) : ℤ × ℕ :=
  let unit := unitAt string 0
  if unit < 0xd800 ∨ unit ≥ 0xe000 then (unit.toNat, 2)
  else if unit < 0xdc00 then
    if length ≥ 4 then
      let nextUnit := unitAt string 1
      if nextUnit ≥ 0xdc00 ∧ nextUnit < 0xe000 then
        (0x10000 + ((unit.toNat : ℤ) - 0xd800) * 2 ^ 10 + (nextUnit.toNat - 0xdc00), 4)
      else (-1, 2)
    else (-1, 2)
  else (-1, 2)

/-- A code point takes two or four bytes, and four only when there are as many. -/
theorem utf16Iterate_size (string : List UInt8) (length : ℕ) :
    (utf16Iterate string length).2 = 2 ∨ (utf16Iterate string length).2 = 4 ∧ 4 ≤ length := by
  simp only [utf16Iterate]
  repeat' split
  all_goals first
    | exact Or.inl rfl
    | exact Or.inr ⟨rfl, by assumption⟩

/-! ## Units -/

/-- Whether a unit is the first half of a surrogate pair. -/
def isHighSurrogate (unit : UInt16) : Bool := decide (0xd800 ≤ unit ∧ unit < 0xdc00)

/-- Whether a unit is the second half of a surrogate pair. -/
def isLowSurrogate (unit : UInt16) : Bool := decide (0xdc00 ≤ unit ∧ unit < 0xe000)

/-- Whether a text starts with a surrogate pair. -/
def startsWithPair : Text → Bool
  | high :: low :: _ => isHighSurrogate high && isLowSurrogate low
  | _ => false

/-- No unit is both halves of a pair. -/
theorem isHighSurrogate_eq_false {unit : UInt16} (h : isLowSurrogate unit = true) :
    isHighSurrogate unit = false := by
  rw [isLowSurrogate, decide_eq_true_iff] at h
  rw [isHighSurrogate, decide_eq_false_iff_not]
  exact fun hhigh => absurd hhigh.2 (UInt16.not_lt.mpr h.1)

@[simp] theorem unitAt_zero (unit : UInt16) (rest : Text) :
    unitAt (utf16Bytes (unit :: rest)) 0 = unit := by
  rw [utf16Bytes_cons]
  exact unitOfBytes_unitBytes unit

@[simp] theorem unitAt_one (unit next : UInt16) (rest : Text) :
    unitAt (utf16Bytes (unit :: next :: rest)) 1 = next := by
  rw [utf16Bytes_cons, utf16Bytes_cons]
  exact unitOfBytes_unitBytes next

/-- **The size of a code point** at the start of a text: four bytes for a surrogate pair and two for
every other unit. -/
theorem utf16Iterate_utf16Bytes_size (unit : UInt16) (rest : Text) :
    (utf16Iterate (utf16Bytes (unit :: rest)) (2 * (unit :: rest).length)).2 =
      if startsWithPair (unit :: rest) then 4 else 2 := by
  simp only [utf16Iterate, unitAt_zero]
  by_cases hhigh : isHighSurrogate unit
  · have hrange := hhigh
    rw [isHighSurrogate, decide_eq_true_iff] at hrange
    rw [if_neg (by rw [not_or]; exact ⟨UInt16.not_lt.mpr hrange.1, fun h => absurd hrange.2
      (UInt16.not_lt.mpr (UInt16.le_trans (by decide) h))⟩), if_pos hrange.2]
    cases rest with
    | nil => rw [if_neg (by simp only [List.length_singleton]; omega)]; rfl
    | cons next rest =>
        rw [if_pos (by simp only [List.length_cons]; omega)]
        simp only [unitAt_one, startsWithPair, hhigh, Bool.true_and, isLowSurrogate,
          decide_eq_true_iff]
        split <;> rfl
  · have hpair : startsWithPair (unit :: rest) = false := by
      cases rest with
      | nil => rfl
      | cons next rest => rw [startsWithPair, Bool.eq_false_iff.mpr hhigh, Bool.false_and]
    rw [hpair]
    rw [isHighSurrogate, decide_eq_true_iff, not_and] at hhigh
    split
    · rfl
    · next h =>
        rw [not_or, UInt16.not_lt] at h
        rw [if_neg (hhigh h.1), if_neg Bool.false_ne_true]

/-! ## Surrogate pairs -/

/-- The number of surrogate pairs of a text. -/
def pairCount : Text → ℕ
  | [] => 0
  | unit :: rest => (if startsWithPair (unit :: rest) then 1 else 0) + pairCount rest

/-- Whether the border between two pieces of a text runs through a surrogate pair. -/
def splitsPair (front back : Text) : Bool :=
  match front.getLast?, back.head? with
  | some high, some low => isHighSurrogate high && isLowSurrogate low
  | _, _ => false

@[simp] theorem splitsPair_nil_left (back : Text) : splitsPair [] back = false := rfl

/-- Behind a unit, the border runs through a pair exactly when the unit starts one. -/
@[simp] theorem splitsPair_append_singleton (front : Text) (unit : UInt16) (back : Text) :
    splitsPair (front ++ [unit]) back = startsWithPair (unit :: back) := by
  rw [splitsPair, List.getLast?_concat]
  cases back with
  | nil => rfl
  | cons next rest => rfl

/-- **Pairs of a text in two pieces**: those of the pieces, and the one on the border. -/
theorem pairCount_append (front back : Text) :
    pairCount (front ++ back) =
      pairCount front + pairCount back + if splitsPair front back then 1 else 0 := by
  induction front with
  | nil => rw [List.nil_append, splitsPair_nil_left, pairCount, if_neg Bool.false_ne_true]; omega
  | cons unit rest ih =>
      rw [List.cons_append, pairCount, pairCount, ih]
      cases rest with
      | nil =>
          -- the border lies right behind the unit
          have hborder : splitsPair [unit] back = startsWithPair (unit :: back) :=
            splitsPair_append_singleton [] unit back
          have hlone : startsWithPair [unit] = false := rfl
          rw [hborder, List.nil_append, splitsPair_nil_left, hlone]
          simp only [Bool.false_eq_true, if_false]
          omega
      | cons next rest =>
          have hborder : splitsPair (unit :: next :: rest) back = splitsPair (next :: rest) back := by
            rw [splitsPair, splitsPair, List.getLast?_cons_cons]
          have hstart : startsWithPair (unit :: (next :: rest ++ back)) =
              startsWithPair (unit :: next :: rest) := rfl
          rw [hborder, hstart]
          omega

/-- A prefix has no more pairs than the text. -/
theorem pairCount_take_le {text : Text} {m n : ℕ} (h : m ≤ n) :
    pairCount (text.take m) ≤ pairCount (text.take n) := by
  have hsplit : text.take n = text.take m ++ (text.take n).drop m := by
    have htake : (text.take n).take m = text.take m := by
      rw [List.take_take, Nat.min_eq_left h]
    rw [← htake, List.take_append_drop]
  rw [hsplit, pairCount_append]
  omega

/-- Passing the unit or the pair at a border of a text leaves a border, and counts the pair. -/
theorem pairCount_pass {front back : Text} (hwhole : splitsPair front back = false)
    (hback : back ≠ []) :
    let size := if startsWithPair back then 2 else 1
    splitsPair (front ++ back.take size) (back.drop size) = false ∧
      pairCount (front ++ back.take size) + 1 = pairCount front + size := by
  obtain ⟨unit, rest, rfl⟩ := List.exists_cons_of_ne_nil hback
  by_cases hpair : startsWithPair (unit :: rest)
  · -- the second half of a pair starts no other pair
    cases rest with
    | nil => exact absurd hpair Bool.false_ne_true
    | cons low rest =>
        have hhalves := hpair
        rw [startsWithPair, Bool.and_eq_true] at hhalves
        have hlow := isHighSurrogate_eq_false hhalves.2
        have hnone : startsWithPair (low :: rest) = false := by
          cases rest with
          | nil => rfl
          | cons next rest => rw [startsWithPair, hlow, Bool.false_and]
        have hfront : splitsPair front [unit, low] = false := hwhole
        have hpair' : startsWithPair [unit, low] = true := hpair
        have hlone : startsWithPair [low] = false := rfl
        simp only [if_pos hpair, List.take_succ_cons, List.take_zero, List.drop_succ_cons,
          List.drop_zero]
        constructor
        · rw [show front ++ [unit, low] = (front ++ [unit]) ++ [low] by simp,
            splitsPair_append_singleton, hnone]
        · rw [pairCount_append, hfront]
          simp [pairCount, hpair', hlone]
  · have hfront : splitsPair front [unit] = false := hwhole
    have hlone : startsWithPair [unit] = false := rfl
    simp only [if_neg hpair, List.take_succ_cons, List.take_zero, List.drop_succ_cons,
      List.drop_zero]
    constructor
    · rw [splitsPair_append_singleton]
      exact Bool.eq_false_iff.mpr hpair
    · rw [pairCount_append, hfront]
      simp [pairCount, hlone]

end TreeSitterTextStorage
