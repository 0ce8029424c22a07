import Mathlib.Algebra.Group.Int.Defs
import Mathlib.Algebra.Group.Nat.Defs
import Mathlib.Order.Lattice

/-! # Fixed-width integers and ranges

Swift's checked conversions and arithmetic on `UInt32`, which trap instead of wrapping, C's wrapping
`uint32_t` arithmetic, the range types `CountableRange` and `CountableClosedRange`, and `NSRange`
with the conversions that `Extensions.swift` adds to it. A trap is `none`. -/

namespace TreeSitterTextStorage

/-! ## Integers -/

/-- Swift's `UInt32(x)`, which traps outside `0 ..< 2^32`. -/
def toUInt32 (x : ℤ) : Option ℕ := if 0 ≤ x ∧ x < 2 ^ 32 then some x.toNat else none

/-- The conversion succeeds exactly on the values of the type. -/
theorem toUInt32_eq_some_iff {x : ℤ} {n : ℕ} : toUInt32 x = some n ↔ x = n ∧ n < 2 ^ 32 := by
  rw [toUInt32]
  split
  · rw [Option.some.injEq]
    omega
  · refine iff_of_false (by simp) ?_
    omega

/-- Swift's `+` on `UInt32`, which traps on overflow. -/
def addUInt32 (a b : ℕ) : Option ℕ := if a + b < 2 ^ 32 then some (a + b) else none

/-- Swift's `-` on `UInt32`, which traps on underflow. -/
def subUInt32 (a b : ℕ) : Option ℕ := if b ≤ a then some (a - b) else none

/-- Swift's `*` on `UInt32`, which traps on overflow. -/
def mulUInt32 (a b : ℕ) : Option ℕ := if a * b < 2 ^ 32 then some (a * b) else none

theorem addUInt32_eq_some_iff {a b n : ℕ} : addUInt32 a b = some n ↔ a + b = n ∧ n < 2 ^ 32 := by
  rw [addUInt32]
  split <;> simp only [Option.some.injEq, reduceCtorEq, false_iff] <;> omega

theorem mulUInt32_eq_some_iff {a b n : ℕ} : mulUInt32 a b = some n ↔ a * b = n ∧ n < 2 ^ 32 := by
  rw [mulUInt32]
  split <;> simp only [Option.some.injEq, reduceCtorEq, false_iff] <;> omega

/-- C's `a + b` on `uint32_t`, which wraps. -/
def wrapAdd (a b : ℕ) : ℕ := (a + b) % 2 ^ 32

/-- C's `a - b` on `uint32_t`, which wraps. -/
def wrapSub (a b : ℕ) : ℕ := (a + (2 ^ 32 - b % 2 ^ 32)) % 2 ^ 32

/-- A wrapping sum below `2^32` is the sum. -/
theorem wrapAdd_of_lt {a b : ℕ} (h : a + b < 2 ^ 32) : wrapAdd a b = a + b := Nat.mod_eq_of_lt h

/-- The wrapping difference of ordered values is their difference. -/
theorem wrapSub_of_le {a b : ℕ} (h : b ≤ a) (ha : a < 2 ^ 32) : wrapSub a b = a - b := by
  rw [wrapSub]
  omega

/-! ## Half-open and closed ranges -/

/-- `CountableRange<UInt32>`: a half-open range whose bounds are ordered. -/
structure CountableRange where
  /-- The first element. -/
  lowerBound : ℕ
  /-- The first element behind the range. -/
  upperBound : ℕ
  /-- A range cannot be formed with its bounds out of order. -/
  ordered : lowerBound ≤ upperBound
  deriving DecidableEq, Repr

/-- `CountableClosedRange<UInt32>`: a closed range, which is never empty. -/
structure CountableClosedRange where
  /-- The first element. -/
  lowerBound : ℕ
  /-- The last element. -/
  upperBound : ℕ
  /-- A closed range cannot be formed with its bounds out of order. -/
  ordered : lowerBound ≤ upperBound
  deriving DecidableEq, Repr

/-- The operator `lower ..< upper`, which traps when the bounds are out of order. -/
def CountableRange.form (lower upper : ℕ) : Option CountableRange :=
  if h : lower ≤ upper then some ⟨lower, upper, h⟩ else none

/-- The number of elements of a half-open range. -/
def CountableRange.count (r : CountableRange) : ℕ := r.upperBound - r.lowerBound

/-- Whether a half-open range contains an element. -/
def CountableRange.contains (r : CountableRange) (x : ℕ) : Bool :=
  decide (r.lowerBound ≤ x ∧ x < r.upperBound)

/-- The number of elements of a closed range. -/
def CountableClosedRange.count (r : CountableClosedRange) : ℕ := r.upperBound - r.lowerBound + 1

/-- The closed range with the elements of a half-open one: the standard library's conversion, which
traps on an empty range. -/
def CountableClosedRange.ofCountableRange (r : CountableRange) : Option CountableClosedRange :=
  if h : r.lowerBound < r.upperBound then
    some ⟨r.lowerBound, r.upperBound - 1, by omega⟩
  else none

theorem CountableRange.form_of_le {lower upper : ℕ} (h : lower ≤ upper) :
    CountableRange.form lower upper = some ⟨lower, upper, h⟩ := by
  rw [CountableRange.form, dif_pos h]

theorem CountableClosedRange.ofCountableRange_of_lt {r : CountableRange}
    (h : r.lowerBound < r.upperBound) :
    CountableClosedRange.ofCountableRange r =
      some ⟨r.lowerBound, r.upperBound - 1, Nat.le_sub_one_of_lt h⟩ := by
  rw [CountableClosedRange.ofCountableRange, dif_pos h]

/-! ## `NSRange` -/

/-- `NSRange`: a location and a length. Both are `Int` in Swift; every range of the model has them
nonnegative. -/
structure NSRange where
  /-- The first index of the range. -/
  location : ℕ
  /-- The number of indices in the range. -/
  length : ℕ
  deriving DecidableEq, Repr

namespace NSRange

/-- `NSRange.contains(_:)`. -/
def contains (r : NSRange) (index : ℕ) : Bool :=
  decide (r.location ≤ index ∧ index < r.location + r.length)

@[simp] theorem contains_iff {r : NSRange} {index : ℕ} :
    r.contains index = true ↔ r.location ≤ index ∧ index < r.location + r.length := by
  rw [contains, decide_eq_true_iff]

/-- `NSRange.uint32range`, which runs up to and including `location + length`. -/
def uint32range (r : NSRange) : Option CountableRange := do
  let lower ← toUInt32 r.location
  let upper ← toUInt32 (r.location + r.length + 1)
  CountableRange.form lower upper

/-- `NSRange.init(_: CountableClosedRange<UInt32>)`. -/
def ofClosedRange (r : CountableClosedRange) : NSRange := ⟨r.lowerBound, r.count⟩

/-- Foundation's `NSRange.init` of a half-open range. -/
def ofCountableRange (r : CountableRange) : NSRange := ⟨r.lowerBound, r.count⟩

/-- `uint32range` completes exactly when its upper bound is a `UInt32`, and then has one element
more than the range. -/
theorem uint32range_eq_some_iff {r : NSRange} {u : CountableRange} :
    r.uint32range = some u ↔
      r.location + r.length + 1 < 2 ^ 32 ∧ u.lowerBound = r.location ∧
        u.upperBound = r.location + r.length + 1 := by
  have hcast : ((r.location : ℤ) + r.length + 1) = ((r.location + r.length + 1 : ℕ) : ℤ) := by simp
  simp only [uint32range, Option.bind_eq_bind, Option.bind_eq_some_iff, toUInt32_eq_some_iff]
  constructor
  · rintro ⟨lower, ⟨hlower, -⟩, upper, ⟨hupper, hbound⟩, hform⟩
    have hl : r.location = lower := by exact_mod_cast hlower
    have hu : r.location + r.length + 1 = upper := by exact_mod_cast hcast ▸ hupper
    rw [CountableRange.form_of_le (by omega), Option.some.injEq] at hform
    subst hform
    exact ⟨hu ▸ hbound, hl.symm, hu.symm⟩
  · rintro ⟨hbound, hlower, hupper⟩
    refine ⟨r.location, ⟨rfl, by omega⟩, r.location + r.length + 1, ⟨hcast, hbound⟩, ?_⟩
    rw [CountableRange.form_of_le (by omega), Option.some.injEq]
    cases u
    simp only at hlower hupper
    subst hlower hupper
    rfl

/-- `uint32range` has one element more than the range it is taken from. -/
theorem count_uint32range {r : NSRange} {u : CountableRange} (h : r.uint32range = some u) :
    u.count = r.length + 1 := by
  obtain ⟨-, hlower, hupper⟩ := uint32range_eq_some_iff.mp h
  rw [CountableRange.count, hlower, hupper]
  omega

/-- The closed range of `uint32range` has one element more than the range it is taken from. -/
theorem ofCountableRange_uint32range {r : NSRange} (h : r.location + r.length + 1 < 2 ^ 32) :
    r.uint32range.bind CountableClosedRange.ofCountableRange =
      some ⟨r.location, r.location + r.length, Nat.le_add_right _ _⟩ := by
  have hrange : r.uint32range = some ⟨r.location, r.location + r.length + 1, by omega⟩ :=
    uint32range_eq_some_iff.mpr ⟨h, rfl, rfl⟩
  have hlt : r.location < r.location + r.length + 1 := by omega
  rw [hrange, Option.bind_some, CountableClosedRange.ofCountableRange_of_lt hlt]
  rfl

/-- A nonempty half-open range survives the detour through a closed range. -/
theorem ofClosedRange_ofCountableRange {r : CountableRange} {c : CountableClosedRange}
    (h : CountableClosedRange.ofCountableRange r = some c) :
    ofClosedRange c = ofCountableRange r := by
  rw [CountableClosedRange.ofCountableRange] at h
  split at h
  · next hlt =>
      rw [Option.some.injEq] at h
      subst h
      rw [ofClosedRange, ofCountableRange, CountableClosedRange.count, CountableRange.count]
      congr 1
      simp only
      omega
  · exact absurd h (by simp)

end NSRange

end TreeSitterTextStorage
