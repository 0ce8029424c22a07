import Mathlib.Data.List.Basic

/-! # Splicing lists

Replacing the segment `[lo, hi)` of a list by another list, and how the operation commutes with an
encoding that writes every element as a fixed number of symbols. -/

namespace Splice

universe u v

variable {α : Type u} {β : Type v}

/-- `splice lo hi r l` replaces the elements of `l` at the positions `lo, …, hi - 1` by `r`. -/
def splice (lo hi : ℕ) (r l : List α) : List α := l.take lo ++ r ++ l.drop hi

/-- The length of a splice inside the list. -/
theorem length_splice {lo hi : ℕ} (r : List α) {l : List α} (hlo : lo ≤ hi) (hhi : hi ≤ l.length) :
    (splice lo hi r l).length = l.length - (hi - lo) + r.length := by
  simp only [splice, List.length_append, List.length_take, List.length_drop]
  omega

/-- A splice leaves the elements before its segment alone. -/
theorem take_splice {lo : ℕ} (hi : ℕ) (r : List α) {l : List α} (hlo : lo ≤ l.length) :
    (splice lo hi r l).take lo = l.take lo := by
  rw [splice, List.append_assoc, List.take_append_of_le_length (by rw [List.length_take]; omega),
    List.take_take, Nat.min_self]

/-- Splicing all of a list leaves the new elements. -/
theorem splice_all (r l : List α) : splice 0 (0 + l.length) r l = r := by
  rw [splice, Nat.zero_add, List.take_zero, List.nil_append, List.drop_length, List.append_nil]

/-- A splice behind a fixed front of the list is a splice of the rest. -/
theorem splice_append_left (front : List α) (lo hi : ℕ) (r l : List α) :
    splice (front.length + lo) (front.length + hi) r (front ++ l) = front ++ splice lo hi r l := by
  simp only [splice, List.take_length_add_append, List.drop_length_add_append, List.append_assoc]

/-! ## Fixed-width encodings -/

section FixedWidth

variable {encode : α → List β} {width : ℕ} (hwidth : ∀ a, (encode a).length = width)
include hwidth

/-- The length of an encoded list. -/
theorem length_flatMap_of_width (l : List α) : (l.flatMap encode).length = width * l.length := by
  induction l with
  | nil => rfl
  | cons a l ih =>
      rw [List.flatMap_cons, List.length_append, hwidth, ih, List.length_cons, Nat.mul_succ,
        Nat.add_comm]

/-- Dropping whole encoded elements is dropping elements. -/
theorem drop_flatMap_of_width (n : ℕ) (l : List α) :
    (l.flatMap encode).drop (width * n) = (l.drop n).flatMap encode := by
  induction n generalizing l with
  | zero => simp
  | succ n ih =>
      cases l with
      | nil => simp
      | cons a l =>
          have hlen : width * (n + 1) = (encode a).length + width * n := by
            rw [hwidth, Nat.mul_succ, Nat.add_comm]
          rw [List.flatMap_cons, hlen, List.drop_length_add_append, ih, List.drop_succ_cons]

/-- Taking whole encoded elements is taking elements. -/
theorem take_flatMap_of_width (n : ℕ) (l : List α) :
    (l.flatMap encode).take (width * n) = (l.take n).flatMap encode := by
  induction n generalizing l with
  | zero => simp
  | succ n ih =>
      cases l with
      | nil => simp
      | cons a l =>
          have hlen : width * (n + 1) = (encode a).length + width * n := by
            rw [hwidth, Nat.mul_succ, Nat.add_comm]
          rw [List.flatMap_cons, hlen, List.take_length_add_append, ih, List.take_succ_cons,
            List.flatMap_cons]

/-- **Splicing commutes with a fixed-width encoding**, the bounds scaled by the width. -/
theorem splice_flatMap_of_width (lo hi : ℕ) (r l : List α) :
    splice (width * lo) (width * hi) (r.flatMap encode) (l.flatMap encode) =
      (splice lo hi r l).flatMap encode := by
  simp only [splice, List.flatMap_append, take_flatMap_of_width hwidth,
    drop_flatMap_of_width hwidth]

end FixedWidth

end Splice
