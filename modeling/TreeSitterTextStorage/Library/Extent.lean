import Mathlib.Algebra.BigOperators.Group.List.Basic
import Mathlib.Algebra.Group.Nat.Defs
import Mathlib.Algebra.GroupWithZero.Nat
import Mathlib.Data.Prod.Lex
import Mathlib.Order.Nat

/-! # Extents of texts

The rows and columns that a text spans. Extents form a monoid: behind a text that ends a row the
columns start over, so the sum of two extents keeps the columns of the second one when that has a row
end. The monoid is not commutative, but it cancels on the left, and its lexicographic order is the
order of prefixes. The extent of a text is a monoid homomorphism from lists. -/

universe u

/-- A number of rows and, in the last of them, a number of columns. -/
@[ext]
structure Extent where
  /-- The number of row ends. -/
  row : ℕ
  /-- The number of columns behind the last row end. -/
  column : ℕ
  deriving DecidableEq, Repr

namespace Extent

/-! ## The monoid -/

instance : Zero Extent := ⟨⟨0, 0⟩⟩

/-- One text behind another: the columns start over where the second one has a row end. -/
instance : Add Extent :=
  ⟨fun a b => if 0 < b.row then ⟨a.row + b.row, b.column⟩ else ⟨a.row, a.column + b.column⟩⟩

/-- What is left of an extent behind a prefix of it. -/
instance : Sub Extent :=
  ⟨fun a b => if b.row < a.row then ⟨a.row - b.row, a.column⟩ else ⟨0, a.column - b.column⟩⟩

@[simp] theorem row_zero : (0 : Extent).row = 0 := rfl

@[simp] theorem column_zero : (0 : Extent).column = 0 := rfl

theorem add_def (a b : Extent) :
    a + b = if 0 < b.row then ⟨a.row + b.row, b.column⟩ else ⟨a.row, a.column + b.column⟩ := rfl

theorem sub_def (a b : Extent) :
    a - b = if b.row < a.row then ⟨a.row - b.row, a.column⟩ else ⟨0, a.column - b.column⟩ := rfl

/-- Rows add up. -/
@[simp] theorem row_add (a b : Extent) : (a + b).row = a.row + b.row := by
  rw [add_def]
  split
  · rfl
  · next h => simp only; omega

theorem column_add (a b : Extent) :
    (a + b).column = if 0 < b.row then b.column else a.column + b.column := by
  rw [add_def]
  split <;> rfl

instance : AddMonoid Extent where
  add_assoc a b c := by
    ext
    · simp only [row_add]
      omega
    · simp only [column_add, row_add]
      repeat' split
      all_goals omega
  zero_add a := by
    ext
    · rw [row_add, row_zero, Nat.zero_add]
    · rw [column_add, column_zero, Nat.zero_add, ite_self]
  add_zero a := by
    ext
    · rw [row_add, row_zero, Nat.add_zero]
    · rw [column_add, row_zero, if_neg (Nat.lt_irrefl 0), column_zero, Nat.add_zero]
  nsmul := nsmulRec

/-- **Subtracting a prefix** leaves what is behind it. -/
theorem add_sub_cancel_left (a b : Extent) : a + b - a = b := by
  rw [sub_def, row_add, column_add]
  by_cases h : 0 < b.row
  · rw [if_pos (by omega), if_pos h, Nat.add_sub_cancel_left]
  · have hrow : b.row = 0 := Nat.eq_zero_of_not_pos h
    rw [if_neg (by omega), if_neg h, Nat.add_sub_cancel_left]
    ext
    · exact hrow.symm
    · rfl

/-! ## The order of prefixes -/

/-- The rows and columns of an extent, in lexicographic order. -/
def lex (a : Extent) : ℕ ×ₗ ℕ := toLex (a.row, a.column)

theorem lex_injective : Function.Injective lex := fun a b h => by
  rw [lex, lex, toLex_inj, Prod.mk.injEq] at h
  exact Extent.ext h.1 h.2

/-- Extents are ordered by their rows, and then by their columns. -/
instance : LinearOrder Extent := LinearOrder.lift' lex lex_injective

theorem lt_iff {a b : Extent} : a < b ↔ a.row < b.row ∨ a.row = b.row ∧ a.column < b.column :=
  Prod.Lex.toLex_lt_toLex

theorem le_iff {a b : Extent} : a ≤ b ↔ a.row < b.row ∨ a.row = b.row ∧ a.column ≤ b.column :=
  Prod.Lex.toLex_le_toLex

/-- A prefix does not extend beyond the text. -/
theorem le_add_right (a b : Extent) : a ≤ a + b := by
  rw [le_iff, row_add, column_add]
  split <;> omega

/-! ## Extents of texts -/

/-- What the symbols of a text contribute to its extent. -/
structure Ruler (α : Type u) where
  /-- Whether a symbol ends a row. -/
  newline : α → Bool
  /-- The number of columns that any other symbol takes. -/
  columns : α → ℕ

namespace Ruler

variable {α : Type u} (ruler : Ruler α)

/-- The extent of one symbol. -/
def step (a : α) : Extent := if ruler.newline a then ⟨1, 0⟩ else ⟨0, ruler.columns a⟩

/-- The extent of a text. -/
def extent (text : List α) : Extent := (text.map ruler.step).sum

@[simp] theorem extent_nil : ruler.extent [] = 0 := rfl

@[simp] theorem extent_cons (a : α) (text : List α) :
    ruler.extent (a :: text) = ruler.step a + ruler.extent text := List.sum_cons

/-- The extent of a text in two pieces is the sum of the pieces' extents. -/
@[simp] theorem extent_append (front back : List α) :
    ruler.extent (front ++ back) = ruler.extent front + ruler.extent back := by
  rw [extent, List.map_append, List.sum_append, extent, extent]

/-- **Text behind a prefix**: its extent is what is left of the whole. -/
theorem extent_append_sub (front back : List α) :
    ruler.extent (front ++ back) - ruler.extent front = ruler.extent back := by
  rw [extent_append, add_sub_cancel_left]

/-- A text has no more rows and columns than its size, when no symbol is smaller than its columns and
every row end has a size. -/
theorem extent_le {size : α → ℕ} (hpos : ∀ a, 0 < size a) (hcolumns : ∀ a, ruler.columns a ≤ size a)
    (text : List α) :
    (ruler.extent text).row + (ruler.extent text).column ≤ (text.map size).sum := by
  induction text with
  | nil => exact Nat.le_refl 0
  | cons a text ih =>
      have hstep : (ruler.step a).row + (ruler.step a).column ≤ size a := by
        rw [step]
        split
        · exact hpos a
        · simpa using hcolumns a
      rw [extent_cons, List.map_cons, List.sum_cons, row_add, column_add]
      split <;> omega

end Ruler

end Extent
