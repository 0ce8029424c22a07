import Mathlib.Data.List.Count
import Mathlib.Logic.Function.Basic

/-! # Memo tables

A memo table answers a query from an entry it stored, and computes and stores one on a miss. The
table is *transparent* for a sequence of queries when nobody can tell it from recomputing every
answer. It is so exactly when reading back the entry of every repeated query gives the computed
answer. -/

universe u v w

/-- What a memo table computes, stores and reads back. -/
structure Memo (κ : Type u) (ε : Type v) (ρ : Type w) where
  /-- The answer computed on a miss. -/
  fresh : κ → ρ
  /-- The entry a miss stores. -/
  entry : κ → ε
  /-- The answer read back from an entry on a hit. -/
  readBack : ε → ρ

namespace Memo

variable {κ : Type u} {ε : Type v} {ρ : Type w} [DecidableEq κ] (m : Memo κ ε ρ)

/-- Answer one query: read the stored entry back, or compute the answer and store an entry. -/
def query (table : κ → Option ε) (key : κ) : ρ × (κ → Option ε) :=
  match table key with
  | some e => (m.readBack e, table)
  | none => (m.fresh key, Function.update table key (some (m.entry key)))

/-- The answers to a sequence of queries. -/
def answers : (κ → Option ε) → List κ → List ρ
  | _, [] => []
  | table, key :: keys => (m.query table key).1 :: answers (m.query table key).2 keys

/-- Every stored entry is the one a miss on its key would store. -/
def Consistent (table : κ → Option ε) : Prop := ∀ key e, table key = some e → e = m.entry key

variable {m}

/-- A hit reads its entry back and leaves the table alone. -/
theorem query_of_hit {table : κ → Option ε} {key : κ} {e : ε} (h : table key = some e) :
    m.query table key = (m.readBack e, table) := by
  rw [query, h]

/-- A miss computes its answer and stores an entry. -/
theorem query_of_miss {table : κ → Option ε} {key : κ} (h : table key = none) :
    m.query table key = (m.fresh key, Function.update table key (some (m.entry key))) := by
  rw [query, h]

omit [DecidableEq κ] in
/-- The empty table is consistent. -/
theorem consistent_empty : m.Consistent fun _ => none := fun _ _ h => absurd h (by simp)

/-- A query keeps the table consistent. -/
theorem Consistent.query {table : κ → Option ε} (h : m.Consistent table) (key : κ) :
    m.Consistent (m.query table key).2 := by
  cases hkey : table key with
  | some e => rwa [query_of_hit hkey]
  | none =>
      rw [query_of_miss hkey]
      intro other e he
      simp only at he
      by_cases heq : other = key
      · subst heq
        rw [Function.update_self, Option.some.injEq] at he
        exact he.symm
      · rw [Function.update_of_ne heq] at he
        exact h other e he

/-- **Transparency.** From a consistent table all answers are the computed ones exactly when every
key that is in the table already or is asked twice reads back as computed. -/
theorem answers_eq_map_iff {table : κ → Option ε} (h : m.Consistent table) {keys : List κ} :
    m.answers table keys = keys.map m.fresh ↔
      ∀ key ∈ keys, (table key ≠ none ∨ 1 < keys.count key) →
        m.readBack (m.entry key) = m.fresh key := by
  induction keys generalizing table with
  | nil => exact iff_of_true rfl fun key hkey => absurd hkey List.not_mem_nil
  | cons key keys ih =>
      rw [answers, List.map_cons, List.cons.injEq, ih (h.query key)]
      cases hkey : table key with
      | some e =>
          -- a hit: the entry in the table is the one of the key, and the table stays
          have he : e = m.entry key := h key e hkey
          rw [query_of_hit hkey]
          constructor
          · rintro ⟨hhead, htail⟩ other hmem hother
            by_cases heq : other = key
            · rw [heq, ← he]; exact hhead
            · refine htail other ((List.mem_cons.mp hmem).resolve_left heq) ?_
              rwa [List.count_cons_of_ne (Ne.symm heq)] at hother
          · intro hall
            have hhead := hall key List.mem_cons_self (Or.inl (by simp [hkey]))
            refine ⟨he ▸ hhead, ?_⟩
            intro other hmem hother
            apply hall other (List.mem_cons_of_mem key hmem)
            apply hother.imp_right
            intro hcount
            exact Nat.lt_of_lt_of_le hcount List.count_le_count_cons
      | none =>
          -- a miss: the answer is right, and the key is in the table from now on
          rw [query_of_miss hkey]
          simp only [true_and]
          constructor
          · intro htail other hmem hother
            by_cases heq : other = key
            · -- the key is asked again behind its miss, which has put it into the table
              subst heq
              have hcount := hother.resolve_left (not_not_intro hkey)
              rw [List.count_cons_self] at hcount
              have hmem' : other ∈ keys := List.count_pos_iff.mp (Nat.lt_of_succ_lt_succ hcount)
              exact htail other hmem' (Or.inl (by simp))
            · refine htail other ((List.mem_cons.mp hmem).resolve_left heq) ?_
              rwa [Function.update_of_ne heq, ← List.count_cons_of_ne (Ne.symm heq)]
          · intro hall other hmem hother
            by_cases heq : other = key
            · subst heq
              refine hall other (List.mem_cons_of_mem _ hmem) (Or.inr ?_)
              rw [List.count_cons_self]
              exact Nat.succ_lt_succ (List.count_pos_iff.mpr hmem)
            · refine hall other (List.mem_cons_of_mem _ hmem) ?_
              rwa [Function.update_of_ne heq, ← List.count_cons_of_ne (Ne.symm heq)] at hother

end Memo
