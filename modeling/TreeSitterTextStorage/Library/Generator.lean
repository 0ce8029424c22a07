import Mathlib.Logic.Function.Iterate

/-! # Generators

A *generator* is a function `next : σ → Option ο × σ` on states: a call returns an element or nothing
and leaves a state for the next call. This file defines what the calls return one after another, and
the two rules by which facts about one call become facts about all of them. -/

namespace Generator

universe u v w x

variable {σ : Type u} {τ : Type v} {ο : Type w} {π : Type x}

/-- The state after a number of calls. -/
def after (next : σ → Option ο × σ) (state : σ) (calls : ℕ) : σ :=
  (fun state => (next state).2)^[calls] state

/-- What a call returns after a number of earlier calls. -/
def call (next : σ → Option ο × σ) (state : σ) (calls : ℕ) : Option ο :=
  (next (after next state calls)).1

variable {next : σ → Option ο × σ} {next' : τ → Option π × τ}

/-- The first call. -/
@[simp] theorem call_zero (state : σ) : call next state 0 = (next state).1 := rfl

/-- The first of several calls leaves a state for the others. -/
theorem call_succ (state : σ) (calls : ℕ) :
    call next state (calls + 1) = call next (next state).2 calls := by
  rw [call, after, Function.iterate_succ_apply]
  rfl

/-- **End rule.** A generator that stays in its state when it returns nothing returns nothing from then
on. -/
theorem call_eq_none_of_le (hstay : ∀ state, (next state).1 = none → (next state).2 = state)
    {state : σ} {m n : ℕ} (hmn : m ≤ n) (h : call next state m = none) :
    call next state n = none := by
  induction hmn with
  | refl => exact h
  | @step n _ ih =>
      -- the call before has left the state as it was
      have hsame : after next state (n + 1) = after next state n :=
        (Function.iterate_succ_apply' _ n state).trans (hstay _ ih)
      rw [call, hsame]
      exact ih

/-- **Simulation rule.** When related states return related elements and lead to related states, all
calls return related elements. -/
theorem call_eq_map {Related : σ → τ → Prop} (f : π → ο)
    (hstep : ∀ s t, Related s t → (next s).1 = (next' t).1.map f ∧ Related (next s).2 (next' t).2)
    {s : σ} {t : τ} (h : Related s t) (calls : ℕ) :
    call next s calls = (call next' t calls).map f := by
  induction calls generalizing s t with
  | zero => exact (hstep s t h).1
  | succ calls ih =>
      rw [call_succ, call_succ]
      exact ih (hstep s t h).2

end Generator
