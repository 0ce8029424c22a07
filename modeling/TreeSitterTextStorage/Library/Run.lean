import Mathlib.Logic.Basic

/-! # Runs of a machine that may trap

A *machine* is a step function `step : σ → ι → Option (ο × σ)`: on an input it either traps (`none`)
or produces an output and a next state. This file defines the runs of such a machine over a list of
inputs, the property that every step of a run completes and satisfies a relation, and the rules by
which facts about one step become facts about whole runs. -/

namespace Machine

universe u v w

variable {σ : Type u} {ι : Type v} {ο : Type w}

/-- The state a run ends in, or `none` when some step of it traps. -/
def run (step : σ → ι → Option (ο × σ)) : σ → List ι → Option σ
  | state, [] => some state
  | state, input :: rest => (step state input).bind fun result => run step result.2 rest

/-- Every step of the run completes and satisfies `P`, a relation between the state before the step,
the input, the output and the state after it. -/
def Always (step : σ → ι → Option (ο × σ)) (P : σ → ι → ο → σ → Prop) : σ → List ι → Prop
  | _, [] => True
  | state, input :: rest =>
      ∃ output next, step state input = some (output, next) ∧ P state input output next ∧
        Always step P next rest

/-- Every step of the run is taken from a state and on an input that satisfy `Good`. A run that
traps has no further steps, so nothing is asked of the inputs behind the trap. -/
def Throughout (step : σ → ι → Option (ο × σ)) (Good : σ → ι → Prop) : σ → List ι → Prop
  | _, [] => True
  | state, input :: rest =>
      Good state input ∧
        ∀ output next, step state input = some (output, next) → Throughout step Good next rest

variable {step : σ → ι → Option (ο × σ)} {P : σ → ι → ο → σ → Prop} {Good : σ → ι → Prop}

@[simp] theorem run_nil (state : σ) : run step state [] = some state := rfl

/-- A run on a nonempty list is its first step followed by the run on the rest. -/
theorem run_cons_eq_some {state final : σ} {input : ι} {rest : List ι} :
    run step state (input :: rest) = some final ↔
      ∃ output next, step state input = some (output, next) ∧ run step next rest = some final := by
  simp only [run, Option.bind_eq_some_iff, Prod.exists]

/-- What holds throughout a run, with the step computed. -/
theorem throughout_cons_iff {state : σ} {input : ι} {rest : List ι} :
    Throughout step Good state (input :: rest) ↔
      Good state input ∧ match step state input with
        | none => True
        | some result => Throughout step Good result.2 rest := by
  cases h : step state input with
  | none => simp [Throughout, h]
  | some result =>
      obtain ⟨output, next⟩ := result
      simp only [Throughout, h, Option.some.injEq, Prod.mk.injEq]
      exact and_congr_right fun _ =>
        ⟨fun hall => hall output next ⟨rfl, rfl⟩, fun hnext _ _ heq => heq.2 ▸ hnext⟩

instance decidableThroughout [∀ s i, Decidable (Good s i)] :
    (state : σ) → (inputs : List ι) → Decidable (Throughout step Good state inputs)
  | _, [] => inferInstanceAs (Decidable True)
  | state, input :: rest =>
      have : Decidable (match step state input with
          | none => True
          | some result => Throughout step Good result.2 rest) :=
        match step state input with
        | none => inferInstanceAs (Decidable True)
        | some result => decidableThroughout result.2 rest
      decidable_of_iff' _ throughout_cons_iff

/-! ## From one step to whole runs -/

/-- **Invariant rule.** What every step preserves holds in the state a run ends in. -/
theorem run_invariant (Inv : σ → Prop)
    (hstep : ∀ s i o s', Inv s → step s i = some (o, s') → Inv s')
    {state final : σ} {inputs : List ι} (h : Inv state) (hrun : run step state inputs = some final) :
    Inv final := by
  induction inputs generalizing state with
  | nil =>
      rw [run_nil, Option.some.injEq] at hrun
      exact hrun ▸ h
  | cons input rest ih =>
      obtain ⟨output, next, hnext, hrest⟩ := run_cons_eq_some.mp hrun
      exact ih (hstep state input output next h hnext) hrest

/-- **Guarded invariant rule.** When good steps keep the invariant, what holds of every good step
from a state of the invariant holds throughout a run all of whose steps are good. -/
theorem throughout_of_invariant {Holds : σ → ι → Prop} (Inv : σ → Prop)
    (hstep : ∀ s i o s', Inv s → Good s i → step s i = some (o, s') → Inv s')
    (hholds : ∀ s i, Inv s → Good s i → Holds s i)
    {state : σ} {inputs : List ι} (h : Inv state) (hgood : Throughout step Good state inputs) :
    Throughout step Holds state inputs := by
  induction inputs generalizing state with
  | nil => trivial
  | cons input rest ih =>
      refine ⟨hholds state input h hgood.1, ?_⟩
      intro output next hnext
      exact ih (hstep state input output next h hgood.1 hnext) (hgood.2 output next hnext)

/-- Nothing is asked of a run when nothing is asked of its steps. -/
theorem throughout_true (state : σ) (inputs : List ι) :
    Throughout step (fun _ _ => True) state inputs := by
  induction inputs generalizing state with
  | nil => trivial
  | cons input rest ih => exact ⟨trivial, fun output next _ => ih next⟩

/-- What good steps preserve holds at the end of a run all of whose steps are good. -/
theorem run_invariant_of_throughout (Inv : σ → Prop)
    (hstep : ∀ s i o s', Inv s → Good s i → step s i = some (o, s') → Inv s')
    {state final : σ} {inputs : List ι} (h : Inv state)
    (hgood : Throughout step Good state inputs) (hrun : run step state inputs = some final) :
    Inv final := by
  induction inputs generalizing state with
  | nil =>
      rw [run_nil, Option.some.injEq] at hrun
      exact hrun ▸ h
  | cons input rest ih =>
      obtain ⟨output, next, hnext, hrest⟩ := run_cons_eq_some.mp hrun
      exact ih (hstep state input output next h hgood.1 hnext) (hgood.2 output next hnext) hrest

/-- **Progress rule.** When every admissible input is answered from every state of the invariant,
with `P` and the invariant again, every run on admissible inputs completes with `P` throughout. -/
theorem always_of_progress (Inv : σ → Prop) (Ok : ι → Prop)
    (hstep : ∀ s i, Inv s → Ok i → ∃ o s', step s i = some (o, s') ∧ P s i o s' ∧ Inv s')
    {state : σ} {inputs : List ι} (h : Inv state) (hok : ∀ i ∈ inputs, Ok i) :
    Always step P state inputs := by
  induction inputs generalizing state with
  | nil => trivial
  | cons input rest ih =>
      obtain ⟨output, next, hnext, hP, hInv⟩ := hstep state input h (hok input (by simp))
      exact ⟨output, next, hnext, hP, ih hInv fun i hi => hok i (List.mem_cons_of_mem _ hi)⟩

/-- **Exact-condition rule.** When `Good` says exactly which inputs are answered with `P`, and `P`
keeps the invariant, the runs that satisfy `P` throughout are exactly the runs whose steps are all
good. -/
theorem always_iff_throughout (Inv : σ → Prop)
    (hexact : ∀ s i, Inv s → ((∃ o s', step s i = some (o, s') ∧ P s i o s') ↔ Good s i))
    (hinv : ∀ s i o s', Inv s → step s i = some (o, s') → P s i o s' → Inv s')
    {state : σ} {inputs : List ι} (h : Inv state) :
    Always step P state inputs ↔ Throughout step Good state inputs := by
  induction inputs generalizing state with
  | nil => exact Iff.rfl
  | cons input rest ih =>
      constructor
      · rintro ⟨output, next, hnext, hP, hrest⟩
        refine ⟨(hexact state input h).mp ⟨output, next, hnext, hP⟩, ?_⟩
        -- the step is a function, so the next state is the one at hand
        intro output' next' h'
        obtain ⟨-, rfl⟩ : output = output' ∧ next = next' := by
          simpa only [hnext, Option.some.injEq, Prod.mk.injEq] using h'
        exact (ih (hinv state input output next h hnext hP)).mp hrest
      · rintro ⟨hgood, hrest⟩
        obtain ⟨output, next, hnext, hP⟩ := (hexact state input h).mpr hgood
        exact ⟨output, next, hnext, hP,
          (ih (hinv state input output next h hnext hP)).mpr (hrest output next hnext)⟩

/-- When no step from a state is answered with `P`, only the empty run from it satisfies `P`
throughout. -/
theorem always_iff_eq_nil {state : σ}
    (hnever : ∀ i o s', step state i = some (o, s') → ¬ P state i o s') {inputs : List ι} :
    Always step P state inputs ↔ inputs = [] := by
  cases inputs with
  | nil => exact iff_of_true trivial rfl
  | cons input rest =>
      refine iff_of_false ?_ (List.cons_ne_nil input rest)
      rintro ⟨output, next, hnext, hP, -⟩
      exact hnever input output next hnext hP

end Machine
