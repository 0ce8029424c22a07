import Mathlib.Data.List.Basic

/-! # Programs that may trap

A *program* transforms a state and may trap. A *triple* says what holds of the result and the state
behind a program that completes, when it is started in a state that satisfies the precondition; a
program that traps satisfies every triple. The rules follow the constructs of programs: sequences,
the operations on the state, passes through lists, and loops that run until they break. -/

universe u

/-- A program with a state that may trap. -/
abbrev Program (σ : Type u) (β : Type u) := StateT σ Option β

namespace Program

variable {σ τ β γ : Type u}

/-- Trapping. -/
def trap : Program σ β := fun _ => none

/-- A value that may be missing: the program traps without it. -/
def ofOption (value : Option β) : Program σ β := fun state => value.map fun b => (b, state)

/-- A program on a part of the state. -/
def zoom (get : σ → τ) (set : τ → σ → σ) (program : Program τ β) : Program σ β := fun state =>
  (program (get state)).map fun result => (result.1, set result.2 state)

/-- A program that is run on a condition. -/
def guarded (condition : Bool) (program : Program σ PUnit) : Program σ PUnit :=
  if condition then program else pure ⟨⟩

/-- A loop with variables: every round either goes on with new values of the variables or breaks
with a result. A loop that does not break within the rounds it is given traps. -/
def loop (body : γ → Program σ (γ ⊕ β)) : ℕ → γ → Program σ β
  | 0, _ => trap
  | fuel + 1, vars => body vars >>= fun
      | .inl vars => loop body fuel vars
      | .inr result => pure result

/-- A pass through a list with variables. -/
def forEach {ι : Type u} (body : ι → γ → Program σ γ) : List ι → γ → Program σ γ
  | [], vars => pure vars
  | item :: rest, vars => body item vars >>= fun vars => forEach body rest vars

/-! ## Runs that complete -/

section Run

variable {state next : σ} {result : β}

/-- A sequence completes when both of its parts do. -/
theorem bind_eq_some_iff {first : Program σ γ} {rest : γ → Program σ β} :
    (first >>= rest) state = some (result, next) ↔ ∃ value middle, first state =
    some (value, middle) ∧ rest value middle = some (result, next) := by
  constructor
  · intro h
    obtain ⟨⟨value, middle⟩, hvalue, hrest⟩ := Option.bind_eq_some_iff.mp h
    exact ⟨value, middle, hvalue, hrest⟩
  · rintro ⟨value, middle, hvalue, hrest⟩
    exact Option.bind_eq_some_iff.mpr ⟨(value, middle), hvalue, hrest⟩

theorem pure_eq_some_iff {value : β} :
    (pure value : Program σ β) state = some (result, next) ↔ value = result ∧ state = next := by
  show some (value, state) = some (result, next) ↔ _
  rw [Option.some.injEq, Prod.mk.injEq]

theorem set_eq_some_iff {value : σ} {result : PUnit} :
    (set value : Program σ PUnit) state = some (result, next) ↔ next = value := by
  show some (PUnit.unit, value) = some (result, next) ↔ _
  rw [Option.some.injEq, Prod.mk.injEq]
  exact ⟨fun h => h.2.symm, fun h => ⟨rfl, h.symm⟩⟩

theorem modify_eq_some_iff {f : σ → σ} {result : PUnit} :
    (modify f : Program σ PUnit) state = some (result, next) ↔ next = f state := by
  show some (PUnit.unit, f state) = some (result, next) ↔ _
  rw [Option.some.injEq, Prod.mk.injEq]
  exact ⟨fun h => h.2.symm, fun h => ⟨rfl, h.symm⟩⟩

theorem get_bind (rest : σ → Program σ β) (state : σ) :
    ((get : Program σ σ) >>= rest) state = rest state state := rfl

theorem set_bind (value : σ) (rest : PUnit → Program σ β) (state : σ) :
    ((set value : Program σ PUnit) >>= rest) state = rest PUnit.unit value := rfl

theorem modify_bind (f : σ → σ) (rest : PUnit → Program σ β) (state : σ) :
    ((modify f : Program σ PUnit) >>= rest) state = rest PUnit.unit (f state) := rfl

theorem ofOption_eq_some_iff {value : Option β} :
    ofOption value state = some (result, next) ↔ value = some result ∧ state = next := by
  rw [ofOption, Option.map_eq_some_iff]
  constructor
  · rintro ⟨result', hvalue, heq⟩
    obtain ⟨rfl, rfl⟩ := Prod.mk.inj heq
    exact ⟨hvalue, rfl⟩
  · rintro ⟨hvalue, rfl⟩
    exact ⟨result, hvalue, rfl⟩

theorem trap_eq_some_iff : (trap : Program σ β) state = some (result, next) ↔ False :=
  ⟨fun h => absurd h (Option.some_ne_none _).symm, False.elim⟩

end Run

/-! ## Triples -/

/-- Started in a state that satisfies `P`, a program that completes leaves a result and a state that
satisfy `Q`. -/
def Triple (P : σ → Prop) (program : Program σ β) (Q : β → σ → Prop) : Prop :=
  ∀ state result next, P state → program state = some (result, next) → Q result next

namespace Triple

variable {P : σ → Prop} {Q : β → σ → Prop}

theorem pure {result : β} (h : ∀ state, P state → Q result state) :
    Triple P (Pure.pure result) Q := by
  intro state result' next hstate hrun
  obtain ⟨rfl, rfl⟩ := Prod.mk.inj (Option.some.inj hrun)
  exact h state hstate

/-- **Sequence rule.** -/
theorem bind {first : Program σ γ} {R : γ → σ → Prop} {rest : γ → Program σ β}
    (hfirst : Triple P first R) (hrest : ∀ value, Triple (R value) (rest value) Q) :
    Triple P (first >>= rest) Q := by
  intro state result next hstate hrun
  obtain ⟨⟨value, middle⟩, hvalue, hresult⟩ := Option.bind_eq_some_iff.mp hrun
  exact hrest value middle result next (hfirst state value middle hstate hvalue) hresult

theorem trap : Triple P (Program.trap : Program σ β) Q := by
  intro state result next _ hrun
  exact absurd hrun (Option.some_ne_none _).symm

/-- **Loop rule.** What every round keeps as long as the loop goes on, and turns into the
postcondition when it breaks. -/
theorem loop {body : γ → Program σ (γ ⊕ β)} {Inv : γ → σ → Prop}
    (h : ∀ vars, Triple (Inv vars) (body vars) fun result state => match result with
      | .inl vars => Inv vars state
      | .inr result => Q result state) (fuel : ℕ) (vars : γ) :
    Triple (Inv vars) (Program.loop body fuel vars) Q := by
  induction fuel generalizing vars with
  | zero => exact Triple.trap
  | succ fuel ih =>
      rw [Program.loop]
      refine (h vars).bind fun result => ?_
      cases result with
      | inl vars => exact ih vars
      | inr result => exact Triple.pure fun state hstate => hstate

/-- **Pass rule.** What the pass through every item of a list keeps. -/
theorem forEach {ι : Type u} {body : ι → γ → Program σ γ} {Inv : γ → σ → Prop} {items : List ι}
    (h : ∀ item ∈ items, ∀ vars, Triple (Inv vars) (body item vars) Inv) (vars : γ) :
    Triple (Inv vars) (Program.forEach body items vars) Inv := by
  induction items generalizing vars with
  | nil => exact Triple.pure fun state hstate => hstate
  | cons item rest ih =>
      rw [Program.forEach]
      refine (h item List.mem_cons_self vars).bind fun vars => ?_
      exact ih (fun item hitem => h item (List.mem_cons_of_mem _ hitem)) vars

end Triple

end Program
