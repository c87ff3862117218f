import Mathlib.Data.List.Basic

/-! Finite runs of a machine whose step function may refuse an action, and the
two induction rules every development over such runs uses: an invariant kept by
the allowed steps, and an exact condition for a property to hold all along. -/

namespace Sharko.Library.Runs

variable {State Action : Type*} (step : State → Action → Option State)

def exec : State → List Action → Option State
  | state, [] => some state
  | state, action :: rest => (step state action).bind fun next => exec next rest

/-- Every action of the run is taken in a state that allows it. -/
def Guarded (allowed : State → Action → Prop) : State → List Action → Prop
  | _, [] => True
  | state, action :: rest =>
    allowed state action ∧ ∀ next, step state action = some next → Guarded allowed next rest

/-- The property holds in every state the run goes through, both ends included. -/
def Always (property : State → Prop) : State → List Action → Prop
  | state, [] => property state
  | state, action :: rest =>
    property state ∧ ∀ next, step state action = some next → Always property next rest

@[simp] theorem exec_nil (state : State) : exec step state [] = some state := rfl

theorem exec_cons (state : State) (action : Action) (rest : List Action) :
    exec step state (action :: rest) = (step state action).bind fun next => exec step next rest := rfl

theorem exec_cons_success {state final : State} {action : Action} {rest : List Action}
    (ran : exec step state (action :: rest) = some final) :
    ∃ next, step state action = some next ∧ exec step next rest = some final :=
  Option.bind_eq_some_iff.mp ran

theorem exec_append (state : State) (first second : List Action) : exec step state (first ++ second) =
      (exec step state first).bind fun middle => exec step middle second := by
  induction first generalizing state with
  | nil => rfl
  | cons action rest ih =>
    cases taken : step state action with
    | none => simp [exec_cons,taken]
    | some next => simp [exec_cons,taken,ih]

theorem exec_append_success {state final : State} {first second : List Action}
    (ran : exec step state (first ++ second) = some final) :
    ∃ middle, exec step state first = some middle ∧ exec step middle second = some final := by
  rw [exec_append] at ran
  exact Option.bind_eq_some_iff.mp ran

theorem exec_preserves {allowed : State → Action → Prop} {invariant : State → Prop}
    (kept : ∀ state action next, invariant state → allowed state action →
      step state action = some next → invariant next)
    {actions : List Action} {state final : State} (start : invariant state)
    (guarded : Guarded step allowed state actions)
    (ran : exec step state actions = some final) : invariant final := by
  induction actions generalizing state with
  | nil =>
    cases ran
    exact start
  | cons action rest ih =>
    obtain ⟨next,taken,after⟩ := exec_cons_success step ran
    exact ih (kept state action next start guarded.1 taken) (guarded.2 next taken) after

theorem guarded_append {allowed : State → Action → Prop} {first second : List Action}
    {state middle : State} (guarded : Guarded step allowed state (first ++ second))
    (ran : exec step state first = some middle) :
    Guarded step allowed state first ∧ Guarded step allowed middle second := by
  induction first generalizing state with
  | nil =>
    cases ran
    exact ⟨trivial,guarded⟩
  | cons action rest ih =>
    obtain ⟨next,taken,after⟩ := exec_cons_success step ran
    obtain ⟨front,back⟩ := ih (guarded.2 next taken) after
    refine ⟨⟨guarded.1,?_⟩,back⟩
    intro other taken'
    obtain rfl := Option.some.inj (taken.symm.trans taken')
    exact front

theorem always_of_guarded {allowed : State → Action → Prop} {invariant property : State → Prop}
    (kept : ∀ state action next, invariant state → allowed state action →
      step state action = some next → invariant next) (holds : ∀ state, invariant state → property state)
    {actions : List Action} {state : State} (start : invariant state)
    (guarded : Guarded step allowed state actions) : Always step property state actions := by
  induction actions generalizing state with
  | nil => exact holds state start
  | cons action rest ih =>
    refine ⟨holds state start,?_⟩
    intro next taken
    exact ih (kept state action next start guarded.1 taken) (guarded.2 next taken)

theorem always_of_invariant {invariant property : State → Prop}
    (kept : ∀ state action next, invariant state → step state action = some next → invariant next)
    (holds : ∀ state, invariant state → property state)
    {actions : List Action} {state : State} (start : invariant state) : Always step property state actions := by
  induction actions generalizing state with
  | nil => exact holds state start
  | cons action rest ih =>
    refine ⟨holds state start,?_⟩
    intro next taken
    exact ih (kept state action next start taken)

/-- Every step of the run is related to the state it leaves. -/
def Each (related : State → Action → State → Prop) : State → List Action → Prop
  | _, [] => True
  | state, action :: rest =>
    ∀ next, step state action = some next → related state action next ∧ Each related next rest

/-- A relation that holds of every allowed step under an invariant holds of every
step of a guarded run. -/
theorem each_of_guarded {allowed : State → Action → Prop} {invariant : State → Prop}
    {related : State → Action → State → Prop}
    (kept : ∀ state action next, invariant state → allowed state action →
      step state action = some next → invariant next ∧ related state action next)
    {actions : List Action} {state : State} (start : invariant state)
    (guarded : Guarded step allowed state actions) : Each step related state actions := by
  induction actions generalizing state with
  | nil => exact trivial
  | cons action rest ih =>
    intro next taken
    obtain ⟨later,now⟩ := kept state action next start guarded.1 taken
    exact ⟨now,ih later (guarded.2 next taken)⟩

/-- When under an invariant a step is related to the state it leaves exactly if it is allowed, every
step of a run is exactly if the run is guarded. -/
theorem each_iff_guarded_keeping {allowed : State → Action → Prop} {invariant : State → Prop}
    {related : State → Action → State → Prop}
    (exactly : ∀ state action next, invariant state → step state action = some next →
      invariant next ∧ (related state action next ↔ allowed state action))
    (refused : ∀ state action, step state action = none → allowed state action)
    (actions : List Action) (state : State) (start : invariant state) :
    Each step related state actions ↔ Guarded step allowed state actions := by
  induction actions generalizing state with
  | nil => exact Iff.rfl
  | cons action rest ih =>
    constructor
    · intro each
      constructor
      · cases taken : step state action with
        | none => exact refused state action taken
        | some next => exact (exactly state action next start taken).2.mp (each next taken).1
      · intro next taken
        exact (ih next (exactly state action next start taken).1).mp (each next taken).2
    · rintro ⟨permitted,later⟩ next taken
      obtain ⟨onwards,same⟩ := exactly state action next start taken
      exact ⟨same.mpr permitted,(ih next onwards).mpr (later next taken)⟩

theorem each_iff_guarded {allowed : State → Action → Prop} {related : State → Action → State → Prop}
    (exactly : ∀ state action next, step state action = some next →
      (related state action next ↔ allowed state action))
    (refused : ∀ state action, step state action = none → allowed state action)
    (actions : List Action) (state : State) :
    Each step related state actions ↔ Guarded step allowed state actions := by
  apply each_iff_guarded_keeping step (fun state action next _ taken => ⟨trivial,?_⟩) refused
  · exact trivial
  · exact exactly state action next taken

theorem each_at {related : State → Action → State → Prop} {before after : List Action}
    {action : Action} {state middle next : State} (each : Each step related state (before ++ action :: after))
    (ran : exec step state before = some middle) (taken : step middle action = some next) :
    related middle action next := by
  induction before generalizing state with
  | nil =>
    cases ran
    exact (each next taken).1
  | cons first rest ih =>
    obtain ⟨second,moved,onwards⟩ := exec_cons_success step ran
    exact ih (each second moved).2 onwards

theorem always_final {property : State → Prop} {actions : List Action} {state final : State}
    (always : Always step property state actions)
    (ran : exec step state actions = some final) : property final := by
  induction actions generalizing state with
  | nil =>
    cases ran
    exact always
  | cons action rest ih =>
    obtain ⟨next,taken,after⟩ := exec_cons_success step ran
    exact ih (always.2 next taken) after

/-- When a step that meets the assumption keeps the property exactly if it is allowed,
the property holds all along a run of such steps exactly if all of them are allowed. -/
theorem always_iff_guarded_assuming {assumed allowed : State → Action → Prop}
    {invariant property : State → Prop}
    (kept : ∀ state action next, invariant state → property state → assumed state action →
      step state action = some next → invariant next ∧ (property next ↔ allowed state action))
    (refused : ∀ state action, step state action = none → allowed state action)
    (actions : List Action) (state : State) (start : invariant state) (holds : property state)
    (assume : Guarded step assumed state actions) :
    Always step property state actions ↔ Guarded step allowed state actions := by
  induction actions generalizing state with
  | nil => exact iff_of_true holds trivial
  | cons action rest ih =>
    cases taken : step state action with
    | none => simp [Always,Guarded,taken,holds,refused state action taken]
    | some next =>
      obtain ⟨invariantNext,exactly⟩ := kept state action next start holds assume.1 taken
      have assumeNext := assume.2 next taken
      have only : ∀ other, step state action = some other → other = next := by
        intro other taken'
        exact (Option.some.inj (taken.symm.trans taken')).symm
      constructor
      · rintro ⟨_,later⟩
        have rest' := later next taken
        have propertyNext : property next := by
          cases rest with
          | nil => exact rest'
          | cons _ _ => exact rest'.1
        refine ⟨exactly.mp propertyNext,?_⟩
        intro other taken'
        rw [only other taken']
        exact (ih next invariantNext propertyNext assumeNext).mp rest'
      · rintro ⟨permitted,later⟩
        refine ⟨holds,?_⟩
        intro other taken'
        rw [only other taken']
        exact (ih next invariantNext (exactly.mpr permitted) assumeNext).mpr (later next taken)

theorem guarded_true (state : State) (actions : List Action) :
    Guarded step (fun _ _ => True) state actions := by
  induction actions generalizing state with
  | nil => exact trivial
  | cons action rest ih => exact ⟨trivial,fun next _ => ih next⟩

theorem always_iff_guarded_unrefused {allowed : State → Action → Prop} {invariant property : State → Prop}
    (kept : ∀ state action next, invariant state → property state →
      step state action = some next → invariant next ∧ (property next ↔ allowed state action))
    (refused : ∀ state action, step state action = none → allowed state action)
    (actions : List Action) (state : State) (start : invariant state) (holds : property state) :
    Always step property state actions ↔ Guarded step allowed state actions :=
  always_iff_guarded_assuming step
    (fun state action next start holds _ taken => kept state action next start holds taken)
    refused actions state start holds (guarded_true step state actions)

theorem always_iff_guarded {allowed : State → Action → Prop} {invariant property : State → Prop}
    (kept : ∀ state action next, invariant state → property state →
      step state action = some next → invariant next ∧ (property next ↔ allowed state action))
    (total : ∀ state action, (step state action).isSome)
    (actions : List Action) (state : State) (start : invariant state) (holds : property state) :
    Always step property state actions ↔ Guarded step allowed state actions := by
  refine always_iff_guarded_unrefused step kept ?_ actions state start holds
  intro state action refused
  have taken := total state action
  rw [refused] at taken
  cases taken

instance guardedDecidable {allowed : State → Action → Prop}
    [∀ state action, Decidable (allowed state action)] :
    ∀ state actions, Decidable (Guarded step allowed state actions)
  | _,[] => isTrue trivial
  | state,action :: rest =>
    match taken : step state action with
    | none => decidable_of_iff (allowed state action) (by simp [Guarded,taken])
    | some next =>
      have : Decidable (Guarded step allowed next rest) := guardedDecidable next rest
      decidable_of_iff (allowed state action ∧ Guarded step allowed next rest) (by simp [Guarded,taken])

end Sharko.Library.Runs
