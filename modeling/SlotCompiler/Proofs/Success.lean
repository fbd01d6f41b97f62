import Mathlib
import SlotCompiler.Tree.Emission

/-!
Contract: what a run says about its parts.
-/

namespace SlotCompiler

universe u

variable {ε σ α β : Type u}

theorem bind_eq_ok_iff {first} {next : α → EStateM ε σ β} {start finish value} :
    (first >>= next) start = .ok value finish ↔
      ∃ middle state, first start = .ok middle state ∧ next middle state = .ok value finish := by
  constructor
  · intro ran
    change EStateM.bind first next start = .ok value finish at ran
    unfold EStateM.bind at ran
    cases firstRan : first start with
    | ok middle state =>
      rw [firstRan] at ran
      exact ⟨middle, state, rfl, ran⟩
    | error fault state =>
      rw [firstRan] at ran
      contradiction
  · rintro ⟨middle, state, firstRan, nextRan⟩
    change EStateM.bind first next start = .ok value finish
    unfold EStateM.bind
    rw [firstRan]
    exact nextRan

theorem pure_eq_ok_iff {given value start finish} :
    (pure given : EStateM ε σ α) start = .ok value finish ↔ given = value ∧ start = finish := by
  constructor
  · intro ran
    cases ran
    exact ⟨rfl, rfl⟩
  · rintro ⟨rfl, rfl⟩
    rfl

theorem map_eq_ok_iff {step : EStateM ε σ α} {change : α → β} {start finish : σ} {value : β} :
    (change <$> step) start = .ok value finish ↔
      ∃ given, step start = .ok given finish ∧ change given = value := by
  constructor
  · intro ran
    change EStateM.map change step start = .ok value finish at ran
    unfold EStateM.map at ran
    cases stepRan : step start with
    | ok given state =>
      rw [stepRan] at ran
      cases ran
      exact ⟨given, rfl, rfl⟩
    | error fault state =>
      rw [stepRan] at ran
      contradiction
  · rintro ⟨given, stepRan, rfl⟩
    change EStateM.map change step start = .ok (change given) finish
    unfold EStateM.map
    rw [stepRan]

theorem except_bind_eq_ok_iff {first} {next : α → Except ε β} {value} :
    (first >>= next) = .ok value ↔ ∃ middle, first = .ok middle ∧ next middle = .ok value := by
  cases first with
  | error fault =>
    constructor
    · intro ran
      contradiction
    · rintro ⟨middle, impossible, _⟩
      contradiction
  | ok middle =>
    constructor
    · intro ran
      exact ⟨middle, rfl, ran⟩
    · rintro ⟨other, same, nextRan⟩
      cases same
      exact nextRan

/-! ## Success and failure -/

def endState {ε σ α : Type} : EStateM.Result ε σ α → σ
  | .ok _ state => state
  | .error _ state => state

def overState {ε σ α : Type} (change : σ → σ) : EStateM.Result ε σ α → EStateM.Result ε σ α
  | .ok value state => .ok value (change state)
  | .error fault state => .error fault (change state)

section OverState

variable {ε σ α : Type} {change : σ → σ} {result : EStateM.Result ε σ α} {later : σ}

theorem endState_overState (change : σ → σ) (result : EStateM.Result ε σ α) :
    endState (overState change result) = change (endState result) := by
  cases result <;> rfl

theorem overState_eq_ok_iff {value} :
    overState change result = .ok value later ↔
      ∃ state, result = .ok value state ∧ change state = later := by
  cases result <;> simp [overState, and_assoc]

theorem overState_eq_error_iff {fault} :
    overState change result = .error fault later ↔
      ∃ state, result = .error fault state ∧ change state = later := by
  cases result <;> simp [overState, and_assoc]

end OverState

theorem bind_eq_error_iff {ε σ α β : Type} {first} {next : α → EStateM ε σ β} {start finish fault} :
    (first >>= next) start = .error fault finish ↔
      first start = .error fault finish ∨
        ∃ middle state, first start = .ok middle state ∧
          next middle state = .error fault finish := by
  show EStateM.bind first next start = .error fault finish ↔ _
  unfold EStateM.bind
  cases first start with
  | ok middle state => simp
  | error given state => simp

end SlotCompiler
