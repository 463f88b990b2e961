import Mathlib.Data.List.Basic
import Mathlib.Tactic.SplitIfs

/-!
# Runs of a step function

A run is a list of actions that takes the initial state to a final one, where every
step also satisfies a guard on the state before it. An invariant of guarded steps holds
at the end of every run; since a prefix of a run is a run, it holds throughout.
-/

set_option autoImplicit false

namespace Lucie.Foundation

variable {σ α : Type}

/-- The actions lead from `init` to a state, and every step satisfies the guard. -/
inductive Run (step : σ → α → Option σ) (guard : σ → α → Prop) (init : σ) : List α → σ → Prop
  | nil : Run step guard init [] init
  | snoc {actions : List α} {s s' : σ} (a : α) (run : Run step guard init actions s)
      (hguard : guard s a) (hstep : step s a = some s') :
      Run step guard init (actions ++ [a]) s'

/-- An invariant that may depend on the actions so far. -/
theorem Run.invariant {step : σ → α → Option σ} {guard : σ → α → Prop} {init : σ}
    (Inv : List α → σ → Prop) (hinit : Inv [] init)
    (hstep : ∀ actions s a s', Inv actions s → guard s a → step s a = some s' →
      Inv (actions ++ [a]) s') {actions : List α} {s : σ}
    (run : Run step guard init actions s) : Inv actions s := by
  induction run with
  | nil => exact hinit
  | @snoc actions s s' a _ hguard hs ih => exact hstep actions s a s' ih hguard hs

/-- Execute a list of actions as long as they satisfy the guard. -/
def execute (step : σ → α → Option σ) (guard : σ → α → Prop) [∀ s a, Decidable (guard s a)] :
    σ → List α → Option σ
  | s, [] => some s
  | s, a :: actions =>
    if guard s a then
      match step s a with
      | none => none
      | some s' => execute step guard s' actions
    else none

/-- What executes extends a run. -/
theorem Run.append_execute {step : σ → α → Option σ} {guard : σ → α → Prop}
    [∀ s a, Decidable (guard s a)] {init s s' : σ} {before : List α}
    (run : Run step guard init before s) {actions : List α}
    (h : execute step guard s actions = some s') :
    Run step guard init (before ++ actions) s' := by
  induction actions generalizing before s with
  | nil =>
    obtain rfl := Option.some.inj h
    simpa using run
  | cons a actions ih =>
    unfold execute at h
    split_ifs at h with hguard
    cases hstep : step s a with
    | none => simp [hstep] at h
    | some next =>
      rw [hstep] at h
      have := ih (.snoc a run hguard hstep) h
      rwa [List.append_assoc, List.singleton_append] at this

/-- What executes from the initial state is a run. -/
theorem Run.of_execute {step : σ → α → Option σ} {guard : σ → α → Prop}
    [∀ s a, Decidable (guard s a)] {init s : σ} {actions : List α}
    (h : execute step guard init actions = some s) : Run step guard init actions s :=
  Run.nil.append_execute h

end Lucie.Foundation
