import Mathlib.Data.Nat.Basic
import Mathlib.Tactic.Common

/-!
# Loops that may panic

A `while` loop with early exit, over an arbitrary state. The body either goes on
with a new state, leaves the loop with a result, or panics (`none`). Fuel bounds
the number of rounds, so a result also says that the loop terminates. The rule
proved here combines an invariant with a decreasing measure.
-/

set_option autoImplicit false

namespace Lucie.Foundation

variable {σ ρ : Type*}

/-- The outcome of one round of a loop. -/
inductive Round (σ : Type*) (ρ : Type*)
  /-- Go round again with a new state. -/
  | next (s : σ)
  /-- Leave the loop. -/
  | done (r : ρ)

/-- Run a loop body for at most `fuel` rounds. -/
def loop (body : σ → Option (Round σ ρ)) : ℕ → σ → Option ρ
  | 0, _ => none
  | fuel + 1, s =>
    match body s with
    | none => none
    | some (.next s') => loop body fuel s'
    | some (.done r) => some r

/-- What a round leaves, whether the loop goes on or not. -/
def Round.Leaves (Inv : σ → Prop) (Post : ρ → Prop) : Round σ ρ → Prop
  | .next s => Inv s
  | .done r => Post r

/-- The states between the rounds of a loop. -/
inductive Rounds (body : σ → Option (Round σ ρ)) (s : σ) : σ → Prop
  | refl : Rounds body s s
  | next {s' s'' : σ} (hrounds : Rounds body s s') (hround : body s' = some (.next s'')) :
      Rounds body s s''

/-- What every round keeps holds between all rounds. -/
theorem Rounds.invariant {body : σ → Option (Round σ ρ)} {Inv : σ → Prop} {Post : ρ → Prop}
    (hbody : ∀ s round, Inv s → body s = some round → round.Leaves Inv Post) {s s' : σ}
    (hs : Inv s) (hrounds : Rounds body s s') : Inv s' := by
  induction hrounds with
  | refl => exact hs
  | next _ hround ih => exact hbody _ _ ih hround

/-- A loop can start from another state whose first round is the same. -/
theorem loop_congr {body : σ → Option (Round σ ρ)} {s s' : σ} (h : body s = body s') (fuel : ℕ) :
    loop body fuel s = loop body fuel s' := by
  cases fuel with
  | zero => rfl
  | succ fuel => rw [loop, loop, h]

/-- What a round owes to an invariant, a measure and a postcondition: no panic,
and either the invariant again with a smaller measure, or the postcondition. -/
def Advances (Inv : σ → Prop) (measure : σ → ℕ) (Post : ρ → Prop) (m : ℕ) :
    Option (Round σ ρ) → Prop
  | none => False
  | some (.next s) => Inv s ∧ measure s < m
  | some (.done r) => Post r

/-- Total correctness of a loop: if every round from a state of the invariant
advances, the loop returns a result of the postcondition. -/
theorem loop_of_advances {body : σ → Option (Round σ ρ)} (Inv : σ → Prop)
    (measure : σ → ℕ) {Post : ρ → Prop}
    (hbody : ∀ s, Inv s → Advances Inv measure Post (measure s) (body s))
    {fuel : ℕ} {s : σ} (hs : Inv s) (hfuel : measure s < fuel) :
    ∃ r, loop body fuel s = some r ∧ Post r := by
  induction fuel generalizing s with
  | zero => omega
  | succ fuel ih =>
    have h := hbody s hs
    unfold loop
    cases hround : body s with
    | none => simp only [hround, Advances] at h
    | some round =>
      rw [hround] at h
      cases round with
      | next s' => exact ih h.1 (by have := h.2; omega)
      | done r => exact ⟨r, rfl, h⟩

/-- Partial correctness of a loop: a result has what every round that does not panic keeps. -/
theorem of_loop_eq_some {body : σ → Option (Round σ ρ)} (Inv : σ → Prop) (Post : ρ → Prop)
    (hnext : ∀ s s', Inv s → body s = some (.next s') → Inv s')
    (hdone : ∀ s r, Inv s → body s = some (.done r) → Post r)
    {fuel : ℕ} {s : σ} {r : ρ} (hs : Inv s) (h : loop body fuel s = some r) : Post r := by
  induction fuel generalizing s with
  | zero => simp [loop] at h
  | succ fuel ih =>
    unfold loop at h
    cases hround : body s with
    | none => simp [hround] at h
    | some round =>
      rw [hround] at h
      cases round with
      | next s' => exact ih (hnext s s' hs hround) h
      | done r' =>
        obtain rfl : r' = r := Option.some.inj h
        exact hdone s r' hs hround

/-- Partial correctness of a loop, from what its rounds leave. -/
theorem loop_leaves {body : σ → Option (Round σ ρ)} {Inv : σ → Prop} {Post : ρ → Prop}
    (hbody : ∀ s round, Inv s → body s = some round → round.Leaves Inv Post) {fuel : ℕ} {s : σ}
    {r : ρ} (hs : Inv s) (h : loop body fuel s = some r) : Post r :=
  of_loop_eq_some Inv Post (fun s s' hs hround => hbody s (.next s') hs hround)
    (fun s r hs hround => hbody s (.done r) hs hround) hs h

end Lucie.Foundation
