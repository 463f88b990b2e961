import Mathlib.Data.List.Basic
import Mathlib.Tactic.SplitIfs

/-!
# Dispatch of mouse events

A mouse event goes to the listeners of the rendered frame twice: in the capture phase in the order
they were painted in, and in the bubble phase in the reverse order. Once a listener stops the
propagation, no further one is called, in neither of the phases.
-/

set_option autoImplicit false

namespace Lucie.Drawing

/-- `DispatchPhase`. -/
inductive DispatchPhase
  | capture
  | bubble
  deriving DecidableEq

/-- A mouse listener, for one event. It has no result where it panics. -/
abbrev MouseListener (σ : Type) : Type := DispatchPhase → σ → Option σ

variable {σ : Type} (propagateEvent : σ → Bool)

/-- The loop over the listeners in one of the phases of `Window::dispatch_mouse_event`. -/
def dispatchPhase (phase : DispatchPhase) : List (MouseListener σ) → σ → Option σ
  | [], s => some s
  | listener :: listeners, s =>
    match listener phase s with
    | none => none
    | some s => if propagateEvent s then dispatchPhase phase listeners s else some s

/-- The two phases of `Window::dispatch_mouse_event`. -/
def dispatchMouseEvent (listeners : List (MouseListener σ)) (s : σ) : Option σ :=
  match dispatchPhase propagateEvent .capture listeners s with
  | none => none
  | some s =>
    if propagateEvent s then dispatchPhase propagateEvent .bubble listeners.reverse s else some s

variable {propagateEvent}

theorem dispatchPhase_cons {phase : DispatchPhase} {listener : MouseListener σ}
    {listeners : List (MouseListener σ)} {s s' : σ} (h : listener phase s = some s') :
    dispatchPhase propagateEvent phase (listener :: listeners) s =
      if propagateEvent s' then dispatchPhase propagateEvent phase listeners s' else some s' := by
  rw [dispatchPhase, h]

theorem dispatchPhase_cons_of_panic {phase : DispatchPhase} {listener : MouseListener σ}
    {listeners : List (MouseListener σ)} {s : σ} (h : listener phase s = none) :
    dispatchPhase propagateEvent phase (listener :: listeners) s = none := by
  rw [dispatchPhase, h]

/-- Listeners that do nothing in a state are passed over. -/
theorem dispatchPhase_append_of_idle {phase : DispatchPhase} {s : σ} (hs : propagateEvent s = true)
    {front : List (MouseListener σ)} (hfront : ∀ listener ∈ front, listener phase s = some s)
    (behind : List (MouseListener σ)) :
    dispatchPhase propagateEvent phase (front ++ behind) s =
      dispatchPhase propagateEvent phase behind s := by
  induction front with
  | nil => rfl
  | cons listener front ih =>
    obtain ⟨hlistener, hfront⟩ := List.forall_mem_cons.mp hfront
    rw [List.cons_append, dispatchPhase_cons hlistener, if_pos hs]
    exact ih hfront

/-- Where no listener does anything in the capture phase, only the bubble phase is left. -/
theorem dispatchMouseEvent_of_idle {listeners : List (MouseListener σ)} {s : σ}
    (hs : propagateEvent s = true)
    (hidle : ∀ listener ∈ listeners, listener .capture s = some s) :
    dispatchMouseEvent propagateEvent listeners s =
      dispatchPhase propagateEvent .bubble listeners.reverse s := by
  have hcapture : dispatchPhase propagateEvent .capture listeners s = some s := by
    have h := dispatchPhase_append_of_idle hs hidle []
    rwa [List.append_nil, dispatchPhase] at h
  rw [dispatchMouseEvent, hcapture]
  exact if_pos hs

end Lucie.Drawing
