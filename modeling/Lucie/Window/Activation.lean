import Lucie.Foundation.Exact
import Lucie.Window.DispatchTree

/-!
# Focus and activation

A window without activation has no focus: the focus is put aside when the window is deactivated,
and restored when it is activated. What is restored is not what was asked for last when a request
for the focus comes while something is put aside, or when the window is deactivated once more.
-/

set_option autoImplicit false

namespace Lucie

open Foundation Drawing

/-- The fields of `Window` for the focus. -/
structure WindowFocus where
  focus : Option FocusId
  focusBeforeDeactivation : Option FocusId
  focusEnabled : Bool
  active : Bool
  deriving DecidableEq

namespace WindowFocus

/-- The fields after `Window::new`. -/
def new (active : Bool) : WindowFocus := ⟨none, none, true, active⟩

/-- `Window::focus`. -/
def setFocus (window : WindowFocus) (handle : FocusId) : WindowFocus :=
  if !window.focusEnabled ∨ window.focus = some handle then window
  else { window with focus := some handle }

/-- `Window::blur`. -/
def blur (window : WindowFocus) : WindowFocus :=
  if !window.focusEnabled then window else { window with focus := none }

/-- `Window::disable_focus`. -/
def disableFocus (window : WindowFocus) : WindowFocus :=
  { window.blur with focusEnabled := false }

/-- The callback of `on_active_status_change`. -/
def onActiveStatusChange (window : WindowFocus) (active : Bool) : WindowFocus :=
  let window :=
    if active then
      match window.focusBeforeDeactivation with
      | some focusId => { window with focus := some focusId, focusBeforeDeactivation := none }
      | none => window
    else { window with focus := none, focusBeforeDeactivation := window.focus }
  { window with active }

theorem setFocus_of_enabled {window : WindowFocus} (h : window.focusEnabled = true)
    (handle : FocusId) : window.setFocus handle = { window with focus := some handle } := by
  rw [setFocus]
  split_ifs with hsame
  · rcases hsame with hdisabled | hsame
    · simp [h] at hdisabled
    · rw [← hsame]
  · rfl

theorem blur_of_enabled {window : WindowFocus} (h : window.focusEnabled = true) :
    window.blur = { window with focus := none } := by
  rw [blur, h]
  rfl

/-- A window without the focus enabled keeps it as it is. -/
theorem of_not_enabled {window : WindowFocus} (h : window.focusEnabled = false)
    (handle : FocusId) : window.setFocus handle = window ∧ window.blur = window := by
  simp [setFocus, blur, h]

/-- What would have the focus if the window was activated. -/
def restored (window : WindowFocus) : Option FocusId := (window.onActiveStatusChange true).focus

theorem restored_eq (window : WindowFocus) :
    window.restored = window.focusBeforeDeactivation.or window.focus := by
  cases h : window.focusBeforeDeactivation <;> simp [restored, onActiveStatusChange, h]

end WindowFocus

/-- What happens to the focus of a window. -/
inductive FocusAction
  | focus (handle : FocusId)
  | blur
  | disableFocus
  | activeStatusChange (active : Bool)
  deriving DecidableEq

/-- A window with what the last request asked for that it accepted. -/
structure FocusRun where
  window : WindowFocus
  requested : Option FocusId

namespace FocusRun

/-- A new window. -/
def new (active : Bool) : FocusRun := ⟨.new active, none⟩

/-- One event. A request is accepted as long as the focus is enabled. -/
def step (s : FocusRun) : FocusAction → Option FocusRun
  | .focus handle => some {
      window := s.window.setFocus handle
      requested := if s.window.focusEnabled then some handle else s.requested }
  | .blur => some {
      window := s.window.blur
      requested := if s.window.focusEnabled then none else s.requested }
  | .disableFocus => some {
      window := s.window.disableFocus
      requested := if s.window.focusEnabled then none else s.requested }
  | .activeStatusChange active =>
    some { s with window := s.window.onActiveStatusChange active }

/-- An activation gives the focus to what was requested last. -/
def Restores (s : FocusRun) : Prop := (s.window.onActiveStatusChange true).focus = s.requested

/-- Nothing that is put aside stands in the way of the event: there is nothing, or it is what is
requested or focused in any case. -/
def Undisturbed (s : FocusRun) : FocusAction → Prop
  | .focus handle => s.window.focusEnabled = true →
      s.window.focusBeforeDeactivation = none ∨ s.window.focusBeforeDeactivation = some handle
  | .blur | .disableFocus =>
      s.window.focusEnabled = true → s.window.focusBeforeDeactivation = none
  | .activeStatusChange active => active = false →
      s.window.focusBeforeDeactivation = none ∨
        s.window.focusBeforeDeactivation = s.window.focus

instance (s : FocusRun) : Decidable s.Restores := inferInstanceAs (Decidable (_ = _))

theorem restores_iff (s : FocusRun) :
    s.Restores ↔ s.window.focusBeforeDeactivation.or s.window.focus = s.requested := by
  rw [Restores, ← WindowFocus.restored, WindowFocus.restored_eq]

/-- An event keeps what was requested last exactly when it is not disturbed. -/
theorem restores_step_iff {s s' : FocusRun} {a : FocusAction} (h : s.Restores)
    (hstep : s.step a = some s') : s'.Restores ↔ s.Undisturbed a := by
  rw [restores_iff] at h ⊢
  cases a with
  | focus handle =>
    cases hstep
    cases henabled : s.window.focusEnabled with
    | false =>
      rw [(WindowFocus.of_not_enabled henabled handle).1]
      simpa [Undisturbed, henabled] using h
    | true =>
      rw [WindowFocus.setFocus_of_enabled henabled]
      cases hstash : s.window.focusBeforeDeactivation <;> simp [Undisturbed, henabled, hstash]
  | blur =>
    cases hstep
    cases henabled : s.window.focusEnabled with
    | false =>
      rw [(WindowFocus.of_not_enabled henabled 0).2]
      simpa [Undisturbed, henabled] using h
    | true =>
      rw [WindowFocus.blur_of_enabled henabled]
      simp [Undisturbed, henabled]
  | disableFocus =>
    cases hstep
    cases henabled : s.window.focusEnabled with
    | false =>
      rw [WindowFocus.disableFocus, (WindowFocus.of_not_enabled henabled 0).2]
      simpa [Undisturbed, henabled] using h
    | true =>
      rw [WindowFocus.disableFocus, WindowFocus.blur_of_enabled henabled]
      simp [Undisturbed, henabled]
  | activeStatusChange active =>
    cases hstep
    cases active with
    | true =>
      -- what is put aside is restored, and nothing is put aside any more
      have hundisturbed : s.Undisturbed (.activeStatusChange true) := fun hfalse => by cases hfalse
      refine iff_of_true ?_ hundisturbed
      cases hstash : s.window.focusBeforeDeactivation with
      | none => simpa [WindowFocus.onActiveStatusChange, hstash] using h
      | some focusId => simpa [WindowFocus.onActiveStatusChange, hstash] using h
    | false =>
      cases hstash : s.window.focusBeforeDeactivation with
      | none =>
        rw [hstash] at h
        simpa [WindowFocus.onActiveStatusChange, Undisturbed, hstash] using h
      | some focusId =>
        rw [hstash] at h
        have hrequested : s.requested = some focusId := h.symm
        simp [WindowFocus.onActiveStatusChange, Undisturbed, hstash, hrequested, eq_comm]

/-- In a run on a new window an activation restores what was requested last in every state exactly
when nothing that is put aside stands in the way of an event. -/
theorem allStates_restores_iff (active : Bool) (actions : List FocusAction) :
    AllStates step Restores (new active) actions ↔
      AllSteps step Undisturbed (new active) actions := by
  refine allStates_iff_allSteps (fun _ => True) (fun _ _ _ _ _ => trivial) ?_ trivial ?_ actions
  · intro s a s' _ h hstep
    exact restores_step_iff h hstep
  · rw [restores_iff]
    rfl

/-- A request in an inactive window is overridden by the activation, a second deactivation loses
what was put aside, and a window whose focus was disabled is focused again. -/
theorem not_allStates_restores :
    ¬AllStates step Restores (new true)
        [.focus 1, .activeStatusChange false, .focus 2, .activeStatusChange true] ∧
      ¬AllStates step Restores (new true)
        [.focus 1, .activeStatusChange false, .activeStatusChange false,
          .activeStatusChange true] ∧
      ¬AllStates step Restores (new true)
        [.focus 1, .activeStatusChange false, .disableFocus, .activeStatusChange true] := by
  refine ⟨fun h => ?_, fun h => ?_, fun h => ?_⟩
  all_goals
    -- the state after the activation does not have what was requested
    have hlast := ((((h.2 _ rfl).2 _ rfl).2 _ rfl).2 _ rfl).head
    exact absurd hlast (by decide)

end FocusRun

end Lucie
