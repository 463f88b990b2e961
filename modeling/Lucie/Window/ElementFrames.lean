import Lucie.Window.ElementStates

/-!
# The frames of one element

An element that is drawn in every frame finds the state that it returned in the frame before. Once
it has been left out of a frame it starts anew.
-/

set_option autoImplicit false

namespace Lucie.Drawing.StateWindow

variable {K V : Type} [DecidableEq K]

/-- A window between two frames. -/
structure Idle (w : StateWindow K V) : Prop where
  nextFrame : w.nextFrame = .new
  running : w.running = []

/-- A frame in which an element returns a state. -/
def drawWith (w : StateWindow K V) (key : K) (value : V) : Option (StateWindow K V) := do
  let w ← (w.enter key).leave value
  w.draw

variable {w : StateWindow K V}

omit [DecidableEq K] in
theorem idle_new : (new : StateWindow K V).Idle := ⟨rfl, rfl⟩

/-- The state that was returned is there in the next frame. -/
theorem Idle.drawWith (h : w.Idle) (key : K) (value : V) :
    ∃ w', w.drawWith key value = some w' ∧ w'.Idle ∧ w'.elementState key = some value := by
  obtain ⟨hnext, hrunning⟩ := h
  have htaken : (w.enter key).renderedFrame.elementStates key = none := by
    simp only [enter, hnext]
    exact Function.update_self ..
  set left : StateWindow K V := { w.enter key with
    nextFrame := { (w.enter key).nextFrame with
      elementStates := Function.update (w.enter key).nextFrame.elementStates key (some value) }
    running := w.running } with hleft
  have hleave : (w.enter key).leave value = some left := rfl
  have hdraw : left.draw = some ⟨.new, (left.nextFrame.finish left.renderedFrame).1, []⟩ :=
    if_pos hrunning
  refine ⟨⟨.new, (left.nextFrame.finish left.renderedFrame).1, []⟩, ?_, ⟨rfl, rfl⟩, ?_⟩
  · rw [StateWindow.drawWith, hleave]
    exact hdraw
  · have haccessed : key ∈ left.nextFrame.accessedElementStates := by simp [hleft, enter]
    have hkept : left.nextFrame.elementStates key = some value := Function.update_self ..
    have hgone : left.renderedFrame.elementStates key = none := htaken
    rw [elementState, StateFrame.elementStates_finish, if_pos haccessed, hkept, hgone]
    rfl

/-- The state of an element that was left out is gone. -/
theorem Idle.draw (h : w.Idle) (key : K) :
    ∃ w', w.draw = some w' ∧ w'.Idle ∧ w'.elementState key = none := by
  refine ⟨⟨.new, (w.nextFrame.finish w.renderedFrame).1, []⟩, if_pos h.running, ⟨rfl, rfl⟩, ?_⟩
  rw [elementState, StateFrame.elementStates_finish, h.nextFrame]
  rfl

end Lucie.Drawing.StateWindow
