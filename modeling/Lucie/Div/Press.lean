import Lucie.Foundation.Exact
import Lucie.Geometry.Bounds
import Lucie.Window.MouseDispatch
import Mathlib.Algebra.Order.Ring.Rat

/-!
# Presses, clicks and drags

An element with click, auxiliary click and drag listeners remembers one press, of any button. Its
release moves the press on to the bubble phase, where the listeners are called. A move that goes
far enough starts a drag, with a listener that is there once after each paint.
-/

set_option autoImplicit false

namespace Lucie.Div

open Drawing Foundation

/-- `NavigationDirection`. -/
inductive NavigationDirection
  | back
  | forward
  deriving DecidableEq

/-- `MouseButton`. -/
inductive MouseButton
  | left
  | right
  | middle
  | navigate (direction : NavigationDirection)
  deriving DecidableEq

/-- `MouseDownEvent`. -/
structure MouseDownEvent where
  button : MouseButton
  position : Point ℚ
  deriving DecidableEq

/-- `MouseUpEvent`. -/
structure MouseUpEvent where
  button : MouseButton
  position : Point ℚ
  deriving DecidableEq

/-- The listeners of an element. It has some of each kind. -/
structure PressElement (L : Type) where
  clickListeners : List L
  auxClickListeners : List L
  clickListeners_ne_nil : clickListeners ≠ []
  auxClickListeners_ne_nil : auxClickListeners ≠ []

/-- A call of a listener. -/
inductive Fired (L : Type)
  | click (listener : L) (down : MouseDownEvent) (up : MouseUpEvent)
  | auxClick (listener : L) (down : MouseDownEvent) (up : MouseUpEvent)
  | drag (down : MouseDownEvent) (position : Point ℚ)
  deriving DecidableEq

/-- What the listeners of the element share, whether a drag is active in the application, and the
calls so far. -/
structure PressState (L : Type) where
  pendingMouseDown : Option MouseDownEvent
  capturedMouseDown : Option MouseDownEvent
  dragListener : Bool
  activeDrag : Bool
  fired : List (Fired L)
  deriving DecidableEq

/-- Which phases of an event reach the element, before another listener stops it. -/
inductive Reach
  | neither
  | capture
  | both
  deriving DecidableEq

/-- What happens to an element: an event of the mouse, with whether the element is hovered, a new
frame, or a drag that starts or ends elsewhere. -/
inductive PressAction
  | mouseDown (event : MouseDownEvent) (isHovered : Bool) (reach : Reach)
  | mouseMove (position : Point ℚ) (reach : Reach)
  | mouseUp (event : MouseUpEvent) (isHovered : Bool) (reach : Reach)
  | paint
  | dragElsewhere
  | dragEnds

/-- The distance to a position is greater than `DRAG_THRESHOLD`. -/
def beyondThreshold (p q : Point ℚ) : Prop := 2 ^ 2 < (p.x - q.x) ^ 2 + (p.y - q.y) ^ 2

instance (p q : Point ℚ) : Decidable (beyondThreshold p q) := inferInstanceAs (Decidable (_ < _))

variable {L : Type}

namespace PressElement

/-- The listeners for a click with a button. -/
def listenersFor (e : PressElement L) (down : MouseDownEvent) (up : MouseUpEvent) :
    List (Fired L) :=
  match down.button with
  | .left => e.clickListeners.map fun listener => .click listener down up
  | _ => e.auxClickListeners.map fun listener => .auxClick listener down up

/-- The listener of `MouseDownEvent`. -/
def onMouseDown (e : PressElement L) (event : MouseDownEvent) (isHovered : Bool) :
    DispatchPhase → PressState L → PressState L
  | .capture, s => s
  | .bubble, s =>
    if (event.button = .left ∨ !e.auxClickListeners.isEmpty) ∧ isHovered then
      { s with pendingMouseDown := some event }
    else s

/-- The listener of `MouseMoveEvent`. The drag listener is taken before the button is compared. -/
def onMouseMove (position : Point ℚ) : DispatchPhase → PressState L → PressState L
  | .capture, s => s
  | .bubble, s =>
    match s.pendingMouseDown with
    | none => s
    | some down =>
      if ¬s.activeDrag ∧ beyondThreshold position down.position then
        if s.dragListener then
          let s := { s with dragListener := false }
          if down.button = .left then
            { s with
              activeDrag := true
              pendingMouseDown := none
              fired := s.fired ++ [.drag down position] }
          else s
        else s
      else s

/-- The listener of `MouseUpEvent`. -/
def onMouseUp (e : PressElement L) (event : MouseUpEvent) (isHovered : Bool) :
    DispatchPhase → PressState L → PressState L
  | .capture, s =>
    if s.pendingMouseDown.isSome ∧ isHovered then
      { s with capturedMouseDown := s.pendingMouseDown, pendingMouseDown := none }
    else if s.pendingMouseDown.isSome then { s with pendingMouseDown := none }
    else s
  | .bubble, s =>
    match s.capturedMouseDown with
    | none => s
    | some down =>
      { s with
        capturedMouseDown := none
        fired := s.fired ++ e.listenersFor down event }

/-- An event reaches a listener of the element. -/
def deliver (listener : DispatchPhase → PressState L → PressState L) :
    Reach → PressState L → PressState L
  | .neither, s => s
  | .capture, s => listener .capture s
  | .both, s => listener .bubble (listener .capture s)

/-- What happens to the element. A new frame makes the listeners anew, and a release ends the
active drag after it is dispatched. -/
def apply (e : PressElement L) (s : PressState L) : PressAction → PressState L
  | .mouseDown event isHovered reach => deliver (e.onMouseDown event isHovered) reach s
  | .mouseMove position reach => deliver (onMouseMove position) reach s
  | .mouseUp event isHovered reach =>
    { deliver (e.onMouseUp event isHovered) reach s with activeDrag := false }
  | .paint => { s with capturedMouseDown := none, dragListener := true }
  | .dragElsewhere => { s with activeDrag := true }
  | .dragEnds => { s with activeDrag := false }

end PressElement

/-! ## What is to be called -/

/-- The presses over the element that are not released, each with whether a drag has started
since, and the calls that are to be made. -/
structure PressMonitor (L : Type) where
  pressed : MouseButton → Option (MouseDownEvent × Bool)
  expected : List (Fired L)

namespace PressMonitor

/-- A drag has started. -/
def drag (m : PressMonitor L) : PressMonitor L :=
  { m with pressed := fun button => (m.pressed button).map fun press => (press.1, true) }

/-- The press of a button is over. -/
def release (m : PressMonitor L) (button : MouseButton) : PressMonitor L :=
  { m with pressed := Function.update m.pressed button none }

/-- What a release calls the listeners for. -/
def clicks (m : PressMonitor L) (e : PressElement L) (event : MouseUpEvent) : List (Fired L) :=
  match m.pressed event.button with
  | some (down, false) => e.listenersFor down event
  | _ => []

/-- What a move away from a left press starts, unless a drag is active. -/
def startDrag (m : PressMonitor L) (activeDrag : Bool) (position : Point ℚ) : PressMonitor L :=
  match m.pressed .left with
  | none => m
  | some (down, _) =>
    if ¬activeDrag ∧ beyondThreshold position down.position then
      { m.drag.release .left with expected := m.expected ++ [.drag down position] }
    else m

/-- What is to happen. A press counts if it is seen over the element, and ends with the release of
its button wherever this is. -/
def apply (m : PressMonitor L) (e : PressElement L) (activeDrag : Bool) :
    PressAction → PressMonitor L
  | .mouseDown event isHovered reach =>
    if reach = .both ∧ isHovered then
      { m with pressed := Function.update m.pressed event.button (some (event, false)) }
    else m
  | .mouseMove position reach => if reach = .both then m.startDrag activeDrag position else m
  | .mouseUp event isHovered reach =>
    { m.release event.button with
      expected := m.expected ++ if reach = .both ∧ isHovered then m.clicks e event else [] }
  | .paint => m
  | .dragElsewhere => m.drag
  | .dragEnds => m

end PressMonitor

/-- An element beside what is to happen. -/
structure PressRun (L : Type) where
  code : PressState L
  monitor : PressMonitor L

namespace PressRun

/-- A freshly painted element. -/
def start : PressRun L := ⟨⟨none, none, true, false, []⟩, ⟨fun _ => none, []⟩⟩

def step (e : PressElement L) (s : PressRun L) (a : PressAction) : Option (PressRun L) :=
  some ⟨e.apply s.code a, s.monitor.apply e s.code.activeDrag a⟩

/-- The calls are those that are to be made. -/
def FiresAsPressed (s : PressRun L) : Prop := s.code.fired = s.monitor.expected

/-- What the element remembers is not mixed up: a press, or a release that it sees, is of the
button of the pending press, if there is one, and a release of this button is seen. The bubble
phase of a release has no press from an earlier one. The drag listener is there where a left press
is to start a drag, and no drag starts elsewhere while a press is pending. -/
def KeepsPresses (s : PressRun L) : PressAction → Prop
  | .mouseDown event isHovered reach => reach = .both → isHovered = true →
    ∀ down ∈ s.code.pendingMouseDown, down.button = event.button
  | .mouseMove position reach => reach = .both → s.code.activeDrag = false →
    ∀ down ∈ s.code.pendingMouseDown, down.button = .left →
      beyondThreshold position down.position → s.code.dragListener = true
  | .mouseUp event isHovered reach =>
    (∀ down ∈ s.code.pendingMouseDown, (down.button = event.button ↔ reach ≠ .neither)) ∧
      (reach = .both → s.code.capturedMouseDown = none ∨
        s.code.pendingMouseDown.isSome = true ∧ isHovered = true)
  | .paint => True
  | .dragElsewhere => s.code.pendingMouseDown = none
  | .dragEnds => True

instance [DecidableEq L] (s : PressRun L) : Decidable s.FiresAsPressed :=
  inferInstanceAs (Decidable (_ = _))

instance (s : PressRun L) : DecidablePred s.KeepsPresses
  | .mouseDown event isHovered reach => inferInstanceAs <| Decidable <| reach = .both →
    isHovered = true → ∀ down ∈ s.code.pendingMouseDown, down.button = event.button
  | .mouseMove position reach => inferInstanceAs <| Decidable <| reach = .both →
    s.code.activeDrag = false → ∀ down ∈ s.code.pendingMouseDown, down.button = .left →
      beyondThreshold position down.position → s.code.dragListener = true
  | .mouseUp event isHovered reach => inferInstanceAs <| Decidable <|
    (∀ down ∈ s.code.pendingMouseDown, (down.button = event.button ↔ reach ≠ .neither)) ∧
      (reach = .both → s.code.capturedMouseDown = none ∨
        s.code.pendingMouseDown.isSome = true ∧ isHovered = true)
  | .paint => inferInstanceAs (Decidable True)
  | .dragElsewhere => inferInstanceAs (Decidable (_ = none))
  | .dragEnds => inferInstanceAs (Decidable True)

variable {e : PressElement L} {s : PressRun L}

/-- The press that a pending press of one button is. -/
def pressOf (pending : Option MouseDownEvent) (button : MouseButton) :
    Option (MouseDownEvent × Bool) :=
  (pending.filter fun down => down.button = button).map fun down => (down, false)

/-- The pending press is the only one that is not released. -/
structure InSync (s : PressRun L) : Prop where
  pressed : s.monitor.pressed = pressOf s.code.pendingMouseDown
  fired : s.FiresAsPressed

@[simp] theorem pressOf_none : pressOf none = fun _ => none := rfl

theorem pressOf_some (down : MouseDownEvent) :
    pressOf (some down) = Function.update (fun _ => none) down.button (some (down, false)) := by
  funext button
  by_cases hbutton : down.button = button
  · subst hbutton
    rw [Function.update_self, pressOf, Option.filter_some, decide_eq_true rfl, if_pos rfl,
      Option.map_some]
  · rw [Function.update_of_ne fun h => hbutton h.symm, pressOf, Option.filter_some,
      decide_eq_false hbutton, if_neg Bool.false_ne_true, Option.map_none]

theorem InSync.start : (start : PressRun L).InSync := ⟨rfl, rfl⟩

/-- A press of the button that is pending, if any, is the only one. -/
theorem update_pressOf {pending : Option MouseDownEvent} {event : MouseDownEvent}
    (hbutton : ∀ down ∈ pending, down.button = event.button) :
    Function.update (pressOf pending) event.button (some (event, false)) =
      pressOf (some event) := by
  rw [pressOf_some]
  cases pending with
  | none => rfl
  | some down => rw [pressOf_some, hbutton down rfl, Function.update_idem]

/-- A release of the pending button leaves no press. -/
theorem release_pressOf {pending : Option MouseDownEvent} {button : MouseButton}
    (hbutton : ∀ down ∈ pending, down.button = button) :
    Function.update (pressOf pending) button none = fun _ => none := by
  cases pending with
  | none => exact Function.update_eq_self _ _
  | some down =>
    rw [pressOf_some, hbutton down rfl, Function.update_idem]
    exact Function.update_eq_self _ _

/-- A release of another button leaves the press as it is. -/
theorem release_pressOf_of_ne {pending : Option MouseDownEvent} {button : MouseButton}
    (hbutton : ∀ down ∈ pending, down.button ≠ button) :
    Function.update (pressOf pending) button none = pressOf pending := by
  have hnone : pressOf pending button = none := by
    cases pending with
    | none => rfl
    | some down => rw [pressOf_some, Function.update_of_ne (hbutton down rfl).symm]
  rw [← hnone]
  exact Function.update_eq_self _ _

/-- A drag from the only press leaves no press. -/
theorem pressed_release_drag {m : PressMonitor L} {down : MouseDownEvent}
    (h : m.pressed = pressOf (some down)) :
    (m.drag.release down.button).pressed = fun _ => none := by
  have hpressed : (m.drag.release down.button).pressed = Function.update
      (fun button => (m.pressed button).map fun press => (press.1, true)) down.button none := rfl
  rw [hpressed, h, pressOf_some]
  funext button
  by_cases hbutton : button = down.button
  · rw [hbutton, Function.update_self]
  · rw [Function.update_of_ne hbutton, Function.update_of_ne hbutton, Option.map_none]

/-- A press that is seen over the element is remembered. -/
theorem apply_mouseDown (e : PressElement L) (s : PressState L) (event : MouseDownEvent)
    (isHovered : Bool) (reach : Reach) : e.apply s (.mouseDown event isHovered reach) =
      if reach = .both ∧ isHovered = true then { s with pendingMouseDown := some event }
      else s := by
  have hlisteners : e.auxClickListeners.isEmpty = false := by
    rw [← Bool.not_eq_true, List.isEmpty_iff]
    exact e.auxClickListeners_ne_nil
  cases reach with
  | neither => rfl
  | capture => rfl
  | both =>
    simp only [PressElement.apply, PressElement.deliver, PressElement.onMouseDown, hlisteners,
      Bool.not_false, or_true, true_and]

theorem InSync.mouseDown (h : s.InSync) {event : MouseDownEvent} {isHovered : Bool}
    {reach : Reach} (hC : s.KeepsPresses (.mouseDown event isHovered reach)) :
    InSync ⟨e.apply s.code (.mouseDown event isHovered reach),
      s.monitor.apply e s.code.activeDrag (.mouseDown event isHovered reach)⟩ := by
  rw [apply_mouseDown, PressMonitor.apply]
  by_cases hseen : reach = .both ∧ isHovered = true
  · rw [if_pos hseen, if_pos hseen]
    refine ⟨?_, h.fired⟩
    rw [h.pressed]
    exact update_pressOf (hC hseen.1 hseen.2)
  · rw [if_neg hseen, if_neg hseen]
    exact h

section Move

variable {c : PressState L} {down : MouseDownEvent} {position : Point ℚ}

theorem apply_mouseMove_of_none (hpending : c.pendingMouseDown = none) :
    e.apply c (.mouseMove position .both) = c := by
  simp [PressElement.apply, PressElement.deliver, PressElement.onMouseMove, hpending]

theorem apply_mouseMove_of_near (hpending : c.pendingMouseDown = some down)
    (hnear : ¬(c.activeDrag = false ∧ beyondThreshold position down.position)) :
    e.apply c (.mouseMove position .both) = c := by
  simp only [PressElement.apply, PressElement.deliver, PressElement.onMouseMove, hpending,
    Bool.not_eq_true]
  exact if_neg hnear

theorem apply_mouseMove_of_left (hpending : c.pendingMouseDown = some down)
    (hfar : c.activeDrag = false ∧ beyondThreshold position down.position)
    (hlistener : c.dragListener = true) (hleft : down.button = .left) :
    e.apply c (.mouseMove position .both) =
      { c with
        dragListener := false
        activeDrag := true
        pendingMouseDown := none
        fired := c.fired ++ [.drag down position] } := by
  simp [PressElement.apply, PressElement.deliver, PressElement.onMouseMove, hpending, hfar.1,
    hfar.2, hlistener, hleft]

/-- The press of another button may take the drag listener away, and nothing else. -/
theorem apply_mouseMove_of_ne (e : PressElement L) (position : Point ℚ)
    (hpending : c.pendingMouseDown = some down) (hleft : down.button ≠ .left) :
    (e.apply c (.mouseMove position .both)).pendingMouseDown = c.pendingMouseDown ∧
      (e.apply c (.mouseMove position .both)).fired = c.fired := by
  simp only [PressElement.apply, PressElement.deliver, PressElement.onMouseMove, hpending,
    if_neg hleft]
  split
  · split
    · exact ⟨rfl, rfl⟩
    · exact ⟨hpending, rfl⟩
  · exact ⟨hpending, rfl⟩

end Move

/-- A move that is seen starts a drag from a left press, if the drag listener is there. -/
theorem InSync.mouseMove (h : s.InSync) {position : Point ℚ} {reach : Reach}
    (hC : s.KeepsPresses (.mouseMove position reach)) :
    InSync ⟨e.apply s.code (.mouseMove position reach),
      s.monitor.apply e s.code.activeDrag (.mouseMove position reach)⟩ := by
  cases reach with
  | neither => exact h
  | capture => exact h
  | both =>
    have hpressed := congrFun h.pressed .left
    simp only [PressMonitor.apply, if_true, PressMonitor.startDrag, Bool.not_eq_true]
    cases hpending : s.code.pendingMouseDown with
    | none =>
      rw [hpending, pressOf_none] at hpressed
      simp only [hpressed, apply_mouseMove_of_none hpending]
      exact h
    | some down =>
      by_cases hleft : down.button = .left
      · rw [hpending, pressOf_some, hleft, Function.update_self] at hpressed
        simp only [hpressed]
        by_cases hfar : s.code.activeDrag = false ∧ beyondThreshold position down.position
        · rw [if_pos hfar, apply_mouseMove_of_left hpending hfar
            (hC rfl hfar.1 down hpending hleft hfar.2) hleft]
          have hreleased := pressed_release_drag (h.pressed.trans (congrArg pressOf hpending))
          rw [hleft] at hreleased
          exact ⟨hreleased, congrArg (· ++ [Fired.drag down position]) h.fired⟩
        · rw [if_neg hfar, apply_mouseMove_of_near hpending hfar]
          exact h
      · rw [hpending, pressOf_some, Function.update_of_ne fun h => hleft h.symm] at hpressed
        obtain ⟨hpending', hfired'⟩ := apply_mouseMove_of_ne e position hpending hleft
        simp only [hpressed]
        exact ⟨h.pressed.trans (congrArg pressOf hpending'.symm), hfired'.trans h.fired⟩

section Release

variable {c : PressState L} {down : MouseDownEvent} {event : MouseUpEvent} {isHovered : Bool}

theorem apply_mouseUp_of_hovered (hpending : c.pendingMouseDown = some down) :
    e.apply c (.mouseUp event true .both) =
      { c with
        pendingMouseDown := none
        capturedMouseDown := none
        activeDrag := false
        fired := c.fired ++ e.listenersFor down event } := by
  simp [PressElement.apply, PressElement.deliver, PressElement.onMouseUp, hpending]

/-- The bubble phase of a release without a captured press calls no listener. -/
theorem apply_mouseUp_of_idle (hcaptured : c.capturedMouseDown = none)
    (hidle : ¬(c.pendingMouseDown.isSome = true ∧ isHovered = true)) :
    e.apply c (.mouseUp event isHovered .both) =
      { c with pendingMouseDown := none, activeDrag := false } := by
  simp only [PressElement.apply, PressElement.deliver, PressElement.onMouseUp, if_neg hidle]
  cases hpending : c.pendingMouseDown with
  | none => simp [hcaptured, hpending]
  | some down => simp [hcaptured]

theorem apply_mouseUp_capture (e : PressElement L) (c : PressState L) (event : MouseUpEvent)
    (isHovered : Bool) :
    (e.apply c (.mouseUp event isHovered .capture)).pendingMouseDown = none ∧
      (e.apply c (.mouseUp event isHovered .capture)).fired = c.fired := by
  simp only [PressElement.apply, PressElement.deliver, PressElement.onMouseUp]
  cases hpending : c.pendingMouseDown with
  | none => simp [hpending]
  | some down => cases isHovered <;> simp

end Release

/-- A release that is seen calls the listeners for the press of its button. -/
theorem InSync.mouseUp (h : s.InSync) {event : MouseUpEvent} {isHovered : Bool} {reach : Reach}
    (hC : s.KeepsPresses (.mouseUp event isHovered reach)) :
    InSync ⟨e.apply s.code (.mouseUp event isHovered reach),
      s.monitor.apply e s.code.activeDrag (.mouseUp event isHovered reach)⟩ := by
  obtain ⟨hbutton, hcaptured⟩ := hC
  have hrelease : Function.update s.monitor.pressed event.button none =
      Function.update (pressOf s.code.pendingMouseDown) event.button none :=
    congrArg (Function.update · event.button none) h.pressed
  simp only [PressMonitor.apply]
  cases reach with
  | neither =>
    have hne : ∀ down ∈ s.code.pendingMouseDown, down.button ≠ event.button :=
      fun down hdown heq => (hbutton down hdown).mp heq rfl
    refine ⟨hrelease.trans (release_pressOf_of_ne hne), ?_⟩
    exact h.fired.trans (List.append_nil _).symm
  | capture =>
    have heq : ∀ down ∈ s.code.pendingMouseDown, down.button = event.button :=
      fun down hdown => (hbutton down hdown).mpr (by decide)
    obtain ⟨hpending', hfired'⟩ := apply_mouseUp_capture e s.code event isHovered
    refine ⟨?_, ?_⟩
    · exact (hrelease.trans (release_pressOf heq)).trans (congrArg pressOf hpending'.symm)
    · exact (hfired'.trans h.fired).trans (List.append_nil _).symm
  | both =>
    have heq : ∀ down ∈ s.code.pendingMouseDown, down.button = event.button :=
      fun down hdown => (hbutton down hdown).mpr (by decide)
    have hreleased := hrelease.trans (release_pressOf heq)
    have hpressed := congrFun h.pressed event.button
    by_cases hclick : s.code.pendingMouseDown.isSome = true ∧ isHovered = true
    · obtain ⟨hsome, rfl⟩ := hclick
      obtain ⟨down, hdown⟩ := Option.isSome_iff_exists.mp hsome
      have hclicks : s.monitor.clicks e event = e.listenersFor down event := by
        rw [hdown, pressOf_some, heq down hdown, Function.update_self] at hpressed
        simp only [PressMonitor.clicks, hpressed]
      rw [apply_mouseUp_of_hovered hdown]
      refine ⟨hreleased, ?_⟩
      simp only [FiresAsPressed, and_self, if_true, hclicks]
      exact congrArg (· ++ e.listenersFor down event) h.fired
    · have hidle : s.code.capturedMouseDown = none := (hcaptured rfl).resolve_right hclick
      have hclicks : (if isHovered = true then s.monitor.clicks e event else []) = [] := by
        cases hpending : s.code.pendingMouseDown with
        | none =>
          rw [hpending, pressOf_none] at hpressed
          simp only [PressMonitor.clicks, hpressed, ite_self]
        | some down => exact if_neg fun hhovered => hclick ⟨by rw [hpending]; rfl, hhovered⟩
      rw [apply_mouseUp_of_idle hidle hclick]
      refine ⟨hreleased, ?_⟩
      simp only [FiresAsPressed, true_and, hclicks, List.append_nil]
      exact h.fired

/-- A step that does not mix up presses keeps the code and the calls that are to be made
together. -/
theorem InSync.step {s' : PressRun L} {a : PressAction} (h : s.InSync) (hC : s.KeepsPresses a)
    (hstep : step e s a = some s') : s'.InSync := by
  obtain rfl := Option.some.inj hstep
  cases a with
  | mouseDown event isHovered reach => exact h.mouseDown hC
  | mouseMove position reach => exact h.mouseMove hC
  | mouseUp event isHovered reach => exact h.mouseUp hC
  | paint => exact ⟨h.pressed, h.fired⟩
  | dragElsewhere =>
    refine ⟨?_, h.fired⟩
    have hnone := h.pressed.trans (congrArg pressOf hC)
    have hdrag : s.monitor.drag.pressed = fun _ => none := by
      funext button
      exact congrArg (Option.map _) (congrFun hnone button)
    exact hdrag.trans (congrArg pressOf hC.symm)
  | dragEnds => exact ⟨h.pressed, h.fired⟩

/-- An element with a click listener and an auxiliary click listener. -/
def button : PressElement ℕ := ⟨[0], [1], by decide, by decide⟩

def press (b : MouseButton) : PressAction := .mouseDown ⟨b, ⟨0, 0⟩⟩ true .both

def releaseOver (b : MouseButton) : PressAction := .mouseUp ⟨b, ⟨0, 0⟩⟩ true .both

def moveAway : PressAction := .mouseMove ⟨3, 0⟩ .both

theorem allSteps_cons {a : PressAction} {actions : List PressAction} (hC : s.KeepsPresses a)
    (h : AllSteps (step e) KeepsPresses
      ⟨e.apply s.code a, s.monitor.apply e s.code.activeDrag a⟩ actions) :
    AllSteps (step e) KeepsPresses s (a :: actions) := by
  intro s' hstep
  obtain rfl := Option.some.inj hstep
  exact ⟨hC, h⟩

/-- Clicks with two buttons, and a drag. -/
def clicksThenDrag : List PressAction :=
  [press .left, releaseOver .left, press .right, releaseOver .right, press .left, moveAway]

theorem keepsPresses_clicksThenDrag :
    AllSteps (step button) KeepsPresses start clicksThenDrag := by
  refine allSteps_cons (by decide +kernel) ?_
  refine allSteps_cons (by decide +kernel) ?_
  refine allSteps_cons (by decide +kernel) ?_
  refine allSteps_cons (by decide +kernel) ?_
  refine allSteps_cons (by decide +kernel) ?_
  exact allSteps_cons (by decide +kernel) trivial

/-- A left press and the release of the right button. -/
def otherRelease : List PressAction := [press .left, releaseOver .right]

/-- A release whose bubble phase does not reach the element, and one elsewhere. -/
def stoppedRelease : List PressAction :=
  [press .left, .mouseUp ⟨.left, ⟨0, 0⟩⟩ true .capture, .mouseUp ⟨.right, ⟨9, 9⟩⟩ false .both]

/-- A right press moved away before a left press. -/
def rightThenLeft : List PressAction :=
  [press .right, moveAway, releaseOver .right, press .left, moveAway]

end PressRun

end Lucie.Div
