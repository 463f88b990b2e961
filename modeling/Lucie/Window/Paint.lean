import Lucie.Window.Prepaint

/-!
# Paint

What elements do to the window while they are painted, as a tree of calls: insert primitives
into the scene, register mouse and key listeners, input handlers, cursor styles, tab stops
and window control areas. A cached view that was not rendered in this frame takes over its
part of the rendered frame.
-/

set_option autoImplicit false

namespace Lucie.Drawing

variable {D K : Type}

namespace Window

/-- A paint operation of the scene. -/
def insertOperation (w : Window D K) (operation : D) : Window D K :=
  { w with nextFrame := { w.nextFrame with scene := w.nextFrame.scene ++ [operation] } }

/-- `Window::on_mouse_event`. -/
def onMouseEvent (w : Window D K) (listener : D) : Window D K :=
  { w with nextFrame := { w.nextFrame with
      mouseListeners := w.nextFrame.mouseListeners ++ [some listener] } }

/-- `Window::handle_input`. -/
def handleInput (w : Window D K) (focusHandle : FocusId) (inputHandler : D) : Window D K :=
  if w.focus = some focusHandle then
    { w with nextFrame := { w.nextFrame with
        inputHandlers := w.nextFrame.inputHandlers ++ [some inputHandler] } }
  else w

/-- `Window::set_cursor_style` and `Window::set_window_cursor_style`. -/
def setCursorStyle (w : Window D K) (request : D) : Window D K :=
  { w with nextFrame := { w.nextFrame with
      cursorStyles := w.nextFrame.cursorStyles ++ [request] } }

/-- An operation of `TabStopMap` on the tab stops of the next frame. -/
def tabOperation (w : Window D K) (operation : D) : Window D K :=
  { w with nextFrame := { w.nextFrame with
      tabStops := w.nextFrame.tabStops ++ [operation] } }

/-- `Window::insert_window_control_hitbox`. -/
def insertWindowControlHitbox (w : Window D K) (area : D) : Window D K :=
  { w with nextFrame := { w.nextFrame with
      windowControlHitboxes := w.nextFrame.windowControlHitboxes ++ [area] } }

/-- `Drawable::paint` before it paints the element. -/
def enterPaint (w : Window D K) (id : Option ElementId) (node : ℕ) : Window D K :=
  { w with elementIdStack := id.toList ++ w.elementIdStack }.updateTree (·.setActiveNode node)

/-- `Drawable::paint` after it painted the element. -/
def leavePaint (w : Window D K) (id : Option ElementId) : Window D K :=
  { w with elementIdStack := w.elementIdStack.drop id.toList.length }

/-- The closure that `AnyView::paint` passes to `with_element_state`; `held` tells whether the
view holds the element that it rendered. -/
def paintCached (held : Bool) (paint : Window D K → Option (Window D K))
    (state : Option (AnyViewState K)) (w : Window D K) :
    Option (Unit × AnyViewState K × Window D K) := do
  let state ← state
  let start := w.paintIndex
  let painted ←
    if held then
      (paint { w with refreshing := true }).map fun painted =>
        { painted with refreshing := w.refreshing }
    else w.reusePaint state.paintRange
  some ((), { state with paintRange := ⟨start, painted.paintIndex⟩ }, painted)

/-- `AnyView::paint` of a cached view. -/
def paintView (w : Window D K) (paint : Window D K → Option (Window D K)) :
    Option (Window D K) :=
  let id := w.elementIdStack
  (w.withElementState id (paintCached (w.held id) paint)).map Prod.snd

end Window

/-- A call that a paint makes on the window. An element comes with the node that its prepaint
has pushed. -/
inductive Paint (D : Type)
  | insertOperation (operation : D)
  | onMouseEvent (listener : D)
  | handleInput (focusHandle : FocusId) (inputHandler : D)
  | setCursorStyle (request : D)
  | tabOperation (operation : D)
  | insertWindowControlHitbox (area : D)
  | setKeyContext (context : KeyContext)
  | onKeyEvent (listener : D)
  | onModifiersChanged (listener : D)
  | onAction (listener : D)
  | element (id : Option ElementId) (node : ℕ) (children : List (Paint D))
  | cachedView (entity : EntityId) (node : ℕ) (children : List (Paint D))

namespace Paint

mutual

/-- Make a call; `none` is a panic. -/
def run : Paint D → Window D K → Option (Window D K)
  | insertOperation operation, w => some (w.insertOperation operation)
  | onMouseEvent listener, w => some (w.onMouseEvent listener)
  | handleInput focusHandle inputHandler, w => some (w.handleInput focusHandle inputHandler)
  | setCursorStyle request, w => some (w.setCursorStyle request)
  | tabOperation operation, w => some (w.tabOperation operation)
  | insertWindowControlHitbox area, w => some (w.insertWindowControlHitbox area)
  | setKeyContext context, w => some (w.updateTree (·.setKeyContext context))
  | onKeyEvent listener, w => some (w.updateTree (·.onKeyEvent listener))
  | onModifiersChanged listener, w => some (w.updateTree (·.onModifiersChanged listener))
  | onAction listener, w => some (w.updateTree (·.onAction listener))
  | element id node children, w =>
    (runAll children (w.enterPaint id node)).map (·.leavePaint id)
  | cachedView entity node children, w =>
    ((w.enterPaint (some (.view entity)) node).paintView
      (fun w => runAll children w)).map (·.leavePaint (some (.view entity)))

/-- Make calls one after the other. -/
def runAll : List (Paint D) → Window D K → Option (Window D K)
  | [], w => some w
  | call :: calls, w => (run call w).bind fun w => runAll calls w

end

end Paint

end Lucie.Drawing
