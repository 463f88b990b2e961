import Lucie.Window.Frame

/-!
# Prepaint

What elements do to the window while they are prepainted, as a tree of calls: insert
hitboxes, request tooltips, defer draws, set focus handles and view ids, and prepaint
elements and views inside them. A cached view takes over its part of the rendered frame
when nothing that it depends on has changed. `transact` runs an attempt and truncates the
frame when the attempt fails.
-/

set_option autoImplicit false

namespace Lucie.Drawing

variable {D K : Type}

namespace Window

/-- `Window::insert_hitbox`. -/
def insertHitbox (w : Window D K) (data : D) : Window D K :=
  { w with
    nextHitboxId := (w.nextHitboxId + 1) % 2 ^ 64
    nextFrame := { w.nextFrame with
      hitboxes := w.nextFrame.hitboxes ++ [⟨w.nextHitboxId, data⟩] } }

/-- `Window::set_tooltip`. -/
def setTooltip (w : Window D K) (tooltip : D) : Window D K :=
  { w with
    nextTooltipId := w.nextTooltipId + 1
    nextFrame := { w.nextFrame with
      tooltipRequests := w.nextFrame.tooltipRequests ++ [some ⟨w.nextTooltipId, tooltip⟩] } }

/-- `Window::defer_draw`. -/
def deferDraw (w : Window D K) (element inherited : D) (priority : ℕ) : Window D K :=
  { w with nextFrame := { w.nextFrame with
      deferredDraws := w.nextFrame.deferredDraws ++ [{
        parentNode := w.nextFrame.dispatchTree.nodeStack.headD 0
        elementIdStack := w.elementIdStack
        inherited := inherited
        priority := priority
        element := some element
        prepaintRange := ⟨.zero, .zero⟩
        paintRange := ⟨.zero, .zero⟩ }] } }

/-- Change the dispatch tree of the next frame. -/
def updateTree (w : Window D K) (change : DispatchTree D → DispatchTree D) : Window D K :=
  { w with nextFrame := { w.nextFrame with
      dispatchTree := change w.nextFrame.dispatchTree } }

/-- `Window::set_focus_handle`. -/
def setFocusHandle (w : Window D K) (id : FocusId) : Window D K :=
  let focused := if w.focus = some id then some id else w.nextFrame.focus
  { w with nextFrame := { w.nextFrame with focus := focused } }.updateTree (·.setFocusId id)

/-- `Window::set_view_id`. -/
def setViewId (w : Window D K) (id : EntityId) : Window D K := w.updateTree (·.setViewId id)

/-- `Drawable::prepaint` before it prepaints the element. -/
def enter (w : Window D K) (id : Option ElementId) : Window D K :=
  { w with elementIdStack := id.toList ++ w.elementIdStack }.updateTree (·.pushNode)

/-- `Drawable::prepaint` after it prepainted the element. -/
def leave (w : Window D K) (id : Option ElementId) : Window D K :=
  { w with elementIdStack := w.elementIdStack.drop id.toList.length }.updateTree (·.popNode)

variable [DecidableEq K]

/-- The check of `AnyView::prepaint` whether the view can be reused. -/
def reusable (w : Window D K) (entity : EntityId) (cacheKey : K)
    (state : Option (AnyViewState K)) : Option (AnyViewState K) :=
  state.filter fun state =>
    state.cacheKey = cacheKey ∧ entity ∉ w.dirtyViews ∧ w.refreshing = false

/-- The closure that `AnyView::prepaint` passes to `with_element_state`. It returns whether
the view was rendered. -/
def prepaintCached (entity : EntityId) (cacheKey : K)
    (render : Window D K → Option (Window D K)) (state : Option (AnyViewState K))
    (w : Window D K) : Option (Bool × AnyViewState K × Window D K) :=
  let start := w.prepaintIndex
  match w.reusable entity cacheKey state with
  | some state => do
    let reused ← w.reusePrepaint state.prepaintRange
    some (false, { state with prepaintRange := ⟨start, reused.prepaintIndex⟩ }, reused)
  | none => do
    let rendered ← render { w with refreshing := true }
    some (true, ⟨⟨start, rendered.prepaintIndex⟩, ⟨.zero, .zero⟩, cacheKey⟩,
      { rendered with refreshing := w.refreshing })

/-- `AnyView::prepaint` of a cached view. -/
def prepaintView (w : Window D K) (entity : EntityId) (cacheKey : K)
    (render : Window D K → Option (Window D K)) : Option (Window D K) :=
  let w := w.setViewId entity
  let id := w.elementIdStack
  (w.withElementState id (prepaintCached entity cacheKey render)).map fun (held, w) =>
    { w with held := Function.update w.held id held }

end Window

/-- A call that a prepaint makes on the window. -/
inductive Prepaint (D K : Type)
  | insertHitbox (data : D)
  | setTooltip (tooltip : D)
  | deferDraw (element inherited : D) (priority : ℕ)
  | setFocusHandle (id : FocusId)
  | setViewId (id : EntityId)
  | element (id : Option ElementId) (children : List (Prepaint D K))
  | cachedView (entity : EntityId) (cacheKey : K) (children : List (Prepaint D K))

namespace Prepaint

/-- A view that is not cached: `AnyView::prepaint` sets the view id and prepaints the element
that `request_layout` rendered. -/
def view (entity : EntityId) (children : List (Prepaint D K)) : Prepaint D K :=
  element (some (.view entity)) (setViewId entity :: children)

/-- Induction over a call and lists of calls at once. -/
theorem induction {P : Prepaint D K → Prop} {Q : List (Prepaint D K) → Prop}
    (insertHitbox : ∀ data, P (insertHitbox data)) (setTooltip : ∀ tooltip, P (setTooltip tooltip))
    (deferDraw : ∀ content inherited priority, P (deferDraw content inherited priority))
    (setFocusHandle : ∀ id, P (setFocusHandle id)) (setViewId : ∀ id, P (setViewId id))
    (element : ∀ id children, Q children → P (element id children))
    (cachedView : ∀ entity cacheKey children, Q children → P (cachedView entity cacheKey children))
    (nil : Q []) (cons : ∀ call calls, P call → Q calls → Q (call :: calls)) :
    (∀ call, P call) ∧ ∀ calls, Q calls :=
  ⟨fun call => Prepaint.rec insertHitbox setTooltip deferDraw setFocusHandle setViewId element
      cachedView nil cons call,
    fun calls => Prepaint.rec_1 insertHitbox setTooltip deferDraw setFocusHandle setViewId element
      cachedView nil cons calls⟩

variable [DecidableEq K]

mutual

/-- Make a call; `none` is a panic. -/
def run : Prepaint D K → Window D K → Option (Window D K)
  | insertHitbox data, w => some (w.insertHitbox data)
  | setTooltip tooltip, w => some (w.setTooltip tooltip)
  | deferDraw content inherited priority, w => some (w.deferDraw content inherited priority)
  | setFocusHandle id, w => some (w.setFocusHandle id)
  | setViewId id, w => some (w.setViewId id)
  | element id children, w => (runAll children (w.enter id)).map (·.leave id)
  | cachedView entity cacheKey children, w =>
    ((w.enter (some (.view entity))).prepaintView entity cacheKey
      (fun w => runAll children w)).map (·.leave (some (.view entity)))

/-- Make calls one after the other. -/
def runAll : List (Prepaint D K) → Window D K → Option (Window D K)
  | [], w => some w
  | call :: calls, w => (run call w).bind fun w => runAll calls w

end

end Prepaint

namespace Window

/-- What `transact` does when the attempt failed. -/
def rollback (w : Window D K) (index : PrepaintStateIndex) : Window D K :=
  { w with nextFrame := { w.nextFrame with
      hitboxes := w.nextFrame.hitboxes.take index.hitboxesIndex
      tooltipRequests := w.nextFrame.tooltipRequests.take index.tooltipsIndex
      deferredDraws := w.nextFrame.deferredDraws.take index.deferredDrawsIndex
      dispatchTree := w.nextFrame.dispatchTree.truncate index.dispatchTreeIndex
      accessedElementStates :=
        w.nextFrame.accessedElementStates.take index.accessedElementStatesIndex } }

/-- `Window::transact`; `none` is a panic of the closure. -/
def transact {ε α : Type} (w : Window D K)
    (f : Window D K → Option (Except ε α × Window D K)) : Option (Except ε α × Window D K) := do
  let index := w.prepaintIndex
  let (result, w) ← f w
  match result with
  | .ok _ => some (result, w)
  | .error _ => some (result, w.rollback index)

end Window

end Lucie.Drawing
