import Lucie.Window.DispatchTree

/-!
# Frames and the reuse of a part of a frame

A window draws the next frame while it still holds the rendered one. Everything that is
drawn is appended to the vectors of the next frame. A cached view records the indices of
its part of the vectors; when it is not drawn again, this part is copied, or moved, from
the rendered frame to the next one.
-/

set_option autoImplicit false

namespace Lucie.Drawing

/-- `ElementId`: a view has the hash of its entity id as its element id. -/
inductive ElementId
  | named (id : ℕ)
  | view (entity : EntityId)
  deriving DecidableEq

/-- `GlobalElementId`: the stack of element ids, last one first. The source mixes the
ids to one hash, on whose being different for different stacks it relies. -/
abbrev GlobalElementId := List ElementId

/-- `PrepaintStateIndex`. -/
@[ext] structure PrepaintStateIndex where
  hitboxesIndex : ℕ
  tooltipsIndex : ℕ
  deferredDrawsIndex : ℕ
  dispatchTreeIndex : ℕ
  accessedElementStatesIndex : ℕ
  deriving DecidableEq

/-- `PaintIndex`. -/
@[ext] structure PaintIndex where
  sceneIndex : ℕ
  mouseListenersIndex : ℕ
  inputHandlersIndex : ℕ
  cursorStylesIndex : ℕ
  accessedElementStatesIndex : ℕ
  tabHandleIndex : ℕ
  deriving DecidableEq

/-- `PrepaintStateIndex::default`. -/
def PrepaintStateIndex.zero : PrepaintStateIndex := ⟨0, 0, 0, 0, 0⟩

/-- `PaintIndex::default`. -/
def PaintIndex.zero : PaintIndex := ⟨0, 0, 0, 0, 0, 0⟩

/-- `Range`. -/
@[ext] structure Span (I : Type) where
  start : I
  stop : I
  deriving DecidableEq

variable {D K : Type}

/-- `Hitbox`: its id, and its bounds, content mask and behavior. -/
structure Hitbox (D : Type) where
  id : ℕ
  data : D
  deriving DecidableEq

/-- `TooltipRequest`. -/
structure TooltipRequest (D : Type) where
  id : ℕ
  tooltip : D
  deriving DecidableEq

/-- `DeferredDraw`; `inherited` stands for the current view, the text styles, the rem size
and the offset under which the element is drawn. -/
structure DeferredDraw (D : Type) where
  parentNode : ℕ
  elementIdStack : GlobalElementId
  inherited : D
  priority : ℕ
  element : Option D
  prepaintRange : Span PrepaintStateIndex
  paintRange : Span PaintIndex
  deriving DecidableEq

/-- `AnyViewState`; `K` stands for `ViewCacheKey`. -/
structure AnyViewState (K : Type) where
  prepaintRange : Span PrepaintStateIndex
  paintRange : Span PaintIndex
  cacheKey : K
  deriving DecidableEq

/-- `Frame`; `D` stands for the data that a frame carries for elements. Of the scene it has
the paint operations, of the tab stops the insertion history. -/
structure Frame (D K : Type) where
  focus : Option FocusId
  elementStates : GlobalElementId → Option (AnyViewState K)
  accessedElementStates : List GlobalElementId
  mouseListeners : List (Option D)
  dispatchTree : DispatchTree D
  scene : List D
  hitboxes : List (Hitbox D)
  windowControlHitboxes : List D
  deferredDraws : List (DeferredDraw D)
  inputHandlers : List (Option D)
  tooltipRequests : List (Option (TooltipRequest D))
  cursorStyles : List D
  tabStops : List D

/-- `Frame::new`; `clear` leaves the same. -/
def Frame.new : Frame D K :=
  ⟨none, fun _ => none, [], [], .new, [], [], [], [], [], [], [], []⟩

/-- The part of `Window` that drawing uses. `held` tells of the cached views prepainted in
this frame which hold the element that they rendered, until they are painted. -/
structure Window (D K : Type) where
  nextFrame : Frame D K
  renderedFrame : Frame D K
  focus : Option FocusId
  elementIdStack : GlobalElementId
  nextHitboxId : ℕ
  nextTooltipId : ℕ
  dirtyViews : Finset EntityId
  refreshing : Bool
  held : GlobalElementId → Bool

/-- A slice by a range of indices; `none` is a range out of bounds. -/
def slice {α : Type} (entries : List α) (start stop : ℕ) : Option (List α) :=
  if start ≤ stop ∧ stop ≤ entries.length then some ((entries.take stop).drop start) else none

/-- What `Option::take` on each entry of a range leaves. -/
def takeRange {α : Type} (entries : List (Option α)) (start stop : ℕ) : List (Option α) :=
  entries.take start ++ ((entries.take stop).drop start).map (fun _ => none) ++ entries.drop stop

namespace Window

/-- `Window::prepaint_index`. -/
def prepaintIndex (w : Window D K) : PrepaintStateIndex where
  hitboxesIndex := w.nextFrame.hitboxes.length
  tooltipsIndex := w.nextFrame.tooltipRequests.length
  deferredDrawsIndex := w.nextFrame.deferredDraws.length
  dispatchTreeIndex := w.nextFrame.dispatchTree.nodes.length
  accessedElementStatesIndex := w.nextFrame.accessedElementStates.length

/-- The copy of a deferred draw that `reuse_prepaint` makes. -/
def reuseDeferredDraw (reused : ReusedSubtree) (draw : DeferredDraw D) : DeferredDraw D :=
  { draw with parentNode := reused.refreshNodeId draw.parentNode, element := none }

/-- `Window::reuse_prepaint`. -/
def reusePrepaint (w : Window D K) (range : Span PrepaintStateIndex) :
    Option (Window D K) := do
  let hitboxes ← slice w.renderedFrame.hitboxes
    range.start.hitboxesIndex range.stop.hitboxesIndex
  let tooltips ← slice w.renderedFrame.tooltipRequests
    range.start.tooltipsIndex range.stop.tooltipsIndex
  let accessed ← slice w.renderedFrame.accessedElementStates
    range.start.accessedElementStatesIndex range.stop.accessedElementStatesIndex
  let (reused, tree, source) := w.nextFrame.dispatchTree.reuseSubtree
    range.start.dispatchTreeIndex range.stop.dispatchTreeIndex
    w.renderedFrame.dispatchTree w.focus
  let deferred ← slice w.renderedFrame.deferredDraws
    range.start.deferredDrawsIndex range.stop.deferredDrawsIndex
  some { w with
    nextFrame := { w.nextFrame with
      hitboxes := w.nextFrame.hitboxes ++ hitboxes
      tooltipRequests := w.nextFrame.tooltipRequests ++ tooltips
      accessedElementStates := w.nextFrame.accessedElementStates ++ accessed
      dispatchTree := tree
      focus := if reused.containsFocus then w.focus else w.nextFrame.focus
      deferredDraws := w.nextFrame.deferredDraws ++ deferred.map (reuseDeferredDraw reused) }
    renderedFrame := { w.renderedFrame with
      tooltipRequests := takeRange w.renderedFrame.tooltipRequests
        range.start.tooltipsIndex range.stop.tooltipsIndex
      dispatchTree := source } }

/-- `Window::paint_index`. -/
def paintIndex (w : Window D K) : PaintIndex where
  sceneIndex := w.nextFrame.scene.length
  mouseListenersIndex := w.nextFrame.mouseListeners.length
  inputHandlersIndex := w.nextFrame.inputHandlers.length
  cursorStylesIndex := w.nextFrame.cursorStyles.length
  accessedElementStatesIndex := w.nextFrame.accessedElementStates.length
  tabHandleIndex := w.nextFrame.tabStops.length

/-- `Window::reuse_paint`. -/
def reusePaint (w : Window D K) (range : Span PaintIndex) : Option (Window D K) := do
  let cursorStyles ← slice w.renderedFrame.cursorStyles
    range.start.cursorStylesIndex range.stop.cursorStylesIndex
  let inputHandlers ← slice w.renderedFrame.inputHandlers
    range.start.inputHandlersIndex range.stop.inputHandlersIndex
  let mouseListeners ← slice w.renderedFrame.mouseListeners
    range.start.mouseListenersIndex range.stop.mouseListenersIndex
  let accessed ← slice w.renderedFrame.accessedElementStates
    range.start.accessedElementStatesIndex range.stop.accessedElementStatesIndex
  let tabStops ← slice w.renderedFrame.tabStops
    range.start.tabHandleIndex range.stop.tabHandleIndex
  let scene ← slice w.renderedFrame.scene range.start.sceneIndex range.stop.sceneIndex
  some { w with
    nextFrame := { w.nextFrame with
      cursorStyles := w.nextFrame.cursorStyles ++ cursorStyles
      inputHandlers := w.nextFrame.inputHandlers ++ inputHandlers
      mouseListeners := w.nextFrame.mouseListeners ++ mouseListeners
      accessedElementStates := w.nextFrame.accessedElementStates ++ accessed
      tabStops := w.nextFrame.tabStops ++ tabStops
      scene := w.nextFrame.scene ++ scene }
    renderedFrame := { w.renderedFrame with
      inputHandlers := takeRange w.renderedFrame.inputHandlers
        range.start.inputHandlersIndex range.stop.inputHandlersIndex
      mouseListeners := takeRange w.renderedFrame.mouseListeners
        range.start.mouseListenersIndex range.stop.mouseListenersIndex } }

/-- The state of a view that `with_element_state` finds. -/
def elementState (w : Window D K) (id : GlobalElementId) : Option (AnyViewState K) :=
  (w.nextFrame.elementStates id).or (w.renderedFrame.elementStates id)

/-- `Window::with_element_state` before it calls the closure: the state is taken from the
next frame or, the first time that it is used, from the rendered one. -/
def takeElementState (w : Window D K) (id : GlobalElementId) : Window D K :=
  { w with
    nextFrame := { w.nextFrame with
      accessedElementStates := w.nextFrame.accessedElementStates ++ [id]
      elementStates := Function.update w.nextFrame.elementStates id none }
    renderedFrame := { w.renderedFrame with
      elementStates :=
        if (w.nextFrame.elementStates id).isSome then w.renderedFrame.elementStates
        else Function.update w.renderedFrame.elementStates id none } }

/-- `Window::with_element_state` after it called the closure. -/
def putElementState (w : Window D K) (id : GlobalElementId) (state : AnyViewState K) :
    Window D K :=
  { w with nextFrame := { w.nextFrame with
      elementStates := Function.update w.nextFrame.elementStates id (some state) } }

/-- `Window::with_element_state` for the state of a view. -/
def withElementState {β : Type} (w : Window D K) (id : GlobalElementId)
    (f : Option (AnyViewState K) → Window D K → Option (β × AnyViewState K × Window D K)) :
    Option (β × Window D K) :=
  (f (w.elementState id) (w.takeElementState id)).map fun (result, state, w) =>
    (result, w.putElementState id state)

end Window

end Lucie.Drawing
