import Lucie.Window.ElementStates
import Lucie.Window.Paint

/-!
# The contents of a frame

What the elements of a frame do while they are prepainted and painted, and the vectors of the
frame that a window draws of it. A cached view that is not inside another one is an outermost
view: a cached view that is rendered has the views inside it rendered as well, so that only
the outermost ones are ever taken over from the rendered frame.

The frames here are those of root elements that defer no draws. Of what they leave, the
dispatch tree and the window control areas are not compared; a reused part of a frame does
not have the latter.
-/

set_option autoImplicit false

namespace Lucie.Drawing

variable {D K : Type}

/-- What a prepaint leaves in the vectors of a frame, up to fresh ids. -/
@[ext] structure Prepainted (D : Type) where
  hitboxes : List D
  tooltipRequests : List (Option D)
  deriving DecidableEq

/-- What a paint leaves in the vectors of a frame. -/
@[ext] structure Painted (D : Type) where
  scene : List D
  mouseListeners : List (Option D)
  inputHandlers : List (Option D)
  cursorStyles : List D
  tabStops : List D
  deriving DecidableEq

namespace Prepainted

/-- Nothing is prepainted. -/
def empty : Prepainted D := ⟨[], []⟩

instance : Append (Prepainted D) where
  append p q := ⟨p.hitboxes ++ q.hitboxes, p.tooltipRequests ++ q.tooltipRequests⟩

theorem append_def (p q : Prepainted D) :
    p ++ q = ⟨p.hitboxes ++ q.hitboxes, p.tooltipRequests ++ q.tooltipRequests⟩ := rfl

@[simp] theorem append_empty (p : Prepainted D) : p ++ empty = p := by
  simp [append_def, empty]

@[simp] theorem empty_append (p : Prepainted D) : empty ++ p = p := by
  simp [append_def, empty]

theorem append_assoc (p q r : Prepainted D) : p ++ q ++ r = p ++ (q ++ r) := by
  simp [append_def]

end Prepainted

namespace Painted

/-- Nothing is painted. -/
def empty : Painted D := ⟨[], [], [], [], []⟩

instance : Append (Painted D) where
  append p q := ⟨p.scene ++ q.scene, p.mouseListeners ++ q.mouseListeners,
    p.inputHandlers ++ q.inputHandlers, p.cursorStyles ++ q.cursorStyles,
    p.tabStops ++ q.tabStops⟩

theorem append_def (p q : Painted D) :
    p ++ q = ⟨p.scene ++ q.scene, p.mouseListeners ++ q.mouseListeners,
      p.inputHandlers ++ q.inputHandlers, p.cursorStyles ++ q.cursorStyles,
      p.tabStops ++ q.tabStops⟩ := rfl

@[simp] theorem append_empty (p : Painted D) : p ++ empty = p := by
  simp [append_def, empty]

@[simp] theorem empty_append (p : Painted D) : empty ++ p = p := by
  simp [append_def, empty]

theorem append_assoc (p q r : Painted D) : p ++ q ++ r = p ++ (q ++ r) := by
  simp [append_def]

end Painted

namespace Frame

/-- What the prepaints have left in a frame. -/
def prepainted (f : Frame D K) : Prepainted D where
  hitboxes := f.hitboxes.map (·.data)
  tooltipRequests := f.tooltipRequests.map (Option.map (·.tooltip))

/-- What the paints have left in a frame. -/
def painted (f : Frame D K) : Painted D where
  scene := f.scene
  mouseListeners := f.mouseListeners
  inputHandlers := f.inputHandlers
  cursorStyles := f.cursorStyles
  tabStops := f.tabStops

/-- `Frame::finish`: the states that the frame accessed are moved from the previous frame. -/
def finish (f prevFrame : Frame D K) : Frame D K :=
  { f with elementStates := (StateFrame.finish ⟨f.elementStates, f.accessedElementStates⟩
      ⟨prevFrame.elementStates, prevFrame.accessedElementStates⟩).1.elementStates }

end Frame

/-- A cached view that a prepaint comes to. -/
structure CachedView (D K : Type) where
  id : GlobalElementId
  entity : EntityId
  cacheKey : K
  children : List (Prepaint D K)

/-- A cached view that a paint comes to. -/
structure PaintedView (D : Type) where
  id : GlobalElementId
  children : List (Paint D)

namespace Prepaint

mutual

/-- What a call leaves in the vectors when every view in it is rendered. -/
def output : Prepaint D K → Prepainted D
  | insertHitbox data => ⟨[data], []⟩
  | setTooltip tooltip => ⟨[], [some tooltip]⟩
  | deferDraw _ _ _ => .empty
  | setFocusHandle _ => .empty
  | setViewId _ => .empty
  | element _ children => outputAll children
  | cachedView _ _ children => outputAll children

/-- What calls leave in the vectors when every view in them is rendered. -/
def outputAll : List (Prepaint D K) → Prepainted D
  | [] => .empty
  | call :: calls => output call ++ outputAll calls

end

mutual

/-- The ids of the cached views in a call. -/
def viewIds (stack : GlobalElementId) : Prepaint D K → List GlobalElementId
  | element id children => viewIdsAll (id.toList ++ stack) children
  | cachedView entity _ children =>
    (.view entity :: stack) :: viewIdsAll (.view entity :: stack) children
  | _ => []

/-- The ids of the cached views in calls. -/
def viewIdsAll (stack : GlobalElementId) : List (Prepaint D K) → List GlobalElementId
  | [] => []
  | call :: calls => viewIds stack call ++ viewIdsAll stack calls

end

mutual

/-- The outermost cached views in a call. -/
def outermost (stack : GlobalElementId) : Prepaint D K → List (CachedView D K)
  | element id children => outermostAll (id.toList ++ stack) children
  | cachedView entity cacheKey children => [⟨.view entity :: stack, entity, cacheKey, children⟩]
  | _ => []

/-- The outermost cached views in calls. -/
def outermostAll (stack : GlobalElementId) : List (Prepaint D K) → List (CachedView D K)
  | [] => []
  | call :: calls => outermost stack call ++ outermostAll stack calls

end

mutual

/-- A draw is deferred. -/
def defers : Prepaint D K → Bool
  | deferDraw _ _ _ => true
  | element _ children => defersAny children
  | cachedView _ _ children => defersAny children
  | _ => false

/-- One of the calls defers a draw. -/
def defersAny : List (Prepaint D K) → Bool
  | [] => false
  | call :: calls => defers call || defersAny calls

end

end Prepaint

namespace Paint

mutual

/-- What a call leaves in the vectors when every view in it is painted. -/
def output (focus : Option FocusId) : Paint D → Painted D
  | insertOperation operation => ⟨[operation], [], [], [], []⟩
  | onMouseEvent listener => ⟨[], [some listener], [], [], []⟩
  | handleInput focusHandle inputHandler =>
    ⟨[], [], if focus = some focusHandle then [some inputHandler] else [], [], []⟩
  | setCursorStyle request => ⟨[], [], [], [request], []⟩
  | tabOperation operation => ⟨[], [], [], [], [operation]⟩
  | insertWindowControlHitbox _ => .empty
  | setKeyContext _ => .empty
  | onKeyEvent _ => .empty
  | onModifiersChanged _ => .empty
  | onAction _ => .empty
  | element _ _ children => outputAll focus children
  | cachedView _ _ children => outputAll focus children

/-- What calls leave in the vectors when every view in them is painted. -/
def outputAll (focus : Option FocusId) : List (Paint D) → Painted D
  | [] => .empty
  | call :: calls => output focus call ++ outputAll focus calls

end

mutual

/-- The ids of the cached views in a call. -/
def viewIds (stack : GlobalElementId) : Paint D → List GlobalElementId
  | element id _ children => viewIdsAll (id.toList ++ stack) children
  | cachedView entity _ children =>
    (.view entity :: stack) :: viewIdsAll (.view entity :: stack) children
  | _ => []

/-- The ids of the cached views in calls. -/
def viewIdsAll (stack : GlobalElementId) : List (Paint D) → List GlobalElementId
  | [] => []
  | call :: calls => viewIds stack call ++ viewIdsAll stack calls

end

mutual

/-- The outermost cached views in a call. -/
def outermost (stack : GlobalElementId) : Paint D → List (PaintedView D)
  | element id _ children => outermostAll (id.toList ++ stack) children
  | cachedView entity _ children => [⟨.view entity :: stack, children⟩]
  | _ => []

/-- The outermost cached views in calls. -/
def outermostAll (stack : GlobalElementId) : List (Paint D) → List (PaintedView D)
  | [] => []
  | call :: calls => outermost stack call ++ outermostAll stack calls

end

/-- Induction over a call and lists of calls at once. -/
theorem induction {P : Paint D → Prop} {Q : List (Paint D) → Prop}
    (leaf : ∀ call : Paint D, (∀ id node children, call ≠ element id node children) →
      (∀ entity node children, call ≠ cachedView entity node children) → P call)
    (element : ∀ id node children, Q children → P (element id node children))
    (cachedView : ∀ entity node children, Q children → P (cachedView entity node children))
    (nil : Q []) (cons : ∀ call calls, P call → Q calls → Q (call :: calls)) :
    (∀ call, P call) ∧ ∀ calls, Q calls := by
  constructor
  · intro call
    refine @Paint.rec D P Q ?_ ?_ ?_ ?_ ?_ ?_ ?_ ?_ ?_ ?_ element
      cachedView nil cons call <;>
    · intros
      exact leaf _ (by simp) (by simp)
  · intro calls
    refine @Paint.rec_1 D P Q ?_ ?_ ?_ ?_ ?_ ?_ ?_ ?_ ?_ ?_ element
      cachedView nil cons calls <;>
    · intros
      exact leaf _ (by simp) (by simp)

end Paint

/-- What is drawn in a frame, and what has happened since the previous one: the window has
its focus, views were notified, and the window may have been refreshed. -/
structure Contents (D K : Type) where
  focus : Option FocusId
  dirtyViews : Finset EntityId
  refreshing : Bool
  prepaint : List (Prepaint D K)
  paint : List (Paint D)

namespace Contents

/-- Nothing is drawn. -/
def blank : Contents D K := ⟨none, ∅, false, [], []⟩

/-- The outermost views that are prepainted. -/
def views (c : Contents D K) : List (CachedView D K) := Prepaint.outermostAll [] c.prepaint

/-- The outermost views that are painted. -/
def paintedViews (c : Contents D K) : List (PaintedView D) := Paint.outermostAll [] c.paint

end Contents

/-- A window, and the input handler that it registered with the platform window. -/
structure Screen (D K : Type) where
  window : Window D K
  inputHandler : Option D

/-- What a frame shows: the vectors of the rendered frame and the registered input handler. -/
@[ext] structure Visible (D : Type) where
  prepainted : Prepainted D
  painted : Painted D
  inputHandler : Option D
  deriving DecidableEq

namespace Screen

/-- A new window. -/
def new : Screen D K :=
  ⟨⟨.new, .new, none, [], 0, 0, ∅, false, fun _ => false⟩, none⟩

/-- What `Window::draw` does before it draws the roots, in the window as it is then: the input
handler is taken back from the platform window. -/
def begin (s : Screen D K) (c : Contents D K) : Window D K :=
  { s.window with
    focus := c.focus
    dirtyViews := c.dirtyViews
    refreshing := c.refreshing
    renderedFrame := { s.window.renderedFrame with
      inputHandlers := s.window.renderedFrame.inputHandlers ++ s.inputHandler.toList.map some } }

/-- `input_handlers.pop()`, and the unwrapping of what was popped. -/
def popInputHandler (handlers : List (Option D)) : Option (List (Option D) × Option D) :=
  match handlers.getLast? with
  | none => some ([], none)
  | some none => none
  | some (some handler) => some (handlers.dropLast, some handler)

/-- What `Window::draw` does after it has drawn the roots. -/
def present (w : Window D K) : Option (Screen D K) := do
  let (inputHandlers, inputHandler) ← popInputHandler w.nextFrame.inputHandlers
  let nextFrame := { w.nextFrame with inputHandlers := inputHandlers }
  some ⟨{ w with
    nextFrame := .new
    renderedFrame := nextFrame.finish w.renderedFrame
    dirtyViews := ∅
    refreshing := false }, inputHandler⟩

variable [DecidableEq K]

/-- `Window::draw`; `none` is a panic. -/
def draw (s : Screen D K) (c : Contents D K) : Option (Screen D K) := do
  let prepainted ← Prepaint.runAll c.prepaint (s.begin c)
  let painted ← Paint.runAll c.paint prepainted
  present painted

/-- What the rendered frame shows. -/
def visible (s : Screen D K) : Visible D :=
  ⟨s.window.renderedFrame.prepainted, s.window.renderedFrame.painted, s.inputHandler⟩

/-- Draw one frame after the other, and see what each one shows. -/
def drawAll (s : Screen D K) : List (Contents D K) → Option (List (Visible D))
  | [] => some []
  | c :: contents => do
    let s ← s.draw c
    let frames ← s.drawAll contents
    some (s.visible :: frames)

end Screen

/-- Of two ids none is within the other one. -/
def Separate (id other : GlobalElementId) : Prop := ¬ id <:+ other ∧ ¬ other <:+ id

namespace Separate

variable {id other inner : GlobalElementId}

theorem symm (h : Separate id other) : Separate other id := ⟨h.2, h.1⟩

theorem ne (h : Separate id other) : id ≠ other := by
  rintro rfl
  exact h.1 List.suffix_rfl

/-- What is within one of them is not within the other one. -/
theorem not_suffix (h : Separate id other) (hinner : id <:+ inner) : ¬ other <:+ inner :=
  fun hother => (List.suffix_or_suffix_of_suffix hinner hother).elim h.1 h.2

/-- Views that are apart, and the first few of them. -/
theorem of_initial {V : Type} {key : V → GlobalElementId} {views done : List V} {view : V}
    (hseparate : views.Pairwise fun view other => Separate (key view) (key other))
    (hinitial : done ++ [view] <+: views) : ∀ other ∈ done, Separate (key other) (key view) := by
  have hpairwise := hseparate.sublist hinitial.sublist
  intro other hother
  exact (List.pairwise_append.mp hpairwise).2.2 other hother view List.mem_cons_self

end Separate

/-- What is inside an id with more above it is inside the id. -/
theorem inside_of_append {above stack id : GlobalElementId}
    (h : above ++ stack <:+ id ∧ (above ++ stack).length < id.length) :
    stack <:+ id ∧ stack.length < id.length := by
  obtain ⟨hsuffix, hlength⟩ := h
  rw [List.length_append] at hlength
  exact ⟨(List.suffix_append _ _).trans hsuffix, by omega⟩

namespace Contents

/-- A drawing as the elements make it: no draw is deferred, the ids of two outermost views
are not the same and none is within the other one, the outermost views that were prepainted
are painted, and so are at most those views inside them that were prepainted. -/
structure Proper (c : Contents D K) : Prop where
  deferred : Prepaint.defersAny c.prepaint = false
  separate : c.views.Pairwise fun view other => Separate view.id other.id
  painted : (c.paintedViews.map (·.id)).Perm (c.views.map (·.id))
  nested : ∀ view ∈ c.views, ∀ painted ∈ c.paintedViews, painted.id = view.id →
    ∀ id ∈ Paint.viewIdsAll painted.id painted.children,
      id ∈ Prepaint.viewIdsAll view.id view.children

/-- A drawing after another one: an outermost view is not inside what was one in the previous
frame, and a view that was not notified has not changed what it draws, unless it depends on
the cache key or the window was refreshed. -/
structure Follows (previous c : Contents D K) : Prop where
  outermost : ∀ view ∈ c.views, ∀ former ∈ previous.views,
    former.id <:+ view.id → former.id = view.id
  prepaint : ∀ view ∈ c.views, ∀ former ∈ previous.views, former.id = view.id →
    former.cacheKey = view.cacheKey → view.entity ∉ c.dirtyViews → c.refreshing = false →
    Prepaint.outputAll view.children = Prepaint.outputAll former.children
  paint : ∀ view ∈ c.views, ∀ former ∈ previous.views, former.id = view.id →
    former.cacheKey = view.cacheKey → view.entity ∉ c.dirtyViews → c.refreshing = false →
    ∀ painted ∈ c.paintedViews, painted.id = view.id →
    ∀ earlier ∈ previous.paintedViews, earlier.id = view.id →
    Paint.outputAll c.focus painted.children = Paint.outputAll previous.focus earlier.children

end Contents

end Lucie.Drawing
