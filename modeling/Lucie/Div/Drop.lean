import Lucie.Window.MouseDispatch

/-!
# Dropping

While a drag is on, the elements that accept drops listen to the release of the mouse. A listener
takes the drag out of the application before it asks its element whether it can be dropped there.
-/

set_option autoImplicit false

namespace Lucie.Div

open Drawing

variable {V T L : Type}

/-- What the drop listener of an element reads. -/
structure DropElement (V T L : Type) where
  hitboxId : ℕ
  isHovered : Bool
  dropListeners : List (T × L)
  canDropPredicate : Option (V → Bool)

/-- A call of a drop listener, with the element that it belongs to. -/
structure Delivery (V L : Type) where
  hitboxId : ℕ
  listener : L
  value : V
  deriving DecidableEq

/-- The fields of the application and the window that a release changes, and the listeners that
have been called. -/
structure DropState (V L : Type) where
  activeDrag : Option V
  propagateEvent : Bool
  refreshed : Bool
  delivered : List (Delivery V L)
  deriving DecidableEq

/-- When the mouse is released during a drag. -/
def DropState.dragging (value : V) : DropState V L := ⟨some value, true, false, []⟩

namespace DropElement

/-- `can_drop`. -/
def canDrop (element : DropElement V T L) (value : V) : Bool :=
  element.canDropPredicate.all fun predicate => predicate value

/-- The drag is dropped on the element: `listener`, `refresh` and `stop_propagation`. -/
def deliver (element : DropElement V T L) (listener : L) (value : V) (s : DropState V L) :
    DropState V L :=
  { s with
    propagateEvent := false
    refreshed := true
    delivered := s.delivered ++ [⟨element.hitboxId, listener, value⟩] }

/-- The drag is taken, and dropped if it can be. -/
def takeDrag (element : DropElement V T L) (listener : L) (value : V) (s : DropState V L) :
    DropState V L :=
  let s := { s with activeDrag := none }
  if element.canDrop value then element.deliver listener value s else s

variable [DecidableEq T]

/-- The loop over the drop listeners of an element, for a drag of the type. -/
def dropLoop (element : DropElement V T L) (dragStateType : T) :
    List (T × L) → DropState V L → Option (DropState V L)
  | [], s => some s
  | (dropStateType, listener) :: listeners, s =>
    if dropStateType = dragStateType then
      match s.activeDrag with
      -- `expect` on a drag that is taken already.
      | none => none
      | some value =>
        dropLoop element dragStateType listeners (element.takeDrag listener value s)
    else dropLoop element dragStateType listeners s

variable (typeId : V → T)

/-- The listener of an element to the release of the mouse. -/
def onMouseUp (element : DropElement V T L) : MouseListener (DropState V L) := fun phase s =>
  match s.activeDrag with
  | none => some s
  | some value =>
    if phase = .bubble ∧ element.isHovered then
      element.dropLoop (typeId value) element.dropListeners s
    else some s

/-- What an element registers in `Interactivity::paint_mouse_listeners` for drops. -/
def mouseListeners (element : DropElement V T L) : List (MouseListener (DropState V L)) :=
  if element.dropListeners.isEmpty then [] else [element.onMouseUp typeId]

/-- The mouse is over the element, and it has a listener of the type. -/
def listens (element : DropElement V T L) (dragStateType : T) : Bool :=
  element.isHovered && element.dropListeners.any (·.1 = dragStateType)

/-- The drop listeners of a type. -/
def listenersOf (element : DropElement V T L) (dragStateType : T) : List (T × L) :=
  element.dropListeners.filter (·.1 = dragStateType)

end DropElement

variable [DecidableEq T] (typeId : V → T)

/-- The bubble phase of a release over elements, the frontmost of them first. -/
def bubbleDrop (elements : List (DropElement V T L)) (s : DropState V L) : Option (DropState V L) :=
  dispatchPhase DropState.propagateEvent .bubble (elements.flatMap (·.mouseListeners typeId)) s

/-- `Window::dispatch_mouse_event` for a release of the mouse over elements in the order in which
they are painted. -/
def releaseMouse (elements : List (DropElement V T L)) (s : DropState V L) :
    Option (DropState V L) :=
  match dispatchMouseEvent DropState.propagateEvent
      (elements.flatMap (·.mouseListeners typeId)) s with
  | none => none
  | some s =>
    some (if s.activeDrag.isSome then { s with activeDrag := none, refreshed := true } else s)

/-- The frontmost element that listens to drags of the type of the value. -/
def frontmostListening (elements : List (DropElement V T L)) (value : V) :
    Option (DropElement V T L) :=
  elements.reverse.find? (·.listens (typeId value))

/-- The frontmost of the elements that the value can be dropped on. -/
def dropTarget (elements : List (DropElement V T L)) (value : V) : Option (DropElement V T L) :=
  elements.reverse.find? fun element => element.listens (typeId value) && element.canDrop value

/-- What a release during a drag should come to. -/
structure Drops (elements : List (DropElement V T L)) (value : V) : Prop where
  /-- It does not panic, and the value goes to the target, if there is one, and nowhere else. -/
  delivers : ∃ s, releaseMouse typeId elements (.dragging value) = some s ∧
    (∀ delivery ∈ s.delivered, ∃ element, dropTarget typeId elements value = some element ∧
      ∃ listener ∈ element.listenersOf (typeId value),
        delivery = ⟨element.hitboxId, listener.2, value⟩) ∧
    ((dropTarget typeId elements value).isSome → s.delivered ≠ [])
  /-- An element that the value cannot be dropped on leaves the drag to those behind it. -/
  leaves : ∀ front element behind, elements.reverse = front ++ element :: behind →
    element.listens (typeId value) = true → element.canDrop value = false →
    ∀ s s', bubbleDrop typeId front (.dragging value) = some s →
      bubbleDrop typeId (front ++ [element]) (.dragging value) = some s' →
      s'.activeDrag = s.activeDrag

/-! ## One element -/

namespace DropElement

variable {typeId} {element : DropElement V T L} {value : V} {s : DropState V L}

/-- Listeners of other types are passed over. -/
theorem dropLoop_filter (dragStateType : T) (listeners : List (T × L)) (s : DropState V L) :
    element.dropLoop dragStateType (listeners.filter (·.1 = dragStateType)) s =
      element.dropLoop dragStateType listeners s := by
  induction listeners generalizing s with
  | nil => rfl
  | cons head listeners ih =>
    obtain ⟨dropStateType, listener⟩ := head
    by_cases htype : dropStateType = dragStateType
    · rw [List.filter_cons_of_pos (by simpa using htype), dropLoop, dropLoop, if_pos htype,
        if_pos htype]
      cases s.activeDrag with
      | none => rfl
      | some value => exact ih _
    · rw [List.filter_cons_of_neg (by simpa using htype), dropLoop, if_neg htype]
      exact ih s

omit [DecidableEq T] in
theorem takeDrag_activeDrag (listener : L) :
    (element.takeDrag listener value s).activeDrag = none := by
  rw [takeDrag]
  split_ifs <;> rfl

theorem listens_iff (dragStateType : T) :
    element.listens dragStateType = true ↔
      element.isHovered = true ∧ element.listenersOf dragStateType ≠ [] := by
  rw [listens, listenersOf, Bool.and_eq_true, List.any_eq_true, ne_eq, List.filter_eq_nil_iff]
  push Not
  rfl

/-- During a drag, an element that does not listen to its type does nothing. -/
theorem onMouseUp_of_not_listens (hs : s.activeDrag = some value)
    (h : element.listens (typeId value) = false) (phase : DispatchPhase) :
    element.onMouseUp typeId phase s = some s := by
  rw [onMouseUp, hs]
  refine ite_eq_right_iff.mpr fun hphase => ?_
  have hnone : element.listenersOf (typeId value) = [] := by
    by_contra hne
    rw [(listens_iff _).mpr ⟨hphase.2, hne⟩] at h
    cases h
  rw [← dropLoop_filter]
  change element.dropLoop _ (element.listenersOf (typeId value)) s = some s
  rw [hnone, dropLoop]

/-- Without a drag, no element does anything. -/
theorem onMouseUp_of_none (hs : s.activeDrag = none) (phase : DispatchPhase) :
    element.onMouseUp typeId phase s = some s := by
  rw [onMouseUp, hs]

theorem onMouseUp_of_listens (hs : s.activeDrag = some value)
    (h : element.listens (typeId value) = true) :
    element.onMouseUp typeId .bubble s =
      element.dropLoop (typeId value) (element.listenersOf (typeId value)) s := by
  have hhovered := ((listens_iff _).mp h).1
  rw [listenersOf, dropLoop_filter, onMouseUp, hs]
  exact if_pos ⟨rfl, hhovered⟩

/-- The only listener of the type takes the drag. -/
theorem onMouseUp_of_singleton (hs : s.activeDrag = some value)
    (h : element.listens (typeId value) = true) {listener : T × L}
    (hlistener : element.listenersOf (typeId value) = [listener]) :
    element.onMouseUp typeId .bubble s = some (element.takeDrag listener.2 value s) := by
  have htype : listener.1 = typeId value := by
    have hmem : listener ∈ element.listenersOf (typeId value) := by simp [hlistener]
    simpa using (List.mem_filter.mp hmem).2
  rw [onMouseUp_of_listens hs h, hlistener, dropLoop, if_pos htype, hs]
  rfl

/-- A second listener of the type finds no drag. -/
theorem onMouseUp_of_many (hs : s.activeDrag = some value)
    (h : element.listens (typeId value) = true)
    (hmany : (element.listenersOf (typeId value)).length ≠ 1) :
    element.onMouseUp typeId .bubble s = none := by
  rw [onMouseUp_of_listens hs h]
  have htype : ∀ listener ∈ element.listenersOf (typeId value), listener.1 = typeId value :=
    fun listener hmem => by simpa using (List.mem_filter.mp hmem).2
  have hne := ((listens_iff _).mp h).2
  rcases hlisteners : element.listenersOf (typeId value) with _ | ⟨first, _ | ⟨second, rest⟩⟩
  · exact absurd hlisteners hne
  · simp [hlisteners] at hmany
  · rw [hlisteners] at htype
    rw [dropLoop, if_pos (htype first (by simp)), hs]
    change element.dropLoop _ (second :: rest) (element.takeDrag first.2 value s) = none
    rw [dropLoop, if_pos (htype second (by simp)), takeDrag_activeDrag]

theorem mem_mouseListeners {listener : MouseListener (DropState V L)}
    (h : listener ∈ element.mouseListeners typeId) : listener = element.onMouseUp typeId := by
  rw [mouseListeners] at h
  split_ifs at h
  · cases h
  · exact List.mem_singleton.mp h

theorem mouseListeners_of_listens {dragStateType : T} (h : element.listens dragStateType = true) :
    element.mouseListeners typeId = [element.onMouseUp typeId] := by
  refine if_neg fun hempty => ((listens_iff dragStateType).mp h).2 ?_
  rw [listenersOf, List.isEmpty_iff.mp hempty, List.filter_nil]

end DropElement

/-! ## The elements under the mouse -/

variable {typeId} {value : V}

theorem mem_listeners {elements : List (DropElement V T L)}
    {listener : MouseListener (DropState V L)}
    (h : listener ∈ elements.flatMap (·.mouseListeners typeId)) :
    ∃ element ∈ elements, listener = element.onMouseUp typeId := by
  obtain ⟨element, helement, hlistener⟩ := List.mem_flatMap.mp h
  exact ⟨element, helement, DropElement.mem_mouseListeners hlistener⟩

/-- Elements in front that do not listen are passed over. -/
theorem bubbleDrop_append {front : List (DropElement V T L)}
    (hfront : ∀ element ∈ front, element.listens (typeId value) = false)
    (behind : List (DropElement V T L)) :
    bubbleDrop typeId (front ++ behind) (.dragging value) =
      bubbleDrop typeId behind (.dragging value) := by
  rw [bubbleDrop, List.flatMap_append]
  refine dispatchPhase_append_of_idle rfl (fun listener hlistener => ?_) _
  obtain ⟨element, helement, rfl⟩ := mem_listeners hlistener
  exact DropElement.onMouseUp_of_not_listens rfl (hfront element helement) _

/-- Without a drag, the bubble phase does nothing. -/
theorem bubbleDrop_of_none (elements : List (DropElement V T L)) {s : DropState V L}
    (hs : s.activeDrag = none) (hpropagate : s.propagateEvent = true) :
    bubbleDrop typeId elements s = some s := by
  have hidle : ∀ listener ∈ elements.flatMap (·.mouseListeners typeId),
      listener .bubble s = some s := by
    intro listener hlistener
    obtain ⟨element, -, rfl⟩ := mem_listeners hlistener
    exact DropElement.onMouseUp_of_none hs _
  have h := dispatchPhase_append_of_idle hpropagate hidle []
  rwa [List.append_nil, dispatchPhase] at h

/-- The only listener of the frontmost listening element takes the drag, and with it the event ends
or the drag is gone. -/
theorem bubbleDrop_of_singleton {element : DropElement V T L}
    (h : element.listens (typeId value) = true) {listener : T × L}
    (hlistener : element.listenersOf (typeId value) = [listener])
    (behind : List (DropElement V T L)) :
    bubbleDrop typeId (element :: behind) (.dragging value) =
      some (element.takeDrag listener.2 value (.dragging value)) := by
  rw [bubbleDrop, List.flatMap_cons, DropElement.mouseListeners_of_listens h,
    List.singleton_append, dispatchPhase_cons (DropElement.onMouseUp_of_singleton rfl h hlistener)]
  refine ite_eq_right_iff.mpr fun hpropagate => ?_
  exact bubbleDrop_of_none behind (DropElement.takeDrag_activeDrag _) hpropagate

/-- With more than one listener of the type, the frontmost listening element panics. -/
theorem bubbleDrop_of_many {element : DropElement V T L}
    (h : element.listens (typeId value) = true)
    (hmany : (element.listenersOf (typeId value)).length ≠ 1)
    (behind : List (DropElement V T L)) :
    bubbleDrop typeId (element :: behind) (.dragging value) = none := by
  rw [bubbleDrop, List.flatMap_cons, DropElement.mouseListeners_of_listens h,
    List.singleton_append,
    dispatchPhase_cons_of_panic (DropElement.onMouseUp_of_many rfl h hmany)]

theorem reverse_listeners (elements : List (DropElement V T L)) :
    (elements.flatMap (·.mouseListeners typeId)).reverse =
      elements.reverse.flatMap (·.mouseListeners typeId) := by
  rw [List.reverse_flatMap]
  congr 1
  funext element
  rw [Function.comp_apply, DropElement.mouseListeners]
  split_ifs <;> rfl

/-- In the capture phase nothing happens. -/
theorem dispatch_eq_bubbleDrop (elements : List (DropElement V T L)) :
    dispatchMouseEvent DropState.propagateEvent (elements.flatMap (·.mouseListeners typeId))
      (.dragging value) = bubbleDrop typeId elements.reverse (.dragging value) := by
  rw [bubbleDrop, ← reverse_listeners]
  refine dispatchMouseEvent_of_idle rfl fun listener hlistener => ?_
  obtain ⟨element, -, rfl⟩ := mem_listeners hlistener
  rfl

/-- What comes out of the bubble phase goes on to the end of the drag. -/
theorem releaseMouse_of_bubbleDrop {elements : List (DropElement V T L)} {s : DropState V L}
    (h : bubbleDrop typeId elements.reverse (.dragging value) = some s) :
    ∃ s', releaseMouse typeId elements (.dragging value) = some s' ∧
      s'.delivered = s.delivered := by
  rw [releaseMouse, dispatch_eq_bubbleDrop, h]
  refine ⟨_, rfl, ?_⟩
  split_ifs <;> rfl

theorem releaseMouse_of_panic {elements : List (DropElement V T L)}
    (h : bubbleDrop typeId elements.reverse (.dragging value) = none) :
    releaseMouse typeId elements (.dragging value) = none := by
  rw [releaseMouse, dispatch_eq_bubbleDrop, h]

/-- Elements that do not listen are no targets. -/
theorem dropTarget_of_front {elements front behind : List (DropElement V T L)}
    (helements : elements.reverse = front ++ behind)
    (hfront : ∀ element ∈ front, element.listens (typeId value) = false) :
    dropTarget typeId elements value =
      behind.find? fun element => element.listens (typeId value) && element.canDrop value := by
  have hnone : front.find? (fun element => element.listens (typeId value) &&
      element.canDrop value) = none := by
    refine List.find?_eq_none.mpr fun element helement => ?_
    simp [hfront element helement]
  rw [dropTarget, helements, List.find?_append, hnone, Option.none_or]

/-- Nothing is dropped where nothing listens. -/
theorem drops_of_none {elements : List (DropElement V T L)}
    (hnone : ∀ element ∈ elements.reverse, element.listens (typeId value) = false) :
    Drops typeId elements value where
  delivers := by
    have hbubble : bubbleDrop typeId elements.reverse (.dragging value) =
        some (.dragging value) := by
      have h := bubbleDrop_append hnone []
      rwa [List.append_nil] at h
    obtain ⟨s, hs, hdelivered⟩ := releaseMouse_of_bubbleDrop hbubble
    refine ⟨s, hs, by simp [hdelivered, DropState.dragging], fun htarget => ?_⟩
    rw [dropTarget_of_front (List.append_nil _).symm hnone] at htarget
    cases htarget
  leaves := by
    intro front element behind helements hlistens
    rw [hnone element (by simp [helements])] at hlistens
    cases hlistens

/-- Of two places in a list, the one whose element is not before the other comes later. -/
theorem exists_front_append {E : Type} {front rest front' rest' : List E} {a b : E}
    (h : front ++ a :: rest = front' ++ b :: rest') (hne : a ≠ b) (hmem : b ∉ front) :
    ∃ mid, front' = front ++ a :: mid := by
  obtain ⟨mid, rfl, hmid⟩ | ⟨mid, rfl, hmid⟩ := List.append_eq_append_iff.mp h
  · cases mid with
    | nil => exact absurd (List.cons.inj hmid).1 hne
    | cons head mid =>
      obtain ⟨rfl, -⟩ := List.cons.inj hmid
      exact ⟨mid, rfl⟩
  · cases mid with
    | nil => exact absurd (List.cons.inj hmid).1.symm hne
    | cons head mid =>
      obtain ⟨rfl, -⟩ := List.cons.inj hmid
      exact absurd (by simp) hmem

section Frontmost

variable {elements front behind : List (DropElement V T L)} {element : DropElement V T L}
  (helements : elements.reverse = front ++ element :: behind)
  (hfront : ∀ element ∈ front, element.listens (typeId value) = false)
  (hlistens : element.listens (typeId value) = true)

include helements hfront hlistens

/-- A frontmost listening element that accepts the value is the target and gets it. -/
theorem drops_of_canDrop (hcan : element.canDrop value = true) {listener : T × L}
    (hlistener : element.listenersOf (typeId value) = [listener]) :
    Drops typeId elements value where
  delivers := by
    have hbubble : bubbleDrop typeId elements.reverse (.dragging value) =
        some (element.takeDrag listener.2 value (.dragging value)) := by
      rw [helements, bubbleDrop_append hfront, bubbleDrop_of_singleton hlistens hlistener]
    have htarget : dropTarget typeId elements value = some element := by
      rw [dropTarget_of_front helements hfront]
      exact List.find?_cons_of_pos (by simp [hlistens, hcan])
    obtain ⟨s, hs, hdelivered⟩ := releaseMouse_of_bubbleDrop hbubble
    have honly : s.delivered = [⟨element.hitboxId, listener.2, value⟩] := by
      rw [hdelivered, DropElement.takeDrag, if_pos hcan]
      rfl
    refine ⟨s, hs, fun delivery hdelivery => ?_, fun _ => by simp [honly]⟩
    rw [honly, List.mem_singleton] at hdelivery
    exact ⟨element, htarget, listener, by simp [hlistener], hdelivery⟩
  leaves := by
    -- An element that rejects the value is behind the target, where the event never comes.
    intro front' element' behind' helements' hlistens' hreject s s' hs hs'
    have hend : ∀ rest, bubbleDrop typeId (front ++ element :: rest) (.dragging value) =
        some (element.takeDrag listener.2 value (.dragging value)) := fun rest => by
      rw [bubbleDrop_append hfront, bubbleDrop_of_singleton hlistens hlistener]
    obtain ⟨rest, rfl⟩ : ∃ rest, front' = front ++ element :: rest := by
      refine exists_front_append (helements.symm.trans helements') ?_ fun hmem => ?_
      · rintro rfl
        rw [hcan] at hreject
        cases hreject
      · rw [hfront element' hmem] at hlistens'
        cases hlistens'
    rw [hend] at hs
    rw [List.append_assoc, List.cons_append, hend] at hs'
    rw [← Option.some.inj hs, ← Option.some.inj hs']

/-- Where drops come out as they should, the frontmost listening element has no second listener of
the type. -/
theorem Drops.exists_singleton (h : Drops typeId elements value) :
    ∃ listener, element.listenersOf (typeId value) = [listener] := by
  refine List.length_eq_one_iff.mp ?_
  by_contra hmany
  obtain ⟨s, hs, -⟩ := h.delivers
  rw [releaseMouse_of_panic] at hs
  · cases hs
  · rw [helements, bubbleDrop_append hfront, bubbleDrop_of_many hlistens hmany]

/-- Where drops come out as they should, the frontmost listening element accepts the value. -/
theorem Drops.canDrop (h : Drops typeId elements value) : element.canDrop value = true := by
  obtain ⟨listener, hlistener⟩ := h.exists_singleton helements hfront hlistens
  by_contra hreject
  rw [Bool.not_eq_true] at hreject
  have hbefore : bubbleDrop typeId front (.dragging value) = some (.dragging value) := by
    have h := bubbleDrop_append hfront []
    rwa [List.append_nil] at h
  have hafter : bubbleDrop typeId (front ++ [element]) (.dragging value) =
      some (element.takeDrag listener.2 value (.dragging value)) := by
    rw [bubbleDrop_append hfront, bubbleDrop_of_singleton hlistens hlistener]
  have hkept := h.leaves front element behind helements hlistens hreject _ _ hbefore hafter
  rw [DropElement.takeDrag_activeDrag] at hkept
  cases hkept

end Frontmost

/-- Releases come out as they should where the frontmost element that listens to drags of the type
accepts the value, with a single listener. A second listener finds the drag taken, and an element
that rejects the value does not put it back. -/
theorem drops_iff (typeId : V → T) (elements : List (DropElement V T L)) (value : V) :
    Drops typeId elements value ↔
      ∀ element, frontmostListening typeId elements value = some element →
        element.canDrop value = true ∧ (element.listenersOf (typeId value)).length = 1 := by
  constructor
  · intro h element hfrontmost
    obtain ⟨hlistens, front, behind, helements, hfront⟩ :=
      List.find?_eq_some_iff_append.mp hfrontmost
    have hfront' : ∀ element ∈ front, element.listens (typeId value) = false :=
      fun element helement => by simpa using hfront element helement
    obtain ⟨listener, hlistener⟩ := h.exists_singleton helements hfront' hlistens
    exact ⟨h.canDrop helements hfront' hlistens, by simp [hlistener]⟩
  · intro h
    cases hfrontmost : frontmostListening typeId elements value with
    | none =>
      refine drops_of_none fun element helement => ?_
      simpa using List.find?_eq_none.mp hfrontmost element helement
    | some element =>
      obtain ⟨hlistens, front, behind, helements, hfront⟩ :=
        List.find?_eq_some_iff_append.mp hfrontmost
      obtain ⟨hcan, hlength⟩ := h element hfrontmost
      obtain ⟨listener, hlistener⟩ := List.length_eq_one_iff.mp hlength
      exact drops_of_canDrop helements
        (fun element helement => by simpa using hfront element helement) hlistens hcan hlistener

/-- An element with two listeners of the type panics, and an element in front that rejects the
value keeps it from the one behind that accepts it. -/
theorem drag_taken_twice_or_lost :
    let twice : DropElement ℕ ℕ ℕ := ⟨0, true, [(0, 10), (0, 11)], none⟩
    let accepting : DropElement ℕ ℕ ℕ := ⟨1, true, [(0, 20)], none⟩
    let rejecting : DropElement ℕ ℕ ℕ := ⟨2, true, [(0, 30)], some fun _ => false⟩
    releaseMouse (fun _ => 0) [twice] (.dragging 7) = none ∧
      (releaseMouse (fun _ => 0) [accepting, rejecting] (.dragging 7)).map DropState.delivered =
        some [] ∧
      ¬ Drops (fun _ => 0) [twice] 7 ∧ ¬ Drops (fun _ => 0) [accepting, rejecting] 7 := by
  intro twice accepting rejecting
  refine ⟨rfl, rfl, fun h => ?_, fun h => ?_⟩
  · obtain ⟨s, hs, -⟩ := h.delivers
    cases hs
  · obtain ⟨s, hs, -, hdelivered⟩ := h.delivers
    obtain rfl := Option.some.inj hs
    exact hdelivered rfl rfl

end Lucie.Div
