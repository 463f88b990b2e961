import Lucie.Window.Slices

/-!
# Rendering without reuse

While a view is rendered the window is refreshing, so that no view in it is taken over from
the rendered frame. Prepainting then appends exactly the output of the calls, and leaves a state
and a held element for each cached view. Painting the same views appends the output of their
paints. The inductions are on the calls.
-/

set_option autoImplicit false

namespace Lucie.Drawing

variable {D K : Type}

/-- A part of a prepaint has appended to the vectors of the next frame. Of the rendered frame
it may have taken states and tooltip requests. -/
structure Adds (w w' : Window D K) (part : Prepainted D) (ids : List GlobalElementId) :
    Prop where
  prepainted : w'.nextFrame.prepainted = w.nextFrame.prepainted ++ part
  accessed : w'.nextFrame.accessedElementStates = w.nextFrame.accessedElementStates ++ ids
  deferred : w'.nextFrame.deferredDraws = w.nextFrame.deferredDraws
  painted : w'.nextFrame.painted = w.nextFrame.painted
  renderedHitboxes : w'.renderedFrame.hitboxes = w.renderedFrame.hitboxes
  renderedAccessed :
    w'.renderedFrame.accessedElementStates = w.renderedFrame.accessedElementStates
  renderedDeferred : w'.renderedFrame.deferredDraws = w.renderedFrame.deferredDraws
  renderedPainted : w'.renderedFrame.painted = w.renderedFrame.painted
  dirtyViews : w'.dirtyViews = w.dirtyViews
  focus : w'.focus = w.focus

namespace Adds

variable {w w' w'' : Window D K} {part part' : Prepainted D} {ids ids' : List GlobalElementId}

theorem trans (h : Adds w w' part ids) (h' : Adds w' w'' part' ids') :
    Adds w w'' (part ++ part') (ids ++ ids') where
  prepainted := by rw [h'.prepainted, h.prepainted, Prepainted.append_assoc]
  accessed := by rw [h'.accessed, h.accessed, List.append_assoc]
  deferred := h'.deferred.trans h.deferred
  painted := h'.painted.trans h.painted
  renderedHitboxes := h'.renderedHitboxes.trans h.renderedHitboxes
  renderedAccessed := h'.renderedAccessed.trans h.renderedAccessed
  renderedDeferred := h'.renderedDeferred.trans h.renderedDeferred
  renderedPainted := h'.renderedPainted.trans h.renderedPainted
  dirtyViews := h'.dirtyViews.trans h.dirtyViews
  focus := h'.focus.trans h.focus

/-- What was appended is the part in the range between the indices. -/
theorem recorded (h : Adds w w' part ids) {id : GlobalElementId}
    (hids : ∀ other ∈ ids, id <:+ other) :
    w'.nextFrame.HasPrepainted ⟨w.prepaintIndex, w'.prepaintIndex⟩ id part := by
  have hitboxes := congrArg Prepainted.hitboxes h.prepainted
  have tooltips := congrArg Prepainted.tooltipRequests h.prepainted
  have hhitboxes := congrArg List.length hitboxes
  have htooltips := congrArg List.length tooltips
  simp only [Frame.prepainted, Prepainted.append_def, List.length_map, List.length_append]
    at hhitboxes htooltips
  constructor
  · refine Prepainted.slice_eq_some_iff.mpr ⟨?_, ?_⟩
    · rw [hitboxes]
      have hslice := slice_appended w.nextFrame.prepainted.hitboxes part.hitboxes
      simpa [Window.prepaintIndex, Frame.prepainted, Prepainted.append_def, hhitboxes] using hslice
    · rw [tooltips]
      have hslice := slice_appended w.nextFrame.prepainted.tooltipRequests part.tooltipRequests
      simpa [Window.prepaintIndex, Frame.prepainted, Prepainted.append_def, htooltips] using hslice
  · refine ⟨ids, ?_, hids⟩
    simpa [Window.prepaintIndex, h.accessed] using
      slice_appended w.nextFrame.accessedElementStates ids
  · simpa [Window.prepaintIndex, h.deferred] using slice_appended w.nextFrame.deferredDraws []

/-- A part that was prepainted before. -/
theorem keeps (h : Adds w w' part ids) {range : Span PrepaintStateIndex} {id : GlobalElementId}
    (hpart : w.nextFrame.HasPrepainted range id part') :
    w'.nextFrame.HasPrepainted range id part' := by
  obtain ⟨others, hothers, hinside⟩ := hpart.accessed
  constructor
  · rw [h.prepainted]
    exact Prepainted.slice_grown part hpart.prepainted
  · refine ⟨others, ?_, hinside⟩
    rw [h.accessed]
    exact slice_grown ids hothers
  · rw [h.deferred]
    exact hpart.deferred

/-- A part of the rendered frame, if its tooltip requests are there. -/
theorem keepsRendered (h : Adds w w' part ids) {range : Span PrepaintStateIndex}
    {id : GlobalElementId} (hpart : w.renderedFrame.HasPrepainted range id part')
    (htooltips : w'.renderedFrame.prepainted.slice range = w.renderedFrame.prepainted.slice range) :
    w'.renderedFrame.HasPrepainted range id part' := by
  constructor
  · rw [htooltips]
    exact hpart.prepainted
  · rw [h.renderedAccessed]
    exact hpart.accessed
  · rw [h.renderedDeferred]
    exact hpart.deferred

end Adds

/-- Leaving an element takes its id from the stack. -/
theorem Window.elementIdStack_leave {w : Window D K} {id : Option ElementId}
    {stack : GlobalElementId} (h : w.elementIdStack = id.toList ++ stack) :
    (w.leave id).elementIdStack = stack := by
  change w.elementIdStack.drop id.toList.length = stack
  rw [h]
  exact List.drop_left

/-- Calls were made with every cached view in them rendered. -/
structure Renders (w w' : Window D K) (part : Prepainted D) (ids : List GlobalElementId) : Prop
    extends Adds w w' part ids where
  renderedTooltips : w'.renderedFrame.tooltipRequests = w.renderedFrame.tooltipRequests
  views : ∀ id ∈ ids, (w'.nextFrame.elementStates id).isSome ∧ w'.held id = true
  others : ∀ id ∉ ids, w'.nextFrame.elementStates id = w.nextFrame.elementStates id ∧
    w'.renderedFrame.elementStates id = w.renderedFrame.elementStates id ∧ w'.held id = w.held id
  elementIdStack : w'.elementIdStack = w.elementIdStack
  refreshing : w'.refreshing = w.refreshing

namespace Renders

variable {w w' w'' : Window D K} {part part' : Prepainted D} {ids ids' : List GlobalElementId}

/-- A change of the window that only appends to the prepainted vectors. -/
theorem of_append {hitboxes : List (Hitbox D)} {tooltips : List (Option (TooltipRequest D))}
    {focus : Option FocusId} {tree : DispatchTree D} {hitboxId tooltipId : ℕ}
    (hhitboxes : hitboxes.map (·.data) = w.nextFrame.prepainted.hitboxes ++ part.hitboxes)
    (htooltips : tooltips.map (Option.map (·.tooltip)) =
      w.nextFrame.prepainted.tooltipRequests ++ part.tooltipRequests) :
    Renders w { w with
      nextHitboxId := hitboxId
      nextTooltipId := tooltipId
      nextFrame := { w.nextFrame with
        hitboxes := hitboxes
        tooltipRequests := tooltips
        focus := focus
        dispatchTree := tree } } part [] where
  prepainted := Prepainted.ext hhitboxes htooltips
  accessed := (List.append_nil _).symm
  deferred := rfl
  painted := rfl
  renderedHitboxes := rfl
  renderedAccessed := rfl
  renderedDeferred := rfl
  renderedPainted := rfl
  dirtyViews := rfl
  focus := rfl
  renderedTooltips := rfl
  views := fun _ hid => absurd hid List.not_mem_nil
  others := fun _ _ => ⟨rfl, rfl, rfl⟩
  elementIdStack := rfl
  refreshing := rfl

theorem trans (h : Renders w w' part ids) (h' : Renders w' w'' part' ids') :
    Renders w w'' (part ++ part') (ids ++ ids') where
  toAdds := h.toAdds.trans h'.toAdds
  renderedTooltips := h'.renderedTooltips.trans h.renderedTooltips
  views := by
    intro id hid
    by_cases hid' : id ∈ ids'
    · exact h'.views id hid'
    · obtain ⟨hnext, -, hheld⟩ := h'.others id hid'
      rw [hnext, hheld]
      exact h.views id ((List.mem_append.mp hid).resolve_right hid')
  others := by
    intro id hid
    rw [List.mem_append, not_or] at hid
    obtain ⟨hnext, hrendered, hheld⟩ := h.others id hid.1
    obtain ⟨hnext', hrendered', hheld'⟩ := h'.others id hid.2
    exact ⟨hnext'.trans hnext, hrendered'.trans hrendered, hheld'.trans hheld⟩
  elementIdStack := h'.elementIdStack.trans h.elementIdStack
  refreshing := h'.refreshing.trans h.refreshing

/-- What is rendered within an element. -/
theorem nested (id : Option ElementId) (h : Renders (w.enter id) w' part ids) :
    Renders w (w'.leave id) part ids where
  prepainted := h.prepainted
  accessed := h.accessed
  deferred := h.deferred
  painted := h.painted
  renderedHitboxes := h.renderedHitboxes
  renderedAccessed := h.renderedAccessed
  renderedDeferred := h.renderedDeferred
  renderedPainted := h.renderedPainted
  dirtyViews := h.dirtyViews
  focus := h.focus
  renderedTooltips := h.renderedTooltips
  views := h.views
  others := h.others
  elementIdStack := Window.elementIdStack_leave h.elementIdStack
  refreshing := h.refreshing

end Renders

/-- A cached view was prepainted: its state has the range of its part in the next frame, and
is not in the rendered frame any more. -/
structure Records (w w' : Window D K) (id : GlobalElementId) (cacheKey : K)
    (part : Prepainted D) (state : AnyViewState K) : Prop where
  found : w'.nextFrame.elementStates id = some state
  cacheKey : state.cacheKey = cacheKey
  recorded : w'.nextFrame.HasPrepainted state.prepaintRange id part
  start : state.prepaintRange.start.tooltipsIndex = w.nextFrame.tooltipRequests.length
  stop : state.prepaintRange.stop.tooltipsIndex = w'.nextFrame.tooltipRequests.length
  taken : w.nextFrame.elementStates id = none → w'.renderedFrame.elementStates id = none

namespace Window

/-- The window when the closure of a cached view is called. -/
def openView (w : Window D K) (entity : EntityId) : Window D K :=
  ((w.enter (some (.view entity))).setViewId entity).takeElementState
    (.view entity :: w.elementIdStack)

/-- The window after the closure of a cached view has returned. -/
def closeView (w : Window D K) (id : GlobalElementId) (held : Bool) (state : AnyViewState K) :
    Window D K :=
  { w.putElementState id state with held := Function.update w.held id held }.leave
    (id.head?)

theorem openView_adds (w : Window D K) (entity : EntityId) :
    Adds w (w.openView entity) .empty [.view entity :: w.elementIdStack] where
  prepainted := (Prepainted.append_empty _).symm
  accessed := rfl
  deferred := rfl
  painted := rfl
  renderedHitboxes := rfl
  renderedAccessed := rfl
  renderedDeferred := rfl
  renderedPainted := rfl
  dirtyViews := rfl
  focus := rfl

/-- The state of the view itself is taken. -/
theorem openView_state (w : Window D K) (entity : EntityId) :
    (w.openView entity).nextFrame.elementStates (.view entity :: w.elementIdStack) = none ∧
      (w.nextFrame.elementStates (.view entity :: w.elementIdStack) = none →
        (w.openView entity).renderedFrame.elementStates (.view entity :: w.elementIdStack) =
          none) := by
  refine ⟨Function.update_self .., ?_⟩
  intro hnext
  change (if (w.nextFrame.elementStates _).isSome then w.renderedFrame.elementStates
    else Function.update w.renderedFrame.elementStates _ none) _ = none
  rw [hnext]
  exact Function.update_self ..

theorem openView_states {w : Window D K} {entity : EntityId} {other : GlobalElementId}
    (h : other ≠ .view entity :: w.elementIdStack) :
    (w.openView entity).nextFrame.elementStates other = w.nextFrame.elementStates other ∧
      (w.openView entity).renderedFrame.elementStates other =
        w.renderedFrame.elementStates other := by
  refine ⟨Function.update_of_ne h .., ?_⟩
  change (if (w.nextFrame.elementStates _).isSome then w.renderedFrame.elementStates
    else Function.update w.renderedFrame.elementStates _ none) other = _
  split_ifs
  · rfl
  · exact Function.update_of_ne h ..

theorem closeView_adds (w : Window D K) (id : GlobalElementId) (held : Bool)
    (state : AnyViewState K) : Adds w (w.closeView id held state) .empty [] where
  prepainted := (Prepainted.append_empty _).symm
  accessed := (List.append_nil _).symm
  deferred := rfl
  painted := rfl
  renderedHitboxes := rfl
  renderedAccessed := rfl
  renderedDeferred := rfl
  renderedPainted := rfl
  dirtyViews := rfl
  focus := rfl

theorem closeView_state (w : Window D K) (id : GlobalElementId) (held : Bool)
    (state : AnyViewState K) :
    (w.closeView id held state).nextFrame.elementStates id = some state ∧
      (w.closeView id held state).held id = held :=
  ⟨Function.update_self .., Function.update_self ..⟩

theorem closeView_states {w : Window D K} {id other : GlobalElementId} {held : Bool}
    {state : AnyViewState K} (h : other ≠ id) :
    (w.closeView id held state).nextFrame.elementStates other = w.nextFrame.elementStates other ∧
      (w.closeView id held state).held other = w.held other :=
  ⟨Function.update_of_ne h .., Function.update_of_ne h ..⟩

theorem elementIdStack_closeView {w : Window D K} {id : ElementId} {stack : GlobalElementId}
    {held : Bool} {state : AnyViewState K} (h : w.elementIdStack = id :: stack) :
    (w.closeView (id :: stack) held state).elementIdStack = stack :=
  elementIdStack_leave h

end Window

namespace Prepaint

variable [DecidableEq K]

/-- A cached view calls its closure between two changes of the window. -/
theorem run_cachedView (w : Window D K) (entity : EntityId) (cacheKey : K)
    (children : List (Prepaint D K)) :
    run (cachedView entity cacheKey children) w =
      (Window.prepaintCached entity cacheKey (fun w => runAll children w)
        (w.elementState (.view entity :: w.elementIdStack)) (w.openView entity)).map
        fun r => r.2.2.closeView (.view entity :: w.elementIdStack) r.1 r.2.1 := by
  simp only [run, Window.prepaintView, Window.withElementState, Option.map_map]
  rfl

omit [DecidableEq K] in
/-- The ids of the views in calls are longer than the stack that they start with. -/
theorem viewIds_inside : (∀ (call : Prepaint D K) (stack : GlobalElementId),
      ∀ id ∈ call.viewIds stack, stack <:+ id ∧ stack.length < id.length) ∧
    ∀ (calls : List (Prepaint D K)) (stack : GlobalElementId),
      ∀ id ∈ viewIdsAll stack calls, stack <:+ id ∧ stack.length < id.length := by
  apply Prepaint.induction
  case insertHitbox | setTooltip | setFocusHandle | setViewId => simp [viewIds]
  case deferDraw => simp [viewIds]
  case nil => simp [viewIdsAll]
  case element =>
    intro elementId children ih stack id hid
    exact inside_of_append (ih _ id (by simpa only [viewIds] using hid))
  case cachedView =>
    intro entity cacheKey children ih stack id hid
    rw [viewIds, List.mem_cons] at hid
    obtain rfl | hid := hid
    · exact ⟨List.suffix_cons _ _, by simp⟩
    · exact @inside_of_append [.view entity] stack id (ih _ id hid)
  case cons =>
    intro call calls hcall hcalls stack id hid
    rw [viewIdsAll, List.mem_append] at hid
    exact hid.elim (hcall stack id) (hcalls stack id)

/-- The calls are rendered whenever the window is refreshing. -/
def RendersAlways (calls : List (Prepaint D K)) : Prop :=
  ∀ w : Window D K, w.refreshing = true → ∃ w', runAll calls w = some w' ∧
    Renders w w' (outputAll calls) (viewIdsAll w.elementIdStack calls)

/-- A cached view that is not reused: its children are rendered, and the state has the range
of their part. -/
theorem RendersAlways.view {w : Window D K} {entity : EntityId} {cacheKey : K}
    {children : List (Prepaint D K)} (h : RendersAlways children)
    (hreuse : (w.openView entity).reusable entity cacheKey
      (w.elementState (.view entity :: w.elementIdStack)) = none) :
    ∃ w' state, run (cachedView entity cacheKey children) w = some w' ∧
      Renders w w' (outputAll children)
        (viewIds w.elementIdStack (cachedView entity cacheKey children)) ∧
      Records w w' (.view entity :: w.elementIdStack) cacheKey (outputAll children) state := by
  let id : GlobalElementId := .view entity :: w.elementIdStack
  obtain ⟨rendered, hrun, hrendered⟩ := h { w.openView entity with refreshing := true } rfl
  change Renders _ rendered _ (viewIdsAll id children) at hrendered
  have hinside := viewIds_inside.2 children id
  have hid : id ∉ viewIdsAll id children := fun hmem => (hinside id hmem).2.false
  let state : AnyViewState K :=
    ⟨⟨(w.openView entity).prepaintIndex, rendered.prepaintIndex⟩, ⟨.zero, .zero⟩, cacheKey⟩
  let back : Window D K := { rendered with refreshing := w.refreshing }
  have hback : Adds (w.openView entity) back (outputAll children) (viewIdsAll id children) :=
    { hrendered.toAdds with }
  have hclose := back.closeView_adds id true state
  have hadds := ((w.openView_adds entity).trans hback).trans hclose
  obtain ⟨-, hopened, -⟩ := hrendered.others id hid
  refine ⟨back.closeView id true state, state, ?_, ⟨?_, ?_, ?_, ?_, ?_, ?_⟩,
    ⟨?_, rfl, ?_, rfl, rfl, ?_⟩⟩
  · rw [run_cachedView, Window.prepaintCached, hreuse]
    simp only [hrun, Option.bind_eq_bind, Option.bind_some, Option.map_some]
    rfl
  · simpa [viewIds] using hadds
  · exact hrendered.renderedTooltips
  · intro other hother
    by_cases heq : other = id
    · rw [heq, (back.closeView_state id true state).1, (back.closeView_state id true state).2]
      exact ⟨rfl, rfl⟩
    · rw [(Window.closeView_states heq).1, (Window.closeView_states heq).2]
      exact hrendered.views other ((List.mem_cons.mp hother).resolve_left heq)
  · intro other hother
    rw [viewIds, List.mem_cons, not_or] at hother
    obtain ⟨hnext, hbefore, hheld⟩ := hrendered.others other hother.2
    obtain ⟨hnext', hbefore'⟩ := Window.openView_states hother.1
    rw [(Window.closeView_states hother.1).1, (Window.closeView_states hother.1).2]
    exact ⟨hnext.trans hnext', hbefore.trans hbefore', hheld⟩
  · exact Window.elementIdStack_closeView hrendered.elementIdStack
  · rfl
  · exact (back.closeView_state id true state).1
  · refine hclose.keeps (hback.recorded ?_)
    intro other hother
    exact (hinside other hother).1
  · intro hnone
    exact hopened.trans ((w.openView_state entity).2 hnone)

/-- A call that is neither an element nor a view, and defers no draw, appends its output. -/
theorem run_leaf {call : Prepaint D K} (helement : ∀ id children, call ≠ element id children)
    (hview : ∀ entity cacheKey children, call ≠ cachedView entity cacheKey children)
    (hdefers : call.defers = false) (w : Window D K) :
    ∃ w', run call w = some w' ∧ Renders w w' call.output [] := by
  cases call with
  | element id children => exact absurd rfl (helement id children)
  | cachedView entity cacheKey children => exact absurd rfl (hview entity cacheKey children)
  | deferDraw content inherited priority => cases hdefers
  | _ => exact ⟨_, rfl, .of_append (by simp [output, Frame.prepainted, Prepainted.empty])
      (by simp [output, Frame.prepainted, Prepainted.empty])⟩

/-- In a refreshing window all calls are rendered. -/
theorem rendersAlways : (∀ call : Prepaint D K, call.defers = false →
      ∀ w : Window D K, w.refreshing = true → ∃ w', run call w = some w' ∧
        Renders w w' call.output (call.viewIds w.elementIdStack)) ∧
    ∀ calls : List (Prepaint D K), defersAny calls = false → RendersAlways calls := by
  apply Prepaint.induction
  case insertHitbox =>
    intro data hdefers w _
    exact run_leaf (by simp) (by simp) hdefers w
  case setTooltip =>
    intro tooltip hdefers w _
    exact run_leaf (by simp) (by simp) hdefers w
  case setFocusHandle =>
    intro id hdefers w _
    exact run_leaf (by simp) (by simp) hdefers w
  case setViewId =>
    intro id hdefers w _
    exact run_leaf (by simp) (by simp) hdefers w
  case deferDraw =>
    intro content inherited priority hdefers
    cases hdefers
  case element =>
    intro id children ih hdefers w hrefreshing
    obtain ⟨w', hrun, hrenders⟩ := ih hdefers (w.enter id) hrefreshing
    refine ⟨w'.leave id, ?_, hrenders.nested⟩
    rw [run, hrun, Option.map_some]
  case cachedView =>
    intro entity cacheKey children ih hdefers w hrefreshing
    have hreuse : (w.openView entity).reusable entity cacheKey
        (w.elementState (.view entity :: w.elementIdStack)) = none := by
      simp [Window.reusable, Window.openView, Window.takeElementState, Window.setViewId,
        Window.enter, Window.updateTree, hrefreshing]
    obtain ⟨w', -, hrun, hrenders, -⟩ := (ih hdefers).view hreuse
    exact ⟨w', hrun, hrenders⟩
  case nil =>
    intro _ w _
    refine ⟨w, rfl, .of_append ?_ ?_⟩
    · simp [outputAll, Frame.prepainted, Prepainted.empty]
    · simp [outputAll, Frame.prepainted, Prepainted.empty]
  case cons =>
    intro call calls hcall hcalls hdefers w hrefreshing
    rw [defersAny, Bool.or_eq_false_iff] at hdefers
    obtain ⟨w', hrun, hrenders⟩ := hcall hdefers.1 w hrefreshing
    obtain ⟨w'', hrun', hrenders'⟩ := hcalls hdefers.2 w' (hrenders.refreshing.trans hrefreshing)
    rw [hrenders.elementIdStack] at hrenders'
    refine ⟨w'', ?_, hrenders.trans hrenders'⟩
    rw [runAll, hrun, Option.bind_some, hrun']

end Prepaint

end Lucie.Drawing
