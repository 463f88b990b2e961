import Lucie.Window.Rendering

/-!
# Painting what was rendered

The cached views that were rendered in a frame hold their elements. While a view is painted the
window is refreshing, and painting views that all hold their elements appends exactly the
output of the calls. The inductions are on the calls.
-/

set_option autoImplicit false

namespace Lucie.Drawing

variable {D K : Type}

/-- A part of a paint has appended to the vectors of the next frame. Of the rendered frame it
may have taken listeners and input handlers. -/
structure AddsPaint (w w' : Window D K) (part : Painted D) (ids : List GlobalElementId) :
    Prop where
  painted : w'.nextFrame.painted = w.nextFrame.painted ++ part
  accessed : w'.nextFrame.accessedElementStates = w.nextFrame.accessedElementStates ++ ids
  prepainted : w'.nextFrame.prepainted = w.nextFrame.prepainted
  deferred : w'.nextFrame.deferredDraws = w.nextFrame.deferredDraws
  renderedAccessed :
    w'.renderedFrame.accessedElementStates = w.renderedFrame.accessedElementStates
  renderedStates : w'.renderedFrame.elementStates = w.renderedFrame.elementStates
  held : w'.held = w.held
  focus : w'.focus = w.focus

namespace AddsPaint

variable {w w' w'' : Window D K} {part part' : Painted D} {ids ids' : List GlobalElementId}

theorem trans (h : AddsPaint w w' part ids) (h' : AddsPaint w' w'' part' ids') :
    AddsPaint w w'' (part ++ part') (ids ++ ids') where
  painted := by rw [h'.painted, h.painted, Painted.append_assoc]
  accessed := by rw [h'.accessed, h.accessed, List.append_assoc]
  prepainted := h'.prepainted.trans h.prepainted
  deferred := h'.deferred.trans h.deferred
  renderedAccessed := h'.renderedAccessed.trans h.renderedAccessed
  renderedStates := h'.renderedStates.trans h.renderedStates
  held := h'.held.trans h.held
  focus := h'.focus.trans h.focus

/-- What was appended is the part in the range between the indices. -/
theorem recorded (h : AddsPaint w w' part ids) {id : GlobalElementId}
    (hids : ∀ other ∈ ids, id <:+ other) :
    w'.nextFrame.HasPainted ⟨w.paintIndex, w'.paintIndex⟩ id part := by
  have hscene := congrArg Painted.scene h.painted
  have hlisteners := congrArg Painted.mouseListeners h.painted
  have hhandlers := congrArg Painted.inputHandlers h.painted
  have hstyles := congrArg Painted.cursorStyles h.painted
  have hstops := congrArg Painted.tabStops h.painted
  simp only [Frame.painted, Painted.append_def] at hscene hlisteners hhandlers hstyles hstops
  constructor
  · rw [Painted.slice_eq_some_iff]
    simp only [Window.paintIndex, Frame.painted, hscene, hlisteners, hhandlers, hstyles, hstops,
      List.length_append, slice_appended, and_self]
  · refine ⟨ids, ?_, hids⟩
    simpa [Window.paintIndex, h.accessed] using
      slice_appended w.nextFrame.accessedElementStates ids

/-- A part that was painted before. -/
theorem keeps (h : AddsPaint w w' part ids) {range : Span PaintIndex} {id : GlobalElementId}
    (hpart : w.nextFrame.HasPainted range id part') : w'.nextFrame.HasPainted range id part' := by
  obtain ⟨others, hothers, hinside⟩ := hpart.accessed
  constructor
  · rw [h.painted]
    exact Painted.slice_grown part hpart.painted
  · refine ⟨others, ?_, hinside⟩
    rw [h.accessed]
    exact slice_grown ids hothers

/-- A part that was prepainted. -/
theorem keepsPrepainted (h : AddsPaint w w' part ids) {range : Span PrepaintStateIndex}
    {id : GlobalElementId} {prepainted : Prepainted D}
    (hpart : w.nextFrame.HasPrepainted range id prepainted) :
    w'.nextFrame.HasPrepainted range id prepainted := by
  obtain ⟨others, hothers, hinside⟩ := hpart.accessed
  constructor
  · rw [h.prepainted]
    exact hpart.prepainted
  · refine ⟨others, ?_, hinside⟩
    rw [h.accessed]
    exact slice_grown ids hothers
  · rw [h.deferred]
    exact hpart.deferred

end AddsPaint

/-- Leaving an element takes its id from the stack. -/
theorem Window.elementIdStack_leavePaint {w : Window D K} {id : Option ElementId}
    {stack : GlobalElementId} (h : w.elementIdStack = id.toList ++ stack) :
    (w.leavePaint id).elementIdStack = stack := by
  change w.elementIdStack.drop id.toList.length = stack
  rw [h]
  exact List.drop_left

/-- Calls were made with every cached view in them painted. -/
structure Paints (w w' : Window D K) (part : Painted D) (ids : List GlobalElementId) : Prop
    extends AddsPaint w w' part ids where
  renderedPainted : w'.renderedFrame.painted = w.renderedFrame.painted
  views : ∀ id, (w'.nextFrame.elementStates id).isSome = (w.nextFrame.elementStates id).isSome
  others : ∀ id ∉ ids, w'.nextFrame.elementStates id = w.nextFrame.elementStates id
  elementIdStack : w'.elementIdStack = w.elementIdStack
  refreshing : w'.refreshing = w.refreshing

namespace Paints

variable {w w' w'' : Window D K} {part part' : Painted D} {ids ids' : List GlobalElementId}

/-- A change of the window that only appends to the painted vectors. -/
theorem of_append {scene cursorStyles tabStops areas : List D}
    {mouseListeners inputHandlers : List (Option D)} {tree : DispatchTree D}
    (hpainted : ⟨scene, mouseListeners, inputHandlers, cursorStyles, tabStops⟩ =
      w.nextFrame.painted ++ part) :
    Paints w { w with nextFrame := { w.nextFrame with
      scene := scene
      mouseListeners := mouseListeners
      inputHandlers := inputHandlers
      cursorStyles := cursorStyles
      tabStops := tabStops
      windowControlHitboxes := areas
      dispatchTree := tree } } part [] where
  painted := hpainted
  accessed := (List.append_nil _).symm
  prepainted := rfl
  deferred := rfl
  renderedAccessed := rfl
  renderedStates := rfl
  held := rfl
  focus := rfl
  renderedPainted := rfl
  views := fun _ => rfl
  others := fun _ _ => rfl
  elementIdStack := rfl
  refreshing := rfl

theorem trans (h : Paints w w' part ids) (h' : Paints w' w'' part' ids') :
    Paints w w'' (part ++ part') (ids ++ ids') where
  toAddsPaint := h.toAddsPaint.trans h'.toAddsPaint
  renderedPainted := h'.renderedPainted.trans h.renderedPainted
  views := fun id => (h'.views id).trans (h.views id)
  others := by
    intro id hid
    rw [List.mem_append, not_or] at hid
    exact (h'.others id hid.2).trans (h.others id hid.1)
  elementIdStack := h'.elementIdStack.trans h.elementIdStack
  refreshing := h'.refreshing.trans h.refreshing

/-- What is painted within an element. -/
theorem nested (id : Option ElementId) {node : ℕ} (h : Paints (w.enterPaint id node) w' part ids) :
    Paints w (w'.leavePaint id) part ids where
  painted := h.painted
  accessed := h.accessed
  prepainted := h.prepainted
  deferred := h.deferred
  renderedAccessed := h.renderedAccessed
  renderedStates := h.renderedStates
  held := h.held
  focus := h.focus
  renderedPainted := h.renderedPainted
  views := h.views
  others := h.others
  elementIdStack := Window.elementIdStack_leavePaint h.elementIdStack
  refreshing := h.refreshing

end Paints

/-- A cached view was painted: its state has the range of its part in the next frame. -/
structure RecordsPaint (w w' : Window D K) (id : GlobalElementId) (part : Painted D)
    (state : AnyViewState K) (range : Span PaintIndex) : Prop where
  found : w'.nextFrame.elementStates id = some { state with paintRange := range }
  recorded : w'.nextFrame.HasPainted range id part
  startListeners : range.start.mouseListenersIndex = w.nextFrame.mouseListeners.length
  startHandlers : range.start.inputHandlersIndex = w.nextFrame.inputHandlers.length
  stopListeners : range.stop.mouseListenersIndex = w'.nextFrame.mouseListeners.length
  stopHandlers : range.stop.inputHandlersIndex = w'.nextFrame.inputHandlers.length

namespace Window

/-- The window when the closure of a cached view is called. -/
def openPaint (w : Window D K) (entity : EntityId) (node : ℕ) : Window D K :=
  (w.enterPaint (some (.view entity)) node).takeElementState (.view entity :: w.elementIdStack)

/-- The window after the closure of a cached view has returned. -/
def closePaint (w : Window D K) (id : GlobalElementId) (state : AnyViewState K) : Window D K :=
  (w.putElementState id state).leavePaint id.head?

variable {w : Window D K} {entity : EntityId} {node : ℕ} {id other : GlobalElementId}
  {state : AnyViewState K}

/-- A view that was prepainted has its state in the next frame, and is not looked up in the
rendered one. -/
theorem openPaint_adds (node : ℕ)
    (h : w.nextFrame.elementStates (.view entity :: w.elementIdStack) = some state) :
    AddsPaint w (w.openPaint entity node) .empty [.view entity :: w.elementIdStack] where
  painted := (Painted.append_empty _).symm
  accessed := rfl
  prepainted := rfl
  deferred := rfl
  renderedAccessed := rfl
  renderedStates := by
    change (if (w.nextFrame.elementStates _).isSome then w.renderedFrame.elementStates
      else Function.update w.renderedFrame.elementStates _ none) = _
    rw [h]
    rfl
  held := rfl
  focus := rfl

theorem closePaint_adds (w : Window D K) (id : GlobalElementId) (state : AnyViewState K) :
    AddsPaint w (w.closePaint id state) .empty [] where
  painted := (Painted.append_empty _).symm
  accessed := (List.append_nil _).symm
  prepainted := rfl
  deferred := rfl
  renderedAccessed := rfl
  renderedStates := rfl
  held := rfl
  focus := rfl

theorem openPaint_states (h : other ≠ .view entity :: w.elementIdStack) :
    (w.openPaint entity node).nextFrame.elementStates other = w.nextFrame.elementStates other :=
  Function.update_of_ne h ..

theorem closePaint_state : (w.closePaint id state).nextFrame.elementStates id = some state :=
  Function.update_self ..

theorem closePaint_states (h : other ≠ id) :
    (w.closePaint id state).nextFrame.elementStates other = w.nextFrame.elementStates other :=
  Function.update_of_ne h ..

theorem elementIdStack_closePaint {id : ElementId} {stack : GlobalElementId}
    (h : w.elementIdStack = id :: stack) :
    (w.closePaint (id :: stack) state).elementIdStack = stack :=
  elementIdStack_leavePaint h

end Window

namespace Paint

/-- A cached view calls its closure between two changes of the window. -/
theorem run_cachedView (w : Window D K) (entity : EntityId) (node : ℕ)
    (children : List (Paint D)) :
    run (cachedView entity node children) w =
      (Window.paintCached (w.held (.view entity :: w.elementIdStack))
        (fun w => runAll children w) (w.elementState (.view entity :: w.elementIdStack))
        (w.openPaint entity node)).map
        fun r => r.2.2.closePaint (.view entity :: w.elementIdStack) r.2.1 := by
  simp only [run, Window.paintView, Window.withElementState, Option.map_map]
  rfl

/-- The ids of the views in calls are longer than the stack that they start with. -/
theorem viewIds_inside : (∀ (call : Paint D) (stack : GlobalElementId),
      ∀ id ∈ call.viewIds stack, stack <:+ id ∧ stack.length < id.length) ∧
    ∀ (calls : List (Paint D)) (stack : GlobalElementId),
      ∀ id ∈ viewIdsAll stack calls, stack <:+ id ∧ stack.length < id.length := by
  apply Paint.induction
  case leaf =>
    intro call helement hview stack id hid
    cases call <;> simp_all [viewIds]
  case nil => simp [viewIdsAll]
  case element =>
    intro elementId node children ih stack id hid
    exact inside_of_append (ih _ id (by simpa only [viewIds] using hid))
  case cachedView =>
    intro entity node children ih stack id hid
    rw [viewIds, List.mem_cons] at hid
    obtain rfl | hid := hid
    · exact ⟨List.suffix_cons _ _, by simp⟩
    · exact @inside_of_append [.view entity] stack id (ih _ id hid)
  case cons =>
    intro call calls hcall hcalls stack id hid
    rw [viewIdsAll, List.mem_append] at hid
    exact hid.elim (hcall stack id) (hcalls stack id)

/-- The views of some ids have states and hold their elements. -/
def Ready (w : Window D K) (ids : List GlobalElementId) : Prop :=
  ∀ id ∈ ids, (w.nextFrame.elementStates id).isSome ∧ w.held id = true

/-- The calls are painted whenever the window is refreshing and all their views are ready. -/
def PaintsAlways (K : Type) (calls : List (Paint D)) : Prop :=
  ∀ w : Window D K, w.refreshing = true → Ready w (viewIdsAll w.elementIdStack calls) →
    ∃ w', runAll calls w = some w' ∧
      Paints w w' (outputAll w.focus calls) (viewIdsAll w.elementIdStack calls)

/-- A cached view that holds its element. -/
theorem PaintsAlways.view {w : Window D K} {entity : EntityId} {children : List (Paint D)}
    {state : AnyViewState K} (h : PaintsAlways K children) (node : ℕ)
    (hstate : w.nextFrame.elementStates (.view entity :: w.elementIdStack) = some state)
    (hready : Ready w (viewIds w.elementIdStack (cachedView entity node children))) :
    ∃ w' range, run (cachedView entity node children) w = some w' ∧
      Paints w w' (outputAll w.focus children)
        (viewIds w.elementIdStack (cachedView entity node children)) ∧
      RecordsPaint w w' (.view entity :: w.elementIdStack) (outputAll w.focus children) state
        range := by
  let id : GlobalElementId := .view entity :: w.elementIdStack
  have hinside := viewIds_inside.2 children id
  have hid : id ∉ viewIdsAll id children := fun hmem => (hinside id hmem).2.false
  have hchildren : Ready { w.openPaint entity node with refreshing := true }
      (viewIdsAll id children) := by
    intro other hother
    obtain ⟨hsome, hheld⟩ := hready other (by rw [viewIds]; exact List.mem_cons_of_mem _ hother)
    have hne : other ≠ id := fun heq => hid (heq ▸ hother)
    refine ⟨?_, hheld⟩
    exact (congrArg Option.isSome (Window.openPaint_states hne)).trans hsome
  obtain ⟨painted, hrun, hpainted⟩ := h { w.openPaint entity node with refreshing := true } rfl
    hchildren
  change Paints _ painted (outputAll w.focus children) (viewIdsAll id children) at hpainted
  let back : Window D K := { painted with refreshing := w.refreshing }
  let range : Span PaintIndex := ⟨(w.openPaint entity node).paintIndex, painted.paintIndex⟩
  let state' : AnyViewState K := { state with paintRange := range }
  have hback : AddsPaint (w.openPaint entity node) back (outputAll w.focus children)
      (viewIdsAll id children) := { hpainted.toAddsPaint with }
  have hclose := back.closePaint_adds id state'
  have hadds := ((Window.openPaint_adds node hstate).trans hback).trans hclose
  have hheld : w.held id = true := (hready id (by simp [viewIds, id])).2
  have hfound : w.elementState id = some state := by
    rw [Window.elementState, hstate, Option.some_or]
  refine ⟨back.closePaint id state', range, ?_, ⟨?_, ?_, ?_, ?_, ?_, ?_⟩, ⟨?_, ?_, rfl, rfl, rfl,
    rfl⟩⟩
  · rw [run_cachedView, hfound, hheld, Window.paintCached]
    simp only [if_true, hrun, Option.bind_eq_bind, Option.bind_some, Option.map_some]
    rfl
  · simpa [viewIds] using hadds
  · exact hpainted.renderedPainted
  · intro other
    by_cases heq : other = id
    · rw [heq, Window.closePaint_state, hstate]
      rfl
    · rw [Window.closePaint_states heq]
      have hopened : (w.openPaint entity node).nextFrame.elementStates other =
        w.nextFrame.elementStates other := Window.openPaint_states heq
      exact (hpainted.views other).trans (congrArg Option.isSome hopened)
  · intro other hother
    rw [viewIds, List.mem_cons, not_or] at hother
    rw [Window.closePaint_states hother.1]
    exact (hpainted.others other hother.2).trans (Window.openPaint_states hother.1)
  · exact Window.elementIdStack_closePaint hpainted.elementIdStack
  · rfl
  · exact Window.closePaint_state
  · refine hclose.keeps (hback.recorded ?_)
    intro other hother
    exact (hinside other hother).1

/-- A call that is neither an element nor a cached view appends its output. -/
theorem run_leaf {call : Paint D} (helement : ∀ id node children, call ≠ element id node children)
    (hview : ∀ entity node children, call ≠ cachedView entity node children)
    (w : Window D K) : ∃ w', run call w = some w' ∧ Paints w w' (call.output w.focus) [] := by
  cases call with
  | element id node children => exact absurd rfl (helement id node children)
  | cachedView entity node children => exact absurd rfl (hview entity node children)
  | handleInput focusHandle inputHandler =>
    refine ⟨_, rfl, ?_⟩
    unfold Window.handleInput
    split_ifs with hfocus
    · exact .of_append (by simp [output, Frame.painted, Painted.append_def, hfocus])
    · exact .of_append (by simp [output, Frame.painted, Painted.append_def, hfocus])
  | _ => exact ⟨_, rfl, .of_append (by simp [output, Frame.painted, Painted.append_def,
      Painted.empty])⟩

/-- In a refreshing window all calls are painted whose views are ready. -/
theorem paintsAlways : (∀ call : Paint D, ∀ w : Window D K, w.refreshing = true →
      Ready w (call.viewIds w.elementIdStack) → ∃ w', run call w = some w' ∧
        Paints w w' (call.output w.focus) (call.viewIds w.elementIdStack)) ∧
    ∀ calls : List (Paint D), PaintsAlways K calls := by
  apply Paint.induction
  case leaf =>
    intro call helement hview w _ _
    have hids : call.viewIds w.elementIdStack = [] := by
      cases call <;> simp_all [viewIds]
    rw [hids]
    exact run_leaf helement hview w
  case element =>
    intro id node children ih w hrefreshing hready
    rw [viewIds] at hready
    obtain ⟨w', hrun, hpaints⟩ := ih (w.enterPaint id node) hrefreshing hready
    refine ⟨w'.leavePaint id, ?_, hpaints.nested⟩
    rw [run, hrun, Option.map_some]
  case cachedView =>
    intro entity node children ih w _ hready
    obtain ⟨state, hstate⟩ := Option.isSome_iff_exists.mp
      (hready (.view entity :: w.elementIdStack) (by simp [viewIds])).1
    obtain ⟨w', -, hrun, hpaints, -⟩ := ih.view node hstate hready
    exact ⟨w', hrun, hpaints⟩
  case nil =>
    intro w _ _
    exact ⟨w, rfl, .of_append (by simp [outputAll, Frame.painted])⟩
  case cons =>
    intro call calls hcall hcalls w hrefreshing hready
    obtain ⟨w', hrun, hpaints⟩ := hcall w hrefreshing fun id hid =>
      hready id (List.mem_append_left _ hid)
    have hready' : Ready w' (viewIdsAll w'.elementIdStack calls) := by
      intro id hid
      rw [hpaints.elementIdStack] at hid
      obtain ⟨hsome, hheld⟩ := hready id (List.mem_append_right _ hid)
      exact ⟨(hpaints.views id).trans hsome, (congrFun hpaints.held id).trans hheld⟩
    obtain ⟨w'', hrun', hpaints'⟩ := hcalls w' (hpaints.refreshing.trans hrefreshing) hready'
    rw [hpaints.elementIdStack, hpaints.focus] at hpaints'
    refine ⟨w'', ?_, hpaints.trans hpaints'⟩
    rw [runAll, hrun, Option.bind_some, hrun']

end Paint

end Lucie.Drawing
