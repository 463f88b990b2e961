import Lucie.Window.CachedPrepaint

/-!
# Painting with cached views

The outermost views that were prepainted are painted one after the other. One that holds its
element is painted; one that was taken over has its painted part taken over as well. The
listeners and input handlers of this part are taken, and those of the other parts stay.
-/

set_option autoImplicit false

namespace Lucie.Drawing

variable {D K : Type}

namespace Window

/-- Taking over a painted part. -/
theorem exists_reusePaint {w : Window D K} {range : Span PaintIndex} {id : GlobalElementId}
    {part : Painted D} (h : w.renderedFrame.HasPainted range id part) :
    ∃ w' ids, w.reusePaint range = some w' ∧ AddsPaint w w' part ids ∧
      (∀ other ∈ ids, id <:+ other) ∧
      w'.renderedFrame.painted = { w.renderedFrame.painted with
        mouseListeners := takeRange w.renderedFrame.painted.mouseListeners
          range.start.mouseListenersIndex range.stop.mouseListenersIndex
        inputHandlers := takeRange w.renderedFrame.painted.inputHandlers
          range.start.inputHandlersIndex range.stop.inputHandlersIndex } ∧
      w'.nextFrame.elementStates = w.nextFrame.elementStates ∧
      w'.elementIdStack = w.elementIdStack ∧ w'.refreshing = w.refreshing := by
  obtain ⟨hscene, hlisteners, hhandlers, hstyles, hstops⟩ :=
    Painted.slice_eq_some_iff.mp h.painted
  obtain ⟨ids, hids, hinside⟩ := h.accessed
  simp only [Frame.painted] at hscene hlisteners hhandlers hstyles hstops
  cases hrun : w.reusePaint range with
  | none =>
    simp [reusePaint, hscene, hlisteners, hhandlers, hstyles, hstops, hids] at hrun
  | some w' =>
    simp only [reusePaint, hscene, hlisteners, hhandlers, hstyles, hstops, hids,
      Option.bind_eq_bind, Option.bind_some] at hrun
    obtain rfl := Option.some.inj hrun
    exact ⟨_, ids, rfl, ⟨rfl, rfl, rfl, rfl, rfl, rfl, rfl, rfl⟩, hinside, rfl, rfl, rfl, rfl⟩

end Window

/-- An outermost view was painted, with a range for its part. -/
structure PaintVisits (w w' : Window D K) (view : PaintedView D) (state : AnyViewState K)
    (range : Span PaintIndex) : Prop where
  adds : ∃ ids, AddsPaint w w' (Paint.outputAll w.focus view.children) ids ∧
    ∀ id ∈ ids, view.id <:+ id
  records : RecordsPaint w w' view.id (Paint.outputAll w.focus view.children) state range
  others : ∀ id, ¬ view.id <:+ id → w'.nextFrame.elementStates id = w.nextFrame.elementStates id
  views : ∀ id, (w'.nextFrame.elementStates id).isSome = (w.nextFrame.elementStates id).isSome
  slices : ∀ other, (w.held view.id = false → PaintApart state.paintRange other) →
    w'.renderedFrame.painted.slice other = w.renderedFrame.painted.slice other
  elementIdStack : w'.elementIdStack = w.elementIdStack
  refreshing : w'.refreshing = w.refreshing

/-- Paint an outermost view whose state was put into the next frame. -/
theorem exists_paintVisits {w : Window D K} {entity : EntityId} (node : ℕ)
    {children : List (Paint D)} {state : AnyViewState K}
    (hstate : w.nextFrame.elementStates (.view entity :: w.elementIdStack) = some state)
    (hready : w.held (.view entity :: w.elementIdStack) = true →
      Paint.Ready w (Paint.viewIdsAll (.view entity :: w.elementIdStack) children))
    (hpart : w.held (.view entity :: w.elementIdStack) = false →
      w.renderedFrame.HasPainted state.paintRange (.view entity :: w.elementIdStack)
        (Paint.outputAll w.focus children)) :
    ∃ w' range, Paint.run (.cachedView entity node children) w = some w' ∧
      PaintVisits w w' ⟨.view entity :: w.elementIdStack, children⟩ state range := by
  let id : GlobalElementId := .view entity :: w.elementIdStack
  cases hheld : w.held id with
  | true =>
    have hviews : ∀ other ∈ Paint.viewIds w.elementIdStack (.cachedView entity node children),
        id <:+ other := by
      intro other hother
      rw [Paint.viewIds, List.mem_cons] at hother
      obtain rfl | hother := hother
      · exact List.suffix_rfl
      · exact (Paint.viewIds_inside.2 children id other hother).1
    have hready' : Paint.Ready w
        (Paint.viewIds w.elementIdStack (.cachedView entity node children)) := by
      intro other hother
      rw [Paint.viewIds, List.mem_cons] at hother
      obtain rfl | hother := hother
      · exact ⟨by rw [hstate]; rfl, hheld⟩
      · exact hready hheld other hother
    obtain ⟨w', range, hrun, hpaints, hrecords⟩ :=
      (Paint.paintsAlways.2 children).view node hstate hready'
    refine ⟨w', range, hrun, ⟨_, hpaints.toAddsPaint, hviews⟩, hrecords, ?_, hpaints.views, ?_,
      hpaints.elementIdStack, hpaints.refreshing⟩
    · intro other hother
      exact hpaints.others other fun hmem => hother (hviews other hmem)
    · intro other _
      rw [hpaints.renderedPainted]
  | false =>
    have hopen := Window.openPaint_adds node hstate
    have hpart' : (w.openPaint entity node).renderedFrame.HasPainted state.paintRange id
        (Paint.outputAll w.focus children) := { hpart hheld with }
    obtain ⟨reused, ids, hrun, hadds, hinside, htaken, hnext, hstack, hrefreshing⟩ :=
      Window.exists_reusePaint hpart'
    let range : Span PaintIndex := ⟨(w.openPaint entity node).paintIndex, reused.paintIndex⟩
    let state' : AnyViewState K := { state with paintRange := range }
    have hclose := reused.closePaint_adds id state'
    have hfound : w.elementState id = some state := by
      rw [Window.elementState, hstate, Option.some_or]
    refine ⟨reused.closePaint id state', range, ?_, ⟨id :: ids, ?_, ?_⟩,
      ⟨Window.closePaint_state, ?_, rfl, rfl, rfl, rfl⟩, ?_, ?_, ?_, ?_, hrefreshing⟩
    · rw [Paint.run_cachedView, hfound, hheld, Window.paintCached]
      simp only [Bool.false_eq_true, if_false, hrun, Option.bind_eq_bind, Option.bind_some,
        Option.map_some]
      rfl
    · simpa using (hopen.trans hadds).trans hclose
    · intro other hother
      obtain rfl | hother := List.mem_cons.mp hother
      · exact List.suffix_rfl
      · exact hinside other hother
    · exact hclose.keeps (hadds.recorded hinside)
    · intro other hother
      have hne : other ≠ id := fun heq => hother (heq ▸ List.suffix_rfl)
      rw [Window.closePaint_states hne]
      exact (congrFun hnext other).trans (Window.openPaint_states hne)
    · intro other
      by_cases heq : other = id
      · rw [heq, Window.closePaint_state, hstate]
        rfl
      · rw [Window.closePaint_states heq, hnext, Window.openPaint_states heq]
    · intro other hother
      exact slice_painted_takeRange hpart'.painted (hother hheld) htaken
    · exact Window.elementIdStack_closePaint hstack

/-- What there is for the outermost views, before they are painted. -/
structure PaintSupplies (w₁ : Window D K) (views : List (PaintedView D)) : Prop where
  states : ∀ view ∈ views, (w₁.nextFrame.elementStates view.id).isSome
  ready : ∀ view ∈ views, w₁.held view.id = true →
    Paint.Ready w₁ (Paint.viewIdsAll view.id view.children)
  parts : ∀ view ∈ views, w₁.held view.id = false → ∀ state,
    w₁.nextFrame.elementStates view.id = some state →
    w₁.renderedFrame.HasPainted state.paintRange view.id
      (Paint.outputAll w₁.focus view.children)
  apart : ∀ view ∈ views, ∀ other ∈ views, Separate view.id other.id →
    w₁.held view.id = false → w₁.held other.id = false → ∀ state earlier,
    w₁.nextFrame.elementStates view.id = some state →
    w₁.nextFrame.elementStates other.id = some earlier →
    PaintApart state.paintRange earlier.paintRange

/-- An outermost view that was painted, in a later window. -/
structure PaintVisited (w₁ w : Window D K) (view : PaintedView D) (state : AnyViewState K)
    (range : Span PaintIndex) : Prop where
  before : w₁.nextFrame.elementStates view.id = some state
  found : w.nextFrame.elementStates view.id = some { state with paintRange := range }
  recorded : w.nextFrame.HasPainted range view.id (Paint.outputAll w₁.focus view.children)
  stopListeners : range.stop.mouseListenersIndex ≤ w.nextFrame.mouseListeners.length
  stopHandlers : range.stop.inputHandlersIndex ≤ w.nextFrame.inputHandlers.length

theorem AddsPaint.length_le {w w' : Window D K} {part : Painted D}
    {ids : List GlobalElementId} (h : AddsPaint w w' part ids) :
    w.nextFrame.mouseListeners.length ≤ w'.nextFrame.mouseListeners.length ∧
      w.nextFrame.inputHandlers.length ≤ w'.nextFrame.inputHandlers.length := by
  have hlisteners := congrArg (fun p : Painted D => p.mouseListeners.length) h.painted
  have hhandlers := congrArg (fun p : Painted D => p.inputHandlers.length) h.painted
  simp only [Frame.painted, Painted.append_def, List.length_append] at hlisteners hhandlers
  omega

theorem PaintVisited.later {w₁ w w' : Window D K} {view : PaintedView D}
    {state : AnyViewState K} {range : Span PaintIndex} {part : Painted D}
    {ids : List GlobalElementId} (h : PaintVisited w₁ w view state range)
    (hadds : AddsPaint w w' part ids)
    (hsame : w'.nextFrame.elementStates view.id = w.nextFrame.elementStates view.id) :
    PaintVisited w₁ w' view state range :=
  ⟨h.before, hsame.trans h.found, hadds.keeps h.recorded,
    h.stopListeners.trans hadds.length_le.1, h.stopHandlers.trans hadds.length_le.2⟩

/-- The outermost views of a list are painted, and a part was appended. -/
structure Painting (w₁ w : Window D K) (done : List (PaintedView D)) (part : Painted D) :
    Prop where
  adds : ∃ ids, AddsPaint w₁ w part ids ∧ ∀ id ∈ ids, ∃ view ∈ done, view.id <:+ id
  refreshing : w.refreshing = w₁.refreshing
  untouched : ∀ id, (∀ view ∈ done, ¬ view.id <:+ id) →
    w.nextFrame.elementStates id = w₁.nextFrame.elementStates id
  views : ∀ id, (w.nextFrame.elementStates id).isSome = (w₁.nextFrame.elementStates id).isSome
  slices : ∀ range, (∀ view ∈ done, w₁.held view.id = false → ∀ state,
      w₁.nextFrame.elementStates view.id = some state → PaintApart state.paintRange range) →
    w.renderedFrame.painted.slice range = w₁.renderedFrame.painted.slice range
  visited : ∀ view ∈ done, ∃ state range, PaintVisited w₁ w view state range
  apart : ∀ view ∈ done, ∀ other ∈ done, Separate view.id other.id → ∀ state earlier,
    w.nextFrame.elementStates view.id = some state →
    w.nextFrame.elementStates other.id = some earlier →
    PaintApart state.paintRange earlier.paintRange

namespace Painting

variable {w₁ w w' : Window D K} {done : List (PaintedView D)} {part part' : Painted D}

theorem start (w₁ : Window D K) : Painting w₁ w₁ [] .empty where
  adds := ⟨[], ⟨(Painted.append_empty _).symm, (List.append_nil _).symm, rfl, rfl, rfl, rfl, rfl,
    rfl⟩, by simp⟩
  refreshing := rfl
  untouched := fun _ _ => rfl
  views := fun _ => rfl
  slices := fun _ _ => rfl
  visited := by simp
  apart := by simp

/-- Calls in which there is no cached view. -/
theorem paints (h : Painting w₁ w done part) (hpaints : Paints w w' part' []) :
    Painting w₁ w' done (part ++ part') := by
  have hothers := fun id => hpaints.others id List.not_mem_nil
  obtain ⟨ids, hadds, hids⟩ := h.adds
  refine ⟨⟨ids, by simpa using hadds.trans hpaints.toAddsPaint, hids⟩,
    hpaints.refreshing.trans h.refreshing, ?_, ?_, ?_, ?_, ?_⟩
  · intro id hid
    exact (hothers id).trans (h.untouched id hid)
  · intro id
    exact (hpaints.views id).trans (h.views id)
  · intro range hrange
    rw [hpaints.renderedPainted]
    exact h.slices range hrange
  · intro view hview
    obtain ⟨state, range, hstate⟩ := h.visited view hview
    exact ⟨state, range, hstate.later hpaints.toAddsPaint (hothers view.id)⟩
  · intro view hview other hother hseparate state earlier hstate hearlier
    rw [hothers] at hstate hearlier
    exact h.apart view hview other hother hseparate state earlier hstate hearlier

/-- An element is entered or left. -/
theorem moved (h : Painting w₁ w done part) (stack : GlobalElementId) (tree : DispatchTree D) :
    Painting w₁ { w with
      elementIdStack := stack
      nextFrame := { w.nextFrame with dispatchTree := tree } } done part := by
  obtain ⟨ids, hadds, hids⟩ := h.adds
  refine ⟨⟨ids, { hadds with }, hids⟩, h.refreshing, h.untouched, h.views, h.slices, ?_, h.apart⟩
  intro view hview
  obtain ⟨state, range, hstate⟩ := h.visited view hview
  exact ⟨state, range, { hstate with recorded := { hstate.recorded with } }⟩

/-- One more view. Its part begins where the vectors ended, behind those of the others. -/
theorem visits {view : PaintedView D} {state : AnyViewState K} {range : Span PaintIndex}
    (h : Painting w₁ w done part) (hvisits : PaintVisits w w' view state range)
    (hstate : w₁.nextFrame.elementStates view.id = some state)
    (hdone : ∀ other ∈ done, Separate other.id view.id) :
    Painting w₁ w' (done ++ [view]) (part ++ Paint.outputAll w₁.focus view.children) := by
  obtain ⟨ids, hadds, hids⟩ := h.adds
  obtain ⟨ids', hadds', hids'⟩ := hvisits.adds
  have hrecords := hvisits.records
  rw [hadds.focus] at hadds' hrecords
  have hbefore : ∀ other ∈ done,
      w'.nextFrame.elementStates other.id = w.nextFrame.elementStates other.id :=
    fun other hother => hvisits.others other.id (hdone other hother).2
  have hbehind : ∀ other ∈ done, ∀ earlier later,
      w'.nextFrame.elementStates other.id = some earlier →
      w'.nextFrame.elementStates view.id = some later →
      earlier.paintRange.stop.mouseListenersIndex ≤ later.paintRange.start.mouseListenersIndex ∧
      earlier.paintRange.stop.inputHandlersIndex ≤ later.paintRange.start.inputHandlersIndex := by
    intro other hother earlier later hearlier hlater
    obtain ⟨visited, former, hvisited⟩ := h.visited other hother
    rw [hbefore other hother, hvisited.found] at hearlier
    rw [hrecords.found] at hlater
    obtain rfl := Option.some.inj hearlier
    obtain rfl := Option.some.inj hlater
    dsimp only
    rw [hrecords.startListeners, hrecords.startHandlers]
    exact ⟨hvisited.stopListeners, hvisited.stopHandlers⟩
  refine ⟨⟨ids ++ ids', hadds.trans hadds', ?_⟩, hvisits.refreshing.trans h.refreshing, ?_, ?_, ?_,
    ?_, ?_⟩
  · intro id hid
    obtain hid | hid := List.mem_append.mp hid
    · obtain ⟨other, hother, hsuffix⟩ := hids id hid
      exact ⟨other, List.mem_append_left _ hother, hsuffix⟩
    · exact ⟨view, by simp, hids' id hid⟩
  · intro id hid
    have hnext := h.untouched id fun other hother => hid other (List.mem_append_left _ hother)
    exact (hvisits.others id (hid view (by simp))).trans hnext
  · intro id
    exact (hvisits.views id).trans (h.views id)
  · intro other hother
    have hview : w.held view.id = false → PaintApart state.paintRange other := by
      intro hheld
      rw [hadds.held] at hheld
      exact hother view (by simp) hheld state hstate
    rw [hvisits.slices other hview]
    exact h.slices other fun earlier hearlier => hother earlier (List.mem_append_left _ hearlier)
  · intro other hother
    obtain hother | hother := List.mem_append.mp hother
    · obtain ⟨visited, former, hvisited⟩ := h.visited other hother
      exact ⟨visited, former, hvisited.later hadds' (hbefore other hother)⟩
    · rw [List.mem_singleton.mp hother]
      exact ⟨state, range, hstate, hrecords.found, hrecords.recorded, hrecords.stopListeners.le,
        hrecords.stopHandlers.le⟩
  · intro first hfirst second hsecond hseparate earlier later hearlier hlater
    obtain hfirst | hfirst := List.mem_append.mp hfirst
    · obtain hsecond | hsecond := List.mem_append.mp hsecond
      · rw [hbefore first hfirst] at hearlier
        rw [hbefore second hsecond] at hlater
        exact h.apart first hfirst second hsecond hseparate earlier later hearlier hlater
      · rw [List.mem_singleton.mp hsecond] at hlater
        obtain ⟨hlisteners, hhandlers⟩ := hbehind first hfirst earlier later hearlier hlater
        exact ⟨.inl hlisteners, .inl hhandlers⟩
    · rw [List.mem_singleton.mp hfirst] at hearlier hseparate
      obtain hsecond | hsecond := List.mem_append.mp hsecond
      · obtain ⟨hlisteners, hhandlers⟩ := hbehind second hsecond later earlier hlater hearlier
        exact ⟨.inr hlisteners, .inr hhandlers⟩
      · rw [List.mem_singleton.mp hsecond] at hseparate
        exact absurd rfl hseparate.ne

/-- One more cached view in the frame. -/
theorem cachedView {views : List (PaintedView D)} {entity : EntityId} {node : ℕ}
    {children : List (Paint D)} (h : Painting w₁ w done part) (hsupplies : PaintSupplies w₁ views)
    (hseparate : views.Pairwise fun view other => Separate view.id other.id)
    (hinitial : done ++ [⟨.view entity :: w.elementIdStack, children⟩] <+: views) :
    ∃ w', Paint.run (.cachedView entity node children) w = some w' ∧
      Painting w₁ w' (done ++ [⟨.view entity :: w.elementIdStack, children⟩])
        (part ++ Paint.outputAll w₁.focus children) ∧
      w'.elementIdStack = w.elementIdStack := by
  let view : PaintedView D := ⟨.view entity :: w.elementIdStack, children⟩
  have hmem : ∀ other ∈ done ++ [view], other ∈ views := fun other hother =>
    hinitial.subset hother
  have hdone : ∀ other ∈ done, Separate other.id view.id := Separate.of_initial hseparate hinitial
  obtain ⟨ids, hadds, -⟩ := h.adds
  have hview := hmem view (by simp)
  have hsame := h.untouched view.id fun other hother => (hdone other hother).1
  obtain ⟨state, hstate⟩ := Option.isSome_iff_exists.mp (hsupplies.states view hview)
  have hready : w.held view.id = true → Paint.Ready w (Paint.viewIdsAll view.id children) := by
    intro hheld id hid
    rw [hadds.held] at hheld
    obtain ⟨hsome, hheld'⟩ := hsupplies.ready view hview hheld id hid
    exact ⟨(h.views id).trans hsome, (congrFun hadds.held id).trans hheld'⟩
  have hpart : w.held view.id = false → w.renderedFrame.HasPainted state.paintRange view.id
      (Paint.outputAll w.focus children) := by
    intro hheld
    rw [hadds.held] at hheld
    have hhas := hsupplies.parts view hview hheld state hstate
    refine ⟨?_, ?_⟩
    · rw [hadds.focus, ← hhas.painted]
      apply h.slices
      intro other hother hother' earlier hearlier
      exact hsupplies.apart other (hmem other (List.mem_append_left _ hother)) view hview
        (hdone other hother) hother' hheld earlier state hearlier hstate
    · rw [hadds.renderedAccessed]
      exact hhas.accessed
  obtain ⟨w', range, hrun, hvisits⟩ := exists_paintVisits node (hsame.trans hstate)
    hready hpart
  exact ⟨w', hrun, h.visits hvisits hstate hdone, hvisits.elementIdStack⟩

end Painting

/-- All calls of a frame can be made, and their output is appended. -/
theorem exists_painting {w₁ : Window D K} {views : List (PaintedView D)}
    (hsupplies : PaintSupplies w₁ views)
    (hseparate : views.Pairwise fun view other => Separate view.id other.id) :
    (∀ call : Paint D, ∀ w done part, Painting w₁ w done part →
      done ++ call.outermost w.elementIdStack <+: views →
      ∃ w', call.run w = some w' ∧
        Painting w₁ w' (done ++ call.outermost w.elementIdStack)
          (part ++ call.output w₁.focus) ∧
        w'.elementIdStack = w.elementIdStack) ∧
    ∀ calls : List (Paint D), ∀ w done part, Painting w₁ w done part →
      done ++ Paint.outermostAll w.elementIdStack calls <+: views →
      ∃ w', Paint.runAll calls w = some w' ∧
        Painting w₁ w' (done ++ Paint.outermostAll w.elementIdStack calls)
          (part ++ Paint.outputAll w₁.focus calls) ∧
        w'.elementIdStack = w.elementIdStack := by
  apply Paint.induction
  case leaf =>
    intro call helement hview w done part h _
    obtain ⟨w', hrun, hpaints⟩ := Paint.run_leaf helement hview w
    have hnone : call.outermost w.elementIdStack = [] := by
      cases call <;> simp_all [Paint.outermost]
    obtain ⟨ids, hadds, -⟩ := h.adds
    rw [hadds.focus] at hpaints
    rw [hnone, List.append_nil]
    exact ⟨w', hrun, h.paints hpaints, hpaints.elementIdStack⟩
  case element =>
    intro id node children ih w done part h hinitial
    obtain ⟨w', hrun, hw', hstack⟩ := ih (w.enterPaint id node) done part (h.moved _ _) hinitial
    refine ⟨w'.leavePaint id, ?_, hw'.moved _ w'.nextFrame.dispatchTree,
      Window.elementIdStack_leavePaint hstack⟩
    rw [Paint.run, hrun, Option.map_some]
  case cachedView =>
    intro entity node children _ w done part h hinitial
    exact h.cachedView hsupplies hseparate hinitial
  case nil =>
    intro w done part h _
    exact ⟨w, rfl, by simpa [Paint.outermostAll, Paint.outputAll] using h, rfl⟩
  case cons =>
    intro call calls hcall hcalls w done part h hinitial
    rw [Paint.outermostAll, ← List.append_assoc] at hinitial ⊢
    obtain ⟨w', hrun, hw', hstack⟩ := hcall w done part h
      ((List.prefix_append _ _).trans hinitial)
    obtain ⟨w'', hrun', hw'', hstack'⟩ := hcalls w' _ _ hw' (by rwa [hstack])
    rw [hstack] at hw''
    refine ⟨w'', ?_, ?_, hstack'.trans hstack⟩
    · rw [Paint.runAll, hrun, Option.bind_some, hrun']
    · rw [Paint.outputAll, ← Painted.append_assoc]
      exact hw''

end Lucie.Drawing
