import Lucie.Window.Repainting

/-!
# Prepainting with cached views

The outermost cached views of a frame are prepainted one after the other. One that can be
reused takes its part over from the rendered frame; the tooltip requests of this part are
taken, and those of the other parts stay. One that cannot be reused is rendered. In both cases
the output of the view is appended. The invariant speaks of the views that are done.
-/

set_option autoImplicit false

namespace Lucie.Drawing

variable {D K : Type}

namespace Window

/-- Taking over a prepainted part. -/
theorem exists_reusePrepaint {w : Window D K} {range : Span PrepaintStateIndex}
    {id : GlobalElementId} {part : Prepainted D}
    (h : w.renderedFrame.HasPrepainted range id part) :
    ∃ w' ids, w.reusePrepaint range = some w' ∧ Adds w w' part ids ∧
      (∀ other ∈ ids, id <:+ other) ∧
      w'.renderedFrame.tooltipRequests = takeRange w.renderedFrame.tooltipRequests
        range.start.tooltipsIndex range.stop.tooltipsIndex ∧
      w'.nextFrame.elementStates = w.nextFrame.elementStates ∧
      w'.renderedFrame.elementStates = w.renderedFrame.elementStates ∧
      w'.held = w.held ∧ w'.elementIdStack = w.elementIdStack ∧ w'.refreshing = w.refreshing := by
  obtain ⟨hhitboxes, htooltips⟩ := Prepainted.slice_eq_some_iff.mp h.prepainted
  obtain ⟨ids, hids, hinside⟩ := h.accessed
  simp only [Frame.prepainted, slice_map, Option.map_eq_some_iff] at hhitboxes htooltips
  obtain ⟨hitboxes, hhitboxes, hdata⟩ := hhitboxes
  obtain ⟨tooltips, htooltips, htooltip⟩ := htooltips
  cases hrun : w.reusePrepaint range with
  | none =>
    simp [reusePrepaint, hhitboxes, htooltips, hids, h.deferred] at hrun
  | some w' =>
    simp only [reusePrepaint, hhitboxes, htooltips, hids, h.deferred, Option.bind_eq_bind,
      Option.bind_some] at hrun
    obtain rfl := Option.some.inj hrun
    refine ⟨_, ids, rfl, ⟨?_, rfl, ?_, rfl, rfl, rfl, rfl, rfl, rfl, rfl⟩, hinside, rfl, rfl, rfl,
      rfl, rfl, rfl⟩
    · simp [Frame.prepainted, Prepainted.append_def, ← hdata, ← htooltip]
    · simp

end Window

variable [DecidableEq K]

/-- A cached view that takes its part over from the rendered frame. -/
theorem Prepaint.run_reused {w : Window D K} {entity : EntityId} {cacheKey : K}
    (children : List (Prepaint D K)) {former : AnyViewState K} {part : Prepainted D}
    (hreuse : (w.openView entity).reusable entity cacheKey
      (w.elementState (.view entity :: w.elementIdStack)) = some former)
    (hpart : w.renderedFrame.HasPrepainted former.prepaintRange
      (.view entity :: w.elementIdStack) part) :
    ∃ w' state ids, run (cachedView entity cacheKey children) w = some w' ∧
      Adds w w' part ids ∧ (∀ other ∈ ids, (.view entity :: w.elementIdStack) <:+ other) ∧
      Records w w' (.view entity :: w.elementIdStack) cacheKey part state ∧
      state.paintRange = former.paintRange ∧
      w'.held (.view entity :: w.elementIdStack) = false ∧
      w'.renderedFrame.tooltipRequests = takeRange w.renderedFrame.tooltipRequests
        former.prepaintRange.start.tooltipsIndex former.prepaintRange.stop.tooltipsIndex ∧
      (∀ other, other ≠ .view entity :: w.elementIdStack →
        w'.nextFrame.elementStates other = w.nextFrame.elementStates other ∧
        w'.renderedFrame.elementStates other = w.renderedFrame.elementStates other ∧
        w'.held other = w.held other) ∧
      w'.elementIdStack = w.elementIdStack ∧ w'.refreshing = w.refreshing := by
  let id : GlobalElementId := .view entity :: w.elementIdStack
  have hopen := w.openView_adds entity
  have hpart' : (w.openView entity).renderedFrame.HasPrepainted former.prepaintRange id part :=
    hopen.keepsRendered hpart rfl
  obtain ⟨reused, ids, hrun, hadds, hinside, htooltips, hnext, hrendered, hheld, hstack,
    hrefreshing⟩ := Window.exists_reusePrepaint hpart'
  let state : AnyViewState K :=
    { former with prepaintRange := ⟨(w.openView entity).prepaintIndex, reused.prepaintIndex⟩ }
  have hkey : former.cacheKey = cacheKey := by
    obtain ⟨-, hmatch⟩ := Option.filter_eq_some_iff.mp hreuse
    exact (of_decide_eq_true hmatch).1
  have hclose := reused.closeView_adds id false state
  refine ⟨reused.closeView id false state, state, id :: ids, ?_, ?_, ?_,
    ⟨?_, hkey, ?_, rfl, rfl, ?_⟩, rfl, ?_, htooltips, ?_, ?_, hrefreshing⟩
  · rw [run_cachedView, Window.prepaintCached, hreuse]
    simp only [hrun, Option.bind_eq_bind, Option.bind_some, Option.map_some]
    rfl
  · simpa using (hopen.trans hadds).trans hclose
  · intro other hother
    obtain rfl | hother := List.mem_cons.mp hother
    · exact List.suffix_rfl
    · exact hinside other hother
  · exact (reused.closeView_state id false state).1
  · exact hclose.keeps (hadds.recorded hinside)
  · intro hnone
    exact (congrFun hrendered id).trans ((w.openView_state entity).2 hnone)
  · exact (reused.closeView_state id false state).2
  · intro other hother
    obtain ⟨hnext', hrendered'⟩ := Window.openView_states hother
    rw [(Window.closeView_states hother).1, (Window.closeView_states hother).2]
    exact ⟨(congrFun hnext other).trans hnext', (congrFun hrendered other).trans hrendered',
      congrFun hheld other⟩
  · exact Window.elementIdStack_closeView hstack

/-- An outermost view is taken over from a state of the rendered frame, in the window as it is
before the roots are drawn. -/
def Reused (w₀ : Window D K) (view : CachedView D K) (former : AnyViewState K) : Prop :=
  w₀.renderedFrame.elementStates view.id = some former ∧ former.cacheKey = view.cacheKey ∧
    view.entity ∉ w₀.dirtyViews ∧ w₀.refreshing = false

/-- What becomes of an outermost view: it is rendered and holds its element, with all views in
it, or it is taken over. -/
def Outcome (w₀ w : Window D K) (view : CachedView D K) (state : AnyViewState K) : Prop :=
  (w.held view.id = true ∧ (¬ ∃ former, Reused w₀ view former) ∧
      Paint.Ready w (Prepaint.viewIdsAll view.id view.children)) ∨
    (w.held view.id = false ∧
      ∃ former, Reused w₀ view former ∧ state.paintRange = former.paintRange)

/-- An outermost view was prepainted. -/
structure Visits (w₀ w w' : Window D K) (view : CachedView D K) (state : AnyViewState K) :
    Prop where
  adds : ∃ ids, Adds w w' (Prepaint.outputAll view.children) ids ∧ ∀ id ∈ ids, view.id <:+ id
  records : Records w w' view.id view.cacheKey (Prepaint.outputAll view.children) state
  others : ∀ id, ¬ view.id <:+ id → w'.nextFrame.elementStates id = w.nextFrame.elementStates id ∧
    w'.renderedFrame.elementStates id = w.renderedFrame.elementStates id ∧ w'.held id = w.held id
  tooltips : ∀ range, (∀ former, Reused w₀ view former →
      PrepaintApart former.prepaintRange range) →
    w'.renderedFrame.prepainted.slice range = w.renderedFrame.prepainted.slice range
  outcome : Outcome w₀ w' view state
  elementIdStack : w'.elementIdStack = w.elementIdStack
  refreshing : w'.refreshing = w.refreshing

/-- Prepaint an outermost view whose state is that of the rendered frame. -/
theorem exists_visits {w₀ w : Window D K} {entity : EntityId} {cacheKey : K}
    {children : List (Prepaint D K)} (hdefers : Prepaint.defersAny children = false)
    (hstate : w.elementState (.view entity :: w.elementIdStack) =
      w₀.renderedFrame.elementStates (.view entity :: w.elementIdStack))
    (hdirty : w.dirtyViews = w₀.dirtyViews) (hrefreshing : w.refreshing = w₀.refreshing)
    (hpart : ∀ former,
      Reused w₀ ⟨.view entity :: w.elementIdStack, entity, cacheKey, children⟩ former →
      w.renderedFrame.HasPrepainted former.prepaintRange (.view entity :: w.elementIdStack)
        (Prepaint.outputAll children)) :
    ∃ w' state, Prepaint.run (.cachedView entity cacheKey children) w = some w' ∧
      Visits w₀ w w' ⟨.view entity :: w.elementIdStack, entity, cacheKey, children⟩ state := by
  let view : CachedView D K := ⟨.view entity :: w.elementIdStack, entity, cacheKey, children⟩
  have hreusable : ∀ former, (w.openView entity).reusable entity cacheKey
      (w.elementState view.id) = some former ↔ Reused w₀ view former := by
    intro former
    rw [Window.reusable, Option.filter_eq_some_iff, hstate, decide_eq_true_iff, Reused, ← hdirty,
      ← hrefreshing]
    rfl
  cases hreuse : (w.openView entity).reusable entity cacheKey (w.elementState view.id) with
  | none =>
    have hnone : ¬ ∃ former, Reused w₀ view former := by
      rintro ⟨former, hformer⟩
      rw [(hreusable former).mpr hformer] at hreuse
      cases hreuse
    obtain ⟨w', state, hrun, hrenders, hrecords⟩ :=
      (Prepaint.rendersAlways.2 children hdefers).view hreuse
    have hviews : ∀ id ∈ Prepaint.viewIds w.elementIdStack (.cachedView entity cacheKey children),
        view.id <:+ id := by
      intro id hid
      rw [Prepaint.viewIds, List.mem_cons] at hid
      obtain rfl | hid := hid
      · exact List.suffix_rfl
      · exact (Prepaint.viewIds_inside.2 children view.id id hid).1
    refine ⟨w', state, hrun, ⟨_, hrenders.toAdds, hviews⟩, hrecords, ?_, ?_,
      .inl ⟨?_, hnone, ?_⟩, hrenders.elementIdStack, hrenders.refreshing⟩
    · intro id hid
      exact hrenders.others id fun hmem => hid (hviews id hmem)
    · intro range _
      simp only [Prepainted.slice, Frame.prepainted, hrenders.renderedHitboxes,
        hrenders.renderedTooltips]
    · exact (hrenders.views view.id (by simp [Prepaint.viewIds, view])).2
    · intro id hid
      exact hrenders.views id (by rw [Prepaint.viewIds]; exact List.mem_cons_of_mem _ hid)
  | some former =>
    have hformer := (hreusable former).mp hreuse
    obtain ⟨w', state, ids, hrun, hadds, hinside, hrecords, hpaint, hheld, htooltips, hothers,
      hstack, hrefreshing'⟩ := Prepaint.run_reused children hreuse (hpart former hformer)
    refine ⟨w', state, hrun, ⟨ids, hadds, hinside⟩, hrecords, ?_, ?_,
      .inr ⟨hheld, former, hformer, hpaint⟩, hstack, hrefreshing'⟩
    · intro id hid
      exact hothers id fun heq => hid (heq ▸ List.suffix_rfl)
    · intro range hrange
      exact slice_prepainted_takeRange (hpart former hformer).prepainted (hrange former hformer)
        hadds.renderedHitboxes htooltips

/-- What the rendered frame has for the outermost views, before the roots are drawn. -/
structure Supplies (w₀ : Window D K) (views : List (CachedView D K)) : Prop where
  fresh : ∀ id, w₀.nextFrame.elementStates id = none
  parts : ∀ view ∈ views, ∀ former, Reused w₀ view former →
    w₀.renderedFrame.HasPrepainted former.prepaintRange view.id
      (Prepaint.outputAll view.children)
  apart : ∀ view ∈ views, ∀ other ∈ views, Separate view.id other.id →
    ∀ former earlier, Reused w₀ view former → Reused w₀ other earlier →
    PrepaintApart former.prepaintRange earlier.prepaintRange

/-- An outermost view that was prepainted, in a later window. -/
structure Visited (w₀ w : Window D K) (view : CachedView D K) (state : AnyViewState K) :
    Prop where
  found : w.nextFrame.elementStates view.id = some state
  cacheKey : state.cacheKey = view.cacheKey
  recorded : w.nextFrame.HasPrepainted state.prepaintRange view.id
    (Prepaint.outputAll view.children)
  stop : state.prepaintRange.stop.tooltipsIndex ≤ w.nextFrame.tooltipRequests.length
  taken : w.renderedFrame.elementStates view.id = none
  outcome : Outcome w₀ w view state

omit [DecidableEq K] in
theorem Adds.length_tooltips_le {w w' : Window D K} {part : Prepainted D}
    {ids : List GlobalElementId} (h : Adds w w' part ids) :
    w.nextFrame.tooltipRequests.length ≤ w'.nextFrame.tooltipRequests.length := by
  have hlength := congrArg (fun p : Prepainted D => p.tooltipRequests.length) h.prepainted
  simp only [Frame.prepainted, Prepainted.append_def, List.length_append, List.length_map]
    at hlength
  omega

omit [DecidableEq K] in
/-- Nothing within the view is changed afterwards. -/
theorem Visited.later {w₀ w w' : Window D K} {view : CachedView D K} {state : AnyViewState K}
    {part : Prepainted D} {ids : List GlobalElementId} (h : Visited w₀ w view state)
    (hadds : Adds w w' part ids)
    (hothers : ∀ id, view.id <:+ id →
      w'.nextFrame.elementStates id = w.nextFrame.elementStates id ∧
      w'.renderedFrame.elementStates id = w.renderedFrame.elementStates id ∧
      w'.held id = w.held id) : Visited w₀ w' view state := by
  obtain ⟨hnext, hrendered, hheld⟩ := hothers view.id List.suffix_rfl
  refine ⟨hnext.trans h.found, h.cacheKey, hadds.keeps h.recorded,
    h.stop.trans hadds.length_tooltips_le, hrendered.trans h.taken, ?_⟩
  refine h.outcome.imp ?_ ?_
  · rintro ⟨hview, hnone, hready⟩
    refine ⟨hheld.trans hview, hnone, ?_⟩
    intro id hid
    obtain ⟨hnext', -, hheld'⟩ :=
      hothers id (Prepaint.viewIds_inside.2 view.children view.id id hid).1
    rw [hnext', hheld']
    exact hready id hid
  · rintro ⟨hview, hreused⟩
    exact ⟨hheld.trans hview, hreused⟩

/-- The outermost views of a list are done, and a part was appended. -/
structure Prepainting (w₀ w : Window D K) (done : List (CachedView D K)) (part : Prepainted D) :
    Prop where
  adds : ∃ ids, Adds w₀ w part ids ∧ ∀ id ∈ ids, ∃ view ∈ done, view.id <:+ id
  refreshing : w.refreshing = w₀.refreshing
  untouched : ∀ id, (∀ view ∈ done, ¬ view.id <:+ id) →
    w.nextFrame.elementStates id = w₀.nextFrame.elementStates id ∧
    w.renderedFrame.elementStates id = w₀.renderedFrame.elementStates id
  tooltips : ∀ range, (∀ view ∈ done, ∀ former, Reused w₀ view former →
      PrepaintApart former.prepaintRange range) →
    w.renderedFrame.prepainted.slice range = w₀.renderedFrame.prepainted.slice range
  visited : ∀ view ∈ done, ∃ state, Visited w₀ w view state
  apart : ∀ view ∈ done, ∀ other ∈ done, Separate view.id other.id → ∀ state earlier,
    w.nextFrame.elementStates view.id = some state →
    w.nextFrame.elementStates other.id = some earlier →
    PrepaintApart state.prepaintRange earlier.prepaintRange

namespace Prepainting

variable {w₀ w w' : Window D K} {done : List (CachedView D K)} {part part' : Prepainted D}

omit [DecidableEq K] in
theorem start (w₀ : Window D K) : Prepainting w₀ w₀ [] .empty where
  adds := ⟨[], ⟨(Prepainted.append_empty _).symm, (List.append_nil _).symm, rfl, rfl, rfl, rfl, rfl,
    rfl, rfl, rfl⟩, by simp⟩
  refreshing := rfl
  untouched := fun _ _ => ⟨rfl, rfl⟩
  tooltips := fun _ _ => rfl
  visited := by simp
  apart := by simp

omit [DecidableEq K] in
/-- Calls in which there is no cached view. -/
theorem renders (h : Prepainting w₀ w done part) (hrenders : Renders w w' part' []) :
    Prepainting w₀ w' done (part ++ part') := by
  have hothers := fun id => hrenders.others id List.not_mem_nil
  obtain ⟨ids, hadds, hids⟩ := h.adds
  refine ⟨⟨ids, by simpa using hadds.trans hrenders.toAdds, hids⟩,
    hrenders.refreshing.trans h.refreshing, ?_, ?_, ?_, ?_⟩
  · intro id hid
    obtain ⟨hnext, hrendered⟩ := h.untouched id hid
    exact ⟨(hothers id).1.trans hnext, (hothers id).2.1.trans hrendered⟩
  · intro range hrange
    rw [← h.tooltips range hrange]
    simp only [Prepainted.slice, Frame.prepainted, hrenders.renderedHitboxes,
      hrenders.renderedTooltips]
  · intro view hview
    obtain ⟨state, hstate⟩ := h.visited view hview
    exact ⟨state, hstate.later hrenders.toAdds fun id _ => hothers id⟩
  · intro view hview other hother hseparate state earlier hstate hearlier
    rw [(hothers view.id).1] at hstate
    rw [(hothers other.id).1] at hearlier
    exact h.apart view hview other hother hseparate state earlier hstate hearlier

omit [DecidableEq K] in
/-- An element is entered or left. -/
theorem moved (h : Prepainting w₀ w done part) (stack : GlobalElementId) (tree : DispatchTree D) :
    Prepainting w₀ { w with
      elementIdStack := stack
      nextFrame := { w.nextFrame with dispatchTree := tree } } done part := by
  obtain ⟨ids, hadds, hids⟩ := h.adds
  refine ⟨⟨ids, { hadds with }, hids⟩, h.refreshing, h.untouched, h.tooltips, ?_, h.apart⟩
  intro view hview
  obtain ⟨state, hstate⟩ := h.visited view hview
  exact ⟨state, { hstate with recorded := { hstate.recorded with } }⟩

omit [DecidableEq K] in
/-- One more view. Its part begins where the vectors ended, behind those of the others. -/
theorem visits {view : CachedView D K} {state : AnyViewState K} (h : Prepainting w₀ w done part)
    (hfresh : ∀ id, w₀.nextFrame.elementStates id = none)
    (hvisits : Visits w₀ w w' view state) (hdone : ∀ other ∈ done, Separate other.id view.id) :
    Prepainting w₀ w' (done ++ [view]) (part ++ Prepaint.outputAll view.children) := by
  obtain ⟨ids, hadds, hids⟩ := h.adds
  obtain ⟨ids', hadds', hids'⟩ := hvisits.adds
  have hbefore : ∀ other ∈ done, ∀ id, other.id <:+ id →
      w'.nextFrame.elementStates id = w.nextFrame.elementStates id ∧
      w'.renderedFrame.elementStates id = w.renderedFrame.elementStates id ∧
      w'.held id = w.held id := fun other hother id hid =>
    hvisits.others id ((hdone other hother).not_suffix hid)
  have hbehind : ∀ other ∈ done, ∀ earlier later,
      w'.nextFrame.elementStates other.id = some earlier →
      w'.nextFrame.elementStates view.id = some later →
      earlier.prepaintRange.stop.tooltipsIndex ≤ later.prepaintRange.start.tooltipsIndex := by
    intro other hother earlier later hearlier hlater
    obtain ⟨visited, hvisited⟩ := h.visited other hother
    rw [(hbefore other hother other.id List.suffix_rfl).1, hvisited.found] at hearlier
    rw [hvisits.records.found] at hlater
    obtain rfl := Option.some.inj hearlier
    obtain rfl := Option.some.inj hlater
    rw [hvisits.records.start]
    exact hvisited.stop
  refine ⟨⟨ids ++ ids', hadds.trans hadds', ?_⟩, hvisits.refreshing.trans h.refreshing, ?_, ?_, ?_,
    ?_⟩
  · intro id hid
    obtain hid | hid := List.mem_append.mp hid
    · obtain ⟨other, hother, hsuffix⟩ := hids id hid
      exact ⟨other, List.mem_append_left _ hother, hsuffix⟩
    · exact ⟨view, by simp, hids' id hid⟩
  · intro id hid
    obtain ⟨hnext, hrendered⟩ := h.untouched id fun other hother =>
      hid other (List.mem_append_left _ hother)
    obtain ⟨hnext', hrendered', -⟩ := hvisits.others id (hid view (by simp))
    exact ⟨hnext'.trans hnext, hrendered'.trans hrendered⟩
  · intro range hrange
    rw [hvisits.tooltips range (hrange view (by simp))]
    exact h.tooltips range fun other hother => hrange other (List.mem_append_left _ hother)
  · intro other hother
    obtain hother | hother := List.mem_append.mp hother
    · obtain ⟨visited, hvisited⟩ := h.visited other hother
      exact ⟨visited, hvisited.later hadds' (hbefore other hother)⟩
    · rw [List.mem_singleton.mp hother]
      have hnone := (h.untouched view.id fun other hother => (hdone other hother).1).1
      exact ⟨state, hvisits.records.found, hvisits.records.cacheKey, hvisits.records.recorded,
        hvisits.records.stop.le, hvisits.records.taken (hnone.trans (hfresh view.id)),
        hvisits.outcome⟩
  · intro first hfirst second hsecond hseparate earlier later hearlier hlater
    obtain hfirst | hfirst := List.mem_append.mp hfirst
    · obtain hsecond | hsecond := List.mem_append.mp hsecond
      · rw [(hbefore first hfirst first.id List.suffix_rfl).1] at hearlier
        rw [(hbefore second hsecond second.id List.suffix_rfl).1] at hlater
        exact h.apart first hfirst second hsecond hseparate earlier later hearlier hlater
      · rw [List.mem_singleton.mp hsecond] at hlater
        exact .inl (hbehind first hfirst earlier later hearlier hlater)
    · rw [List.mem_singleton.mp hfirst] at hearlier hseparate
      obtain hsecond | hsecond := List.mem_append.mp hsecond
      · exact .inr (hbehind second hsecond later earlier hlater hearlier)
      · rw [List.mem_singleton.mp hsecond] at hseparate
        exact absurd rfl hseparate.ne

/-- One more cached view in the frame. -/
theorem cachedView {views : List (CachedView D K)} {entity : EntityId} {cacheKey : K}
    {children : List (Prepaint D K)} (h : Prepainting w₀ w done part)
    (hsupplies : Supplies w₀ views)
    (hseparate : views.Pairwise fun view other => Separate view.id other.id)
    (hdefers : Prepaint.defersAny children = false)
    (hinitial :
      done ++ [⟨.view entity :: w.elementIdStack, entity, cacheKey, children⟩] <+: views) :
    ∃ w', Prepaint.run (.cachedView entity cacheKey children) w = some w' ∧
      Prepainting w₀ w' (done ++ [⟨.view entity :: w.elementIdStack, entity, cacheKey, children⟩])
        (part ++ Prepaint.outputAll children) ∧
      w'.elementIdStack = w.elementIdStack := by
  let view : CachedView D K := ⟨.view entity :: w.elementIdStack, entity, cacheKey, children⟩
  have hmem : ∀ other ∈ done ++ [view], other ∈ views := fun other hother =>
    hinitial.subset hother
  have hdone : ∀ other ∈ done, Separate other.id view.id := Separate.of_initial hseparate hinitial
  obtain ⟨hnext, hrendered⟩ := h.untouched view.id fun other hother => (hdone other hother).1
  obtain ⟨ids, hadds, -⟩ := h.adds
  have hview := hmem view (by simp)
  have hstate : w.elementState view.id = w₀.renderedFrame.elementStates view.id := by
    rw [Window.elementState, hnext, hsupplies.fresh, Option.none_or, hrendered]
  have hpart : ∀ former, Reused w₀ view former → w.renderedFrame.HasPrepainted
      former.prepaintRange view.id (Prepaint.outputAll children) := by
    intro former hformer
    refine hadds.keepsRendered (hsupplies.parts view hview former hformer) ?_
    apply h.tooltips
    intro other hother earlier hearlier
    exact hsupplies.apart other (hmem other (List.mem_append_left _ hother)) view hview
      (hdone other hother) earlier former hearlier hformer
  obtain ⟨w', state, hrun, hvisits⟩ := exists_visits hdefers hstate hadds.dirtyViews h.refreshing
    hpart
  exact ⟨w', hrun, h.visits hsupplies.fresh hvisits hdone, hvisits.elementIdStack⟩

end Prepainting

/-- All calls of a frame can be made, and their output is appended. -/
theorem exists_prepainting {w₀ : Window D K} {views : List (CachedView D K)}
    (hsupplies : Supplies w₀ views)
    (hseparate : views.Pairwise fun view other => Separate view.id other.id) :
    (∀ call : Prepaint D K, call.defers = false → ∀ w done part, Prepainting w₀ w done part →
      done ++ call.outermost w.elementIdStack <+: views →
      ∃ w', call.run w = some w' ∧
        Prepainting w₀ w' (done ++ call.outermost w.elementIdStack) (part ++ call.output) ∧
        w'.elementIdStack = w.elementIdStack) ∧
    ∀ calls : List (Prepaint D K), Prepaint.defersAny calls = false → ∀ w done part,
      Prepainting w₀ w done part → done ++ Prepaint.outermostAll w.elementIdStack calls <+: views →
      ∃ w', Prepaint.runAll calls w = some w' ∧
        Prepainting w₀ w' (done ++ Prepaint.outermostAll w.elementIdStack calls)
          (part ++ Prepaint.outputAll calls) ∧
        w'.elementIdStack = w.elementIdStack := by
  have hleaf : ∀ call : Prepaint D K, (∀ id children, call ≠ .element id children) →
      (∀ entity cacheKey children, call ≠ .cachedView entity cacheKey children) →
      call.defers = false → ∀ w done part, Prepainting w₀ w done part →
      ∃ w', call.run w = some w' ∧
        Prepainting w₀ w' (done ++ call.outermost w.elementIdStack) (part ++ call.output) ∧
        w'.elementIdStack = w.elementIdStack := by
    intro call helement hview hdefers w done part h
    obtain ⟨w', hrun, hrenders⟩ := Prepaint.run_leaf helement hview hdefers w
    have hnone : call.outermost w.elementIdStack = [] := by
      cases call <;> simp_all [Prepaint.outermost]
    rw [hnone, List.append_nil]
    exact ⟨w', hrun, h.renders hrenders, hrenders.elementIdStack⟩
  apply Prepaint.induction
  case insertHitbox =>
    intro data hdefers w done part h _
    exact hleaf _ (by simp) (by simp) hdefers w done part h
  case setTooltip =>
    intro tooltip hdefers w done part h _
    exact hleaf _ (by simp) (by simp) hdefers w done part h
  case setFocusHandle =>
    intro id hdefers w done part h _
    exact hleaf _ (by simp) (by simp) hdefers w done part h
  case setViewId =>
    intro id hdefers w done part h _
    exact hleaf _ (by simp) (by simp) hdefers w done part h
  case deferDraw =>
    intro content inherited priority hdefers
    cases hdefers
  case element =>
    intro id children ih hdefers w done part h hinitial
    obtain ⟨w', hrun, hw', hstack⟩ := ih hdefers (w.enter id) done part (h.moved _ _) hinitial
    refine ⟨w'.leave id, ?_, hw'.moved _ _, Window.elementIdStack_leave hstack⟩
    rw [Prepaint.run, hrun, Option.map_some]
  case cachedView =>
    intro entity cacheKey children _ hdefers w done part h hinitial
    exact h.cachedView hsupplies hseparate hdefers hinitial
  case nil =>
    intro _ w done part h _
    exact ⟨w, rfl, by simpa [Prepaint.outermostAll, Prepaint.outputAll] using h, rfl⟩
  case cons =>
    intro call calls hcall hcalls hdefers w done part h hinitial
    rw [Prepaint.defersAny, Bool.or_eq_false_iff] at hdefers
    rw [Prepaint.outermostAll, ← List.append_assoc] at hinitial ⊢
    obtain ⟨w', hrun, hw', hstack⟩ := hcall hdefers.1 w done part h
      ((List.prefix_append _ _).trans hinitial)
    obtain ⟨w'', hrun', hw'', hstack'⟩ := hcalls hdefers.2 w' _ _ hw' (by rwa [hstack])
    rw [hstack] at hw''
    refine ⟨w'', ?_, ?_, hstack'.trans hstack⟩
    · rw [Prepaint.runAll, hrun, Option.bind_some, hrun']
    · rw [Prepaint.outputAll, ← Prepainted.append_assoc]
      exact hw''

end Lucie.Drawing
