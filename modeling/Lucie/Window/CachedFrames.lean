import Lucie.Window.CachedPaint

/-!
# Frames drawn with cached views

A rendered frame keeps what the outermost views of its contents have left in it: their states
have the ranges of their parts, and these ranges are apart. This is what the next frame needs,
and what it leaves again, so that every frame of a run shows what a new window shows that
draws the same contents.
-/

set_option autoImplicit false

namespace Lucie.Drawing

variable {D K : Type}

/-- A rendered frame has a state for each outermost view of its contents, and the parts in the
ranges of these states. -/
structure Keeps (last : Contents D K) (f : Frame D K) : Prop where
  inside : ∀ id, (f.elementStates id).isSome → ∃ view ∈ last.views, view.id <:+ id
  states : ∀ view ∈ last.views, ∃ state, f.elementStates view.id = some state ∧
    state.cacheKey = view.cacheKey ∧
    f.HasPrepainted state.prepaintRange view.id (Prepaint.outputAll view.children) ∧
    ∀ painted ∈ last.paintedViews, painted.id = view.id →
      f.HasPainted state.paintRange view.id (Paint.outputAll last.focus painted.children)
  apart : ∀ view ∈ last.views, ∀ other ∈ last.views, Separate view.id other.id →
    ∀ state earlier, f.elementStates view.id = some state →
    f.elementStates other.id = some earlier →
    PrepaintApart state.prepaintRange earlier.prepaintRange ∧
      PaintApart state.paintRange earlier.paintRange

namespace Contents

variable {last c : Contents D K}

theorem Proper.separate_paintedViews (h : c.Proper) :
    c.paintedViews.Pairwise fun view other => Separate view.id other.id := by
  have hviews : (c.views.map (·.id)).Pairwise Separate := List.pairwise_map.mpr h.separate
  have hpainted := (h.painted.pairwise_iff fun hseparate => hseparate.symm).mpr hviews
  exact List.pairwise_map.mp hpainted

theorem Proper.exists_view (h : c.Proper) {painted : PaintedView D}
    (hpainted : painted ∈ c.paintedViews) : ∃ view ∈ c.views, view.id = painted.id :=
  List.mem_map.mp (h.painted.subset (List.mem_map_of_mem hpainted))

theorem Proper.exists_painted (h : c.Proper) {view : CachedView D K} (hview : view ∈ c.views) :
    ∃ painted ∈ c.paintedViews, painted.id = view.id :=
  List.mem_map.mp (h.painted.symm.subset (List.mem_map_of_mem hview))

/-- What a frame of the contents shows. -/
def visible (c : Contents D K) : Visible D :=
  let painted := Paint.outputAll c.focus c.paint
  ⟨Prepaint.outputAll c.prepaint,
    { painted with inputHandlers := painted.inputHandlers.dropLast },
    painted.inputHandlers.getLast?.join⟩

end Contents

namespace Keeps

variable {last c : Contents D K} {w₀ w₁ : Window D K}

/-- A view that is taken over was an outermost view of the last frame. -/
theorem exists_former (h : Keeps last w₀.renderedFrame) (hfollows : last.Follows c)
    {view : CachedView D K} (hview : view ∈ c.views) {state : AnyViewState K}
    (hstate : w₀.renderedFrame.elementStates view.id = some state) :
    ∃ former ∈ last.views, former.id = view.id ∧ former.cacheKey = state.cacheKey ∧
      w₀.renderedFrame.HasPrepainted state.prepaintRange view.id
        (Prepaint.outputAll former.children) ∧
      ∀ painted ∈ last.paintedViews, painted.id = view.id →
        w₀.renderedFrame.HasPainted state.paintRange view.id
          (Paint.outputAll last.focus painted.children) := by
  obtain ⟨former, hformer, hsuffix⟩ := h.inside view.id (by rw [hstate]; rfl)
  have hid := hfollows.outermost view hview former hformer hsuffix
  obtain ⟨found, hfound, hkey, hprepainted, hpainted⟩ := h.states former hformer
  rw [hid] at hfound hprepainted hpainted
  obtain rfl := Option.some.inj (hfound.symm.trans hstate)
  exact ⟨former, hformer, hid, hkey.symm, hprepainted, hpainted⟩

/-- The states of the outermost views have ranges apart. -/
theorem apart_of_follows (h : Keeps last w₀.renderedFrame) (hfollows : last.Follows c)
    {view other : CachedView D K} (hview : view ∈ c.views) (hother : other ∈ c.views)
    (hseparate : Separate view.id other.id) {state earlier : AnyViewState K}
    (hstate : w₀.renderedFrame.elementStates view.id = some state)
    (hearlier : w₀.renderedFrame.elementStates other.id = some earlier) :
    PrepaintApart state.prepaintRange earlier.prepaintRange ∧
      PaintApart state.paintRange earlier.paintRange := by
  obtain ⟨former, hformer, hid, -⟩ := h.exists_former hfollows hview hstate
  obtain ⟨former', hformer', hid', -⟩ := h.exists_former hfollows hother hearlier
  rw [← hid] at hstate hseparate
  rw [← hid'] at hearlier hseparate
  exact h.apart former hformer former' hformer' hseparate state earlier hstate hearlier

/-- What the outermost views can take over is what they would leave. -/
theorem supplies (h : Keeps last w₀.renderedFrame) (hfollows : last.Follows c)
    (hfresh : ∀ id, w₀.nextFrame.elementStates id = none) (hdirty : w₀.dirtyViews = c.dirtyViews)
    (hrefreshing : w₀.refreshing = c.refreshing) : Supplies w₀ c.views where
  fresh := hfresh
  parts := by
    rintro view hview former ⟨hstate, hkey, hclean, hcalm⟩
    rw [hdirty] at hclean
    rw [hrefreshing] at hcalm
    obtain ⟨old, hold, hid, hkey', hprepainted, -⟩ := h.exists_former hfollows hview hstate
    rw [hfollows.prepaint view hview old hold hid (hkey'.trans hkey) hclean hcalm]
    exact hprepainted
  apart := by
    rintro view hview other hother hseparate former earlier ⟨hstate, -⟩ ⟨hearlier, -⟩
    exact (h.apart_of_follows hfollows hview hother hseparate hstate hearlier).1

/-- What there is for the outermost views when they are painted is what they would leave. -/
theorem paintSupplies [DecidableEq K] (h : Keeps last w₀.renderedFrame) (hfollows : last.Follows c)
    (hlast : last.Proper) (hproper : c.Proper) (hdirty : w₀.dirtyViews = c.dirtyViews)
    (hrefreshing : w₀.refreshing = c.refreshing) (hfocus : w₀.focus = c.focus)
    {part : Prepainted D} (hw₁ : Prepainting w₀ w₁ c.views part) :
    PaintSupplies w₁ c.paintedViews := by
  obtain ⟨ids, hadds, -⟩ := hw₁.adds
  constructor
  · intro painted hpainted
    obtain ⟨view, hview, hid⟩ := hproper.exists_view hpainted
    obtain ⟨state, hvisited⟩ := hw₁.visited view hview
    rw [← hid, hvisited.found]
    rfl
  · intro painted hpainted hheld id hmem
    obtain ⟨view, hview, hid⟩ := hproper.exists_view hpainted
    obtain ⟨state, hvisited⟩ := hw₁.visited view hview
    obtain ⟨-, -, hready⟩ | ⟨hnot, -⟩ := hvisited.outcome
    · exact hready id (hproper.nested view hview painted hpainted hid.symm id hmem)
    · rw [hid, hheld] at hnot
      cases hnot
  · intro painted hpainted hheld state hstate
    obtain ⟨view, hview, hid⟩ := hproper.exists_view hpainted
    obtain ⟨found, hvisited⟩ := hw₁.visited view hview
    obtain ⟨htrue, -⟩ | ⟨-, former, ⟨hformer, hkey, hclean, hcalm⟩, hrange⟩ := hvisited.outcome
    · rw [hid, hheld] at htrue
      cases htrue
    · rw [← hid, hvisited.found] at hstate
      obtain rfl := Option.some.inj hstate
      rw [hdirty] at hclean
      rw [hrefreshing] at hcalm
      obtain ⟨old, hold, hid', hkey', -, hhas⟩ := h.exists_former hfollows hview hformer
      obtain ⟨earlier, hearlier, hearlierId⟩ := hlast.exists_painted hold
      rw [hid'] at hearlierId
      have hsame := hfollows.paint view hview old hold hid' (hkey'.trans hkey) hclean hcalm
        painted hpainted hid.symm earlier hearlier hearlierId
      have hpart := hhas earlier hearlier hearlierId
      rw [hrange, hadds.focus, hfocus, hsame, ← hid]
      refine ⟨?_, ?_⟩
      · rw [hadds.renderedPainted]
        exact hpart.painted
      · rw [hadds.renderedAccessed]
        exact hpart.accessed
  · intro painted hpainted other hother hseparate hheld hheld' state earlier hstate hearlier
    obtain ⟨view, hview, hid⟩ := hproper.exists_view hpainted
    obtain ⟨view', hview', hid'⟩ := hproper.exists_view hother
    obtain ⟨found, hvisited⟩ := hw₁.visited view hview
    obtain ⟨found', hvisited'⟩ := hw₁.visited view' hview'
    rw [← hid] at hheld hstate hseparate
    rw [← hid'] at hheld' hearlier hseparate
    obtain rfl := Option.some.inj (hvisited.found.symm.trans hstate)
    obtain rfl := Option.some.inj (hvisited'.found.symm.trans hearlier)
    obtain ⟨htrue, -⟩ | ⟨-, former, ⟨hformer, -⟩, hrange⟩ := hvisited.outcome
    · rw [hheld] at htrue
      cases htrue
    obtain ⟨htrue, -⟩ | ⟨-, former', ⟨hformer', -⟩, hrange'⟩ := hvisited'.outcome
    · rw [hheld'] at htrue
      cases htrue
    rw [hrange, hrange']
    exact (h.apart_of_follows hfollows hview hview' hseparate hformer hformer').2

end Keeps

/-- The states of a finished frame. -/
theorem elementStates_finished (f prevFrame : Frame D K) (id : GlobalElementId) :
    (f.finish prevFrame).elementStates id =
      if id ∈ f.accessedElementStates then
        (prevFrame.elementStates id).or (f.elementStates id)
      else f.elementStates id := by
  simp only [Frame.finish, StateFrame.elementStates_finish]

/-- A frame that was drawn keeps what its outermost views have left. -/
theorem keeps_of_painting [DecidableEq K] {c : Contents D K} {w₀ w₁ w₂ : Window D K}
    {prepainted : Prepainted D} {painted : Painted D} (hproper : c.Proper)
    (hnext : w₀.nextFrame = .new) (hfocus : w₀.focus = c.focus)
    (hw₁ : Prepainting w₀ w₁ c.views prepainted) (hw₂ : Painting w₁ w₂ c.paintedViews painted) :
    Keeps c (w₂.nextFrame.finish w₂.renderedFrame) := by
  obtain ⟨ids, hadds, hids⟩ := hw₁.adds
  obtain ⟨ids', hadds', hids'⟩ := hw₂.adds
  have hfinished : ∀ view ∈ c.views,
      (w₂.nextFrame.finish w₂.renderedFrame).elementStates view.id =
        w₂.nextFrame.elementStates view.id := by
    intro view hview
    obtain ⟨state, hvisited⟩ := hw₁.visited view hview
    rw [elementStates_finished, hadds'.renderedStates, hvisited.taken, Option.none_or, ite_self]
  -- the state of a view has its ranges from the prepaint and from the paint
  have hstates : ∀ view ∈ c.views, ∀ painted ∈ c.paintedViews, painted.id = view.id →
      ∃ state range, Visited w₀ w₁ view state ∧ PaintVisited w₁ w₂ painted state range := by
    intro view hview painted hpainted hid
    obtain ⟨state, hvisited⟩ := hw₁.visited view hview
    obtain ⟨state', range, hvisited'⟩ := hw₂.visited painted hpainted
    have hsame := hvisited'.before
    rw [hid, hvisited.found] at hsame
    obtain rfl := Option.some.inj hsame
    exact ⟨state, range, hvisited, hvisited'⟩
  constructor
  · intro id hsome
    rw [elementStates_finished] at hsome
    have hcases : (w₂.nextFrame.elementStates id).isSome ∨
        id ∈ w₂.nextFrame.accessedElementStates := by
      split_ifs at hsome with hmem
      · exact .inr hmem
      · exact .inl hsome
    obtain hsome | hmem := hcases
    · by_contra hnot
      have hnone := (hw₁.untouched id fun view hview hsuffix => hnot ⟨view, hview, hsuffix⟩).1
      rw [hw₂.views, hnone, hnext] at hsome
      cases hsome
    · rw [hadds'.accessed, hadds.accessed, hnext, List.mem_append] at hmem
      obtain hmem | hmem := hmem
      · exact hids id (by simpa [Frame.new] using hmem)
      · obtain ⟨painted, hpainted, hsuffix⟩ := hids' id hmem
        obtain ⟨view, hview, hid⟩ := hproper.exists_view hpainted
        exact ⟨view, hview, hid ▸ hsuffix⟩
  · intro view hview
    obtain ⟨painted, hpainted, hid⟩ := hproper.exists_painted hview
    obtain ⟨state, range, hvisited, hvisited'⟩ := hstates view hview painted hpainted hid
    refine ⟨{ state with paintRange := range }, ?_, hvisited.cacheKey, ?_, ?_⟩
    · rw [hfinished view hview, ← hid]
      exact hvisited'.found
    · exact { hadds'.keepsPrepainted hvisited.recorded with }
    · intro other hother hother'
      obtain ⟨state', range', hvisited'', hpaint⟩ := hstates view hview other hother hother'
      have hfound := hvisited'.found
      rw [hid, ← hother', hpaint.found] at hfound
      obtain rfl : range' = range := congrArg AnyViewState.paintRange (Option.some.inj hfound)
      have hrecorded := hpaint.recorded
      rw [hadds.focus, hfocus, hother'] at hrecorded
      exact { hrecorded with }
  · intro view hview other hother hseparate state earlier hstate hearlier
    rw [hfinished view hview] at hstate
    rw [hfinished other hother] at hearlier
    obtain ⟨painted, hpainted, hid⟩ := hproper.exists_painted hview
    obtain ⟨painted', hpainted', hid'⟩ := hproper.exists_painted hother
    obtain ⟨before, range, hvisited, hpaint⟩ := hstates view hview painted hpainted hid
    obtain ⟨before', range', hvisited', hpaint'⟩ := hstates other hother painted' hpainted' hid'
    have hprepaint := hw₁.apart view hview other hother hseparate before before' hvisited.found
      hvisited'.found
    rw [← hid] at hstate hseparate
    rw [← hid'] at hearlier hseparate
    have hpaintApart := hw₂.apart painted hpainted painted' hpainted' hseparate state earlier
      hstate hearlier
    obtain rfl := Option.some.inj (hpaint.found.symm.trans hstate)
    obtain rfl := Option.some.inj (hpaint'.found.symm.trans hearlier)
    exact ⟨hprepaint, hpaintApart⟩

namespace Paint

/-- The input handlers that are registered in a frame are there. -/
theorem inputHandlers_output : (∀ (call : Paint D) (focus : Option FocusId),
      none ∉ (call.output focus).inputHandlers) ∧
    ∀ (calls : List (Paint D)) (focus : Option FocusId),
      none ∉ (outputAll focus calls).inputHandlers := by
  apply Paint.induction
  case leaf =>
    intro call helement hview focus
    cases call with
    | element id node children => exact absurd rfl (helement id node children)
    | cachedView entity node children => exact absurd rfl (hview entity node children)
    | handleInput focusHandle inputHandler =>
      rw [output]
      dsimp only
      split_ifs <;> simp
    | _ => simp [output, Painted.empty]
  case element =>
    intro id node children ih focus
    exact ih focus
  case cachedView =>
    intro entity node children ih focus
    exact ih focus
  case nil =>
    intro focus
    simp [outputAll, Painted.empty]
  case cons =>
    intro call calls hcall hcalls focus
    simp only [outputAll, Painted.append_def, List.mem_append, not_or]
    exact ⟨hcall focus, hcalls focus⟩

end Paint

namespace Screen

/-- Popping does not fail on handlers that are there, and pushing undoes it. -/
theorem exists_popInputHandler {handlers : List (Option D)} (h : none ∉ handlers) :
    popInputHandler handlers = some (handlers.dropLast, handlers.getLast?.join) ∧
      handlers.dropLast ++ handlers.getLast?.join.toList.map some = handlers := by
  cases hlast : handlers.getLast? with
  | none =>
    obtain rfl := List.getLast?_eq_none_iff.mp hlast
    exact ⟨rfl, rfl⟩
  | some last =>
    cases last with
    | none => exact absurd (List.mem_of_getLast? hlast) h
    | some handler =>
      refine ⟨by rw [popInputHandler, hlast]; rfl, ?_⟩
      exact List.dropLast_append_getLast? _ hlast

/-- A window between two frames: the last contents are kept in the rendered frame, once the
input handler is taken back. -/
structure Rests (last : Contents D K) (s : Screen D K) : Prop where
  proper : last.Proper
  next : s.window.nextFrame = .new
  stack : s.window.elementIdStack = []
  keeps : ∀ c : Contents D K, Keeps last (s.begin c).renderedFrame

variable [DecidableEq K]

/-- One frame. Nothing panics, what it shows is the output of the contents, and a view is
rendered exactly if it is not taken over. -/
theorem exists_draw {last c : Contents D K} {s : Screen D K} (h : Rests last s)
    (hfollows : last.Follows c) (hproper : c.Proper) :
    ∃ s' w₁, s.draw c = some s' ∧ Rests c s' ∧ s'.visible = c.visible ∧
      Prepaint.runAll c.prepaint (s.begin c) = some w₁ ∧
      ∀ view ∈ c.views, w₁.held view.id = true ↔ ¬ ∃ former, Reused (s.begin c) view former := by
  let w₀ := s.begin c
  have hkeeps := h.keeps c
  have hnext : w₀.nextFrame = .new := h.next
  have hfresh : ∀ id, w₀.nextFrame.elementStates id = none := by
    intro id
    rw [hnext]
    rfl
  have hstack : w₀.elementIdStack = [] := h.stack
  have hviews : [] ++ Prepaint.outermostAll w₀.elementIdStack c.prepaint <+: c.views := by
    rw [hstack]
    exact List.prefix_rfl
  obtain ⟨w₁, hrun, hw₁, hstack₁⟩ := (exists_prepainting (hkeeps.supplies hfollows hfresh rfl rfl)
    hproper.separate).2 c.prepaint hproper.deferred w₀ [] .empty (.start w₀) hviews
  rw [hstack, List.nil_append, Prepainted.empty_append] at hw₁
  have hpaintedViews : [] ++ Paint.outermostAll w₁.elementIdStack c.paint <+: c.paintedViews := by
    rw [hstack₁, hstack]
    exact List.prefix_rfl
  obtain ⟨w₂, hrun', hw₂, hstack₂⟩ := (exists_painting
    (hkeeps.paintSupplies hfollows h.proper hproper rfl rfl rfl hw₁)
    hproper.separate_paintedViews).2 c.paint w₁ [] .empty (.start w₁) hpaintedViews
  rw [hstack₁, hstack, List.nil_append, Painted.empty_append] at hw₂
  obtain ⟨ids, hadds, -⟩ := hw₁.adds
  obtain ⟨ids', hadds', -⟩ := hw₂.adds
  have hempty : w₁.nextFrame.painted = .empty := by
    rw [hadds.painted]
    exact congrArg Frame.painted hnext
  have hpainted : w₂.nextFrame.painted = Paint.outputAll c.focus c.paint := by
    rw [hadds'.painted, hempty, Painted.empty_append, hadds.focus]
    rfl
  have hprepainted : w₂.nextFrame.prepainted = Prepaint.outputAll c.prepaint := by
    rw [hadds'.prepainted, hadds.prepainted]
    change w₀.nextFrame.prepainted ++ _ = _
    rw [hnext]
    exact Prepainted.empty_append _
  have hhandlers : none ∉ w₂.nextFrame.inputHandlers := by
    have hnone := Paint.inputHandlers_output.2 c.paint c.focus
    rwa [← hpainted] at hnone
  obtain ⟨hpop, hpush⟩ := exists_popInputHandler hhandlers
  let s' : Screen D K := ⟨{ w₂ with
    nextFrame := .new
    renderedFrame := { w₂.nextFrame with
      inputHandlers := w₂.nextFrame.inputHandlers.dropLast }.finish w₂.renderedFrame
    dirtyViews := ∅
    refreshing := false }, w₂.nextFrame.inputHandlers.getLast?.join⟩
  have hpresent : present w₂ = some s' := by
    rw [present, hpop]
    rfl
  refine ⟨s', w₁, ?_, ⟨hproper, rfl, ?_, ?_⟩, ?_, hrun, ?_⟩
  · rw [draw, hrun, Option.bind_eq_bind, Option.bind_some, hrun', Option.bind_some, hpresent]
  · exact hstack₂.trans (hstack₁.trans hstack)
  · intro next
    have hframe : (s'.begin next).renderedFrame = { w₂.nextFrame with
        inputHandlers := w₂.nextFrame.inputHandlers.dropLast ++
          w₂.nextFrame.inputHandlers.getLast?.join.toList.map some }.finish w₂.renderedFrame := rfl
    rw [hframe, hpush]
    exact keeps_of_painting hproper hnext rfl hw₁ hw₂
  · change (⟨w₂.nextFrame.prepainted, { w₂.nextFrame.painted with
      inputHandlers := w₂.nextFrame.painted.inputHandlers.dropLast },
      w₂.nextFrame.painted.inputHandlers.getLast?.join⟩ : Visible D) = c.visible
    rw [hprepainted, hpainted]
    rfl
  · intro view hview
    obtain ⟨state, hvisited⟩ := hw₁.visited view hview
    obtain ⟨hheld, hnone, -⟩ | ⟨hheld, former, hformer, -⟩ := hvisited.outcome
    · exact ⟨fun _ => hnone, fun _ => hheld⟩
    · rw [hheld]
      exact ⟨fun hfalse => absurd hfalse Bool.false_ne_true,
        fun hnone => absurd ⟨former, hformer⟩ hnone⟩

omit [DecidableEq K] in
/-- A new window. -/
theorem new_rests : Rests .blank (new : Screen D K) where
  proper := ⟨rfl, .nil, .nil, by simp [Contents.blank, Contents.views, Prepaint.outermostAll]⟩
  next := rfl
  stack := rfl
  keeps := by
    intro c
    constructor
    · intro id hsome
      cases hsome
    · simp [Contents.blank, Contents.views, Prepaint.outermostAll]
    · simp [Contents.blank, Contents.views, Prepaint.outermostAll]

omit [DecidableEq K] in
theorem blank_follows (c : Contents D K) : Contents.blank.Follows c where
  outermost := by simp [Contents.blank, Contents.views, Prepaint.outermostAll]
  prepaint := by simp [Contents.blank, Contents.views, Prepaint.outermostAll]
  paint := by simp [Contents.blank, Contents.views, Prepaint.outermostAll]

/-- Frames one after the other. The induction is on the contents. -/
theorem drawAll_eq {contents : List (Contents D K)} {last : Contents D K} {s : Screen D K}
    (h : Rests last s) (hfollows : (last :: contents).IsChain Contents.Follows)
    (hproper : ∀ c ∈ contents, c.Proper) :
    s.drawAll contents = some (contents.map Contents.visible) := by
  induction contents generalizing last s with
  | nil => rfl
  | cons c contents ih =>
    rw [List.isChain_cons_cons] at hfollows
    obtain ⟨s', -, hdraw, hs', hvisible, -⟩ := exists_draw h hfollows.1 (hproper c (by simp))
    have hrest := ih hs' hfollows.2 fun next hnext => hproper next (by simp [hnext])
    simp only [drawAll, hdraw, hrest, hvisible, Option.bind_eq_bind, Option.bind_some,
      List.map_cons]

/-- Frames one after the other, and the window after them. -/
theorem exists_foldlM_draw {contents : List (Contents D K)} {last : Contents D K}
    {s : Screen D K} (h : Rests last s)
    (hfollows : (last :: contents).IsChain Contents.Follows)
    (hproper : ∀ c ∈ contents, c.Proper) :
    ∃ s', contents.foldlM draw s = some s' ∧ Rests (contents.getLastD last) s' := by
  induction contents generalizing last s with
  | nil => exact ⟨s, rfl, h⟩
  | cons c contents ih =>
    rw [List.isChain_cons_cons] at hfollows
    obtain ⟨s', -, hdraw, hs', -⟩ := exists_draw h hfollows.1 (hproper c (by simp))
    obtain ⟨s'', hrest, hs''⟩ := ih hs' hfollows.2 fun next hnext => hproper next (by simp [hnext])
    refine ⟨s'', ?_, ?_⟩
    · rw [List.foldlM_cons, hdraw]
      exact hrest
    · rwa [List.getLastD_cons]

omit [DecidableEq K] in
theorem isChain_blank {contents : List (Contents D K)}
    (hfollows : contents.IsChain Contents.Follows) :
    (.blank :: contents).IsChain Contents.Follows := by
  cases contents with
  | nil => exact .singleton _
  | cons c contents => exact .cons_cons (blank_follows c) hfollows

/-- Frames that are drawn with cached views do not panic, and each of them shows what a new
window shows that draws its contents: the same hitboxes, tooltip requests, paint operations,
listeners, input handlers, cursor styles and tab stops in the same order. -/
theorem cached_frames {contents : List (Contents D K)} (hproper : ∀ c ∈ contents, c.Proper)
    (hfollows : contents.IsChain Contents.Follows) :
    ∃ frames, (new : Screen D K).drawAll contents = some frames ∧
      contents.map (fun c => ((new : Screen D K).draw c).map visible) = frames.map some := by
  refine ⟨contents.map Contents.visible,
    drawAll_eq new_rests (isChain_blank hfollows) hproper, ?_⟩
  rw [List.map_map]
  apply List.map_congr_left
  intro c hc
  obtain ⟨s', -, hdraw, -, hvisible, -⟩ := exists_draw new_rests (blank_follows c) (hproper c hc)
  rw [hdraw, Option.map_some, hvisible]
  rfl

/-- A cached view with another one in it, beside a hitbox. -/
def panel (outer inner : ℕ) (dirtyViews : Finset EntityId) : Contents ℕ ℕ where
  focus := none
  dirtyViews := dirtyViews
  refreshing := false
  prepaint := [.insertHitbox outer, .element (some (.named 0)) [
    .cachedView ⟨1, 1⟩ 0 [.setTooltip inner, .cachedView ⟨2, 1⟩ 0 [.insertHitbox 9]]]]
  paint := [.element (some (.named 0)) 0 [
    .cachedView ⟨1, 1⟩ 1 [.onMouseEvent inner, .cachedView ⟨2, 1⟩ 2 [.insertOperation 8]]]]

theorem panel_proper (outer inner : ℕ) (dirtyViews : Finset EntityId) :
    (panel outer inner dirtyViews).Proper where
  deferred := rfl
  separate := List.pairwise_singleton _ _
  painted := .refl _
  nested := by
    intro view hview painted hpainted _ id hid
    obtain rfl := List.mem_singleton.mp hview
    obtain rfl := List.mem_singleton.mp hpainted
    exact hid

/-- The view is dirty, or what it draws has not changed. -/
theorem panel_follows {outer inner outer' inner' : ℕ} {dirtyViews dirtyViews' : Finset EntityId}
    (h : ⟨1, 1⟩ ∉ dirtyViews' → inner' = inner) :
    (panel outer inner dirtyViews).Follows (panel outer' inner' dirtyViews') where
  outermost := by
    intro view hview former hformer _
    obtain rfl := List.mem_singleton.mp hview
    obtain rfl := List.mem_singleton.mp hformer
    rfl
  prepaint := by
    intro view hview former hformer _ _ hclean _
    obtain rfl := List.mem_singleton.mp hview
    obtain rfl := List.mem_singleton.mp hformer
    rw [h hclean]
  paint := by
    intro view hview former hformer _ _ hclean _ painted hpainted _ earlier hearlier _
    obtain rfl := List.mem_singleton.mp hview
    obtain rfl := List.mem_singleton.mp hpainted
    obtain rfl := List.mem_singleton.mp hearlier
    rw [h hclean]
    rfl

/-- The view is taken over in the second frame and rendered in the third. -/
theorem cached_frames_panel :
    let contents := [panel 1 2 ∅, panel 3 2 ∅, panel 3 4 {⟨1, 1⟩}]
    ∃ frames, (new : Screen ℕ ℕ).drawAll contents = some frames ∧
      contents.map (fun c => ((new : Screen ℕ ℕ).draw c).map visible) = frames.map some := by
  refine cached_frames ?_ ?_
  · simp [panel_proper]
  · simp [panel_follows]

/-- A view that is cached, or not, with a cached view in it, behind hitboxes. -/
def toggled (hitboxes : List ℕ) (isCached : Bool) : Contents ℕ ℕ where
  focus := none
  dirtyViews := ∅
  refreshing := false
  prepaint := hitboxes.map .insertHitbox ++
    let children := [.cachedView ⟨2, 1⟩ 0 [.insertHitbox 9]]
    [if isCached then .cachedView ⟨1, 1⟩ 0 children else .view ⟨1, 1⟩ children]
  paint :=
    let children := [.cachedView ⟨2, 1⟩ 1 []]
    [if isCached then .cachedView ⟨1, 1⟩ 0 children
      else .element (some (.view ⟨1, 1⟩)) 0 children]

/-- The outer view is taken over in the second frame and is not cached in the third, where the
inner one takes over the range that it had in the first: the hitbox of another element. An
outermost view is therefore not inside a former one. -/
example : ((new : Screen ℕ ℕ).drawAll
    [toggled [] true, toggled [5] true, toggled [5] false]).map
      (·.map (·.prepainted.hitboxes)) = some [[9], [5, 9], [5, 5]] := by
  decide +kernel

/-- In every frame of a run, an outermost cached view is rendered exactly if it was not drawn
with the same cache key in the previous frame, it is dirty, or the window was refreshed. -/
theorem rendered_again_iff {contents : List (Contents D K)} {last c : Contents D K}
    (hproper : ∀ drawn ∈ contents ++ [last, c], drawn.Proper)
    (hfollows : (contents ++ [last, c]).IsChain Contents.Follows) :
    ∃ s w, (contents ++ [last]).foldlM draw (new : Screen D K) = some s ∧
      Prepaint.runAll c.prepaint (s.begin c) = some w ∧
      ∀ view ∈ c.views, w.held view.id = true ↔
        (∀ former ∈ last.views, former.id = view.id → former.cacheKey ≠ view.cacheKey) ∨
          view.entity ∈ c.dirtyViews ∨ c.refreshing = true := by
  have hsplit : contents ++ [last, c] = (contents ++ [last]) ++ [c] := by simp
  rw [hsplit] at hproper hfollows
  obtain ⟨hbefore, -, hlast⟩ := List.isChain_append.mp hfollows
  obtain ⟨s, hdraw, hs⟩ := exists_foldlM_draw new_rests (isChain_blank hbefore) fun drawn hdrawn =>
    hproper drawn (List.mem_append_left _ hdrawn)
  have hlastFollows : last.Follows c := hlast last (by simp) c (by simp)
  have hlastD : (contents ++ [last]).getLastD .blank = last := by simp
  rw [hlastD] at hs
  obtain ⟨-, w, -, -, -, hrun, hheld⟩ := exists_draw hs hlastFollows (hproper c (by simp))
  refine ⟨s, w, hdraw, hrun, ?_⟩
  intro view hview
  rw [hheld view hview]
  have hkeeps := hs.keeps c
  constructor
  · intro hnot
    by_contra hcases
    simp only [not_or, not_forall, not_not] at hcases
    obtain ⟨⟨former, hformer, hid, hkey⟩, hclean, hcalm⟩ := hcases
    obtain ⟨state, hstate, hstateKey, -⟩ := hkeeps.states former hformer
    rw [hid] at hstate
    exact hnot ⟨state, hstate, hstateKey.trans hkey, hclean, Bool.not_eq_true _ ▸ hcalm⟩
  · rintro hcases ⟨state, hstate, hkey, hclean, hcalm⟩
    obtain hnew | hdirty | hrefreshing := hcases
    · obtain ⟨former, hformer, hid, hkey', -⟩ := hkeeps.exists_former hlastFollows hview hstate
      exact hnew former hformer hid (hkey'.trans hkey)
    · exact hclean hdirty
    · exact absurd (hcalm.symm.trans hrefreshing) Bool.false_ne_true

/-- In a frame in which nothing is dirty the view is not rendered again. -/
theorem rendered_again_iff_panel :
    ∃ s w, [panel 1 2 ∅].foldlM draw (new : Screen ℕ ℕ) = some s ∧
      Prepaint.runAll (panel 3 2 ∅).prepaint (s.begin (panel 3 2 ∅)) = some w ∧
      w.held [.view ⟨1, 1⟩, .named 0] = false := by
  obtain ⟨s, w, hdraw, hrun, hheld⟩ := @rendered_again_iff ℕ ℕ _ []
    (panel 1 2 ∅) (panel 3 2 ∅) (by simp [panel_proper]) (by simp [panel_follows])
  refine ⟨s, w, hdraw, hrun, Bool.eq_false_iff.mpr ?_⟩
  intro htrue
  have hcases := (hheld _ List.mem_cons_self).mp htrue
  simp [panel, Contents.views, Prepaint.outermostAll, Prepaint.outermost] at hcases

end Screen

end Lucie.Drawing
