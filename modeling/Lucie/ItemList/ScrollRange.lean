import Lucie.ItemList.Positioned
import Lucie.ItemList.Scrollbar

/-!
# The range of the scrollbar

After a layout the list scrolls down to the padding below its items, or to no position if it is
aligned to the bottom. The range of the scrollbar ends with the items. Its offset is in the range
unless the list is scrolled to its end in one of these ways.
-/

set_option autoImplicit false

namespace Lucie.ItemList.StateInner

variable {F : Type} {s s' : StateInner F} {elements : Elements F} {width : Option ℚ}
  {availableHeight : ℚ} {padding : Edges} {first : ℕ} {q : LayoutPass F}
  {layout : LayoutItemsResponse}

/-- The offset of the scrollbar is in its range. -/
def InScrollRange (s : StateInner F) : Prop :=
  ∃ y, s.scrollPxOffsetForScrollbar = some y ∧ 0 ≤ -y ∧ -y ≤ s.maxOffsetForScrollbar

/-- A list that is not at its end, for the scrollbar: the content has not grown in a drag, the
viewport does not begin above the items, a list that is aligned to the bottom has a position, and
the padding below the items is not in view. -/
structure RestsInRange (s : StateInner F) : Prop where
  drag : s.dragOffset = 0
  above : 0 ≤ s.absolute s.scrollTop
  bottom : s.alignment = .bottom → s.logicalScrollTop = none →
    contentHeight s.items = 0 ∨ s.viewportHeight ≤ 0
  padding : s.padding.top + s.padding.bottom ≤ 0 ∨ s.absolute s.scrollTop = 0 ∨
    s.viewportHeight ≤ contentHeight s.items - s.absolute s.scrollTop

/-- A scroll event leads to the end of a list that is aligned to the bottom. -/
def ScrollsToEnd (s : StateInner F) (position : ListOffset) (height deltaY : ℚ) : Prop :=
  s.alignment = .bottom ∧ s.scrollMax height ≤ max (s.absolute position - deltaY) 0

/-- A scroll event leaves the padding out of view, and does not lead to the end of a list that is
aligned to the bottom, if there is something to scroll. -/
def ScrollsInRange (s : StateInner F) : ListCall F → Prop
  | .scroll position height deltaY =>
    (s.ScrollsToEnd position height deltaY → contentHeight s.items = 0 ∨ height ≤ 0) ∧
      (¬s.ScrollsToEnd position height deltaY →
        s.padding.top + s.padding.bottom ≤ 0 ∨
          contentHeight s.items + s.padding.top + s.padding.bottom ≤ height ∨
          s.absolute position - deltaY ≤ max 0 (contentHeight s.items - height))
  | _ => True

instance (s : StateInner F) (position : ListOffset) (height deltaY : ℚ) :
    Decidable (s.ScrollsToEnd position height deltaY) :=
  inferInstanceAs (Decidable (_ ∧ _))

instance (s : StateInner F) (c : ListCall F) : Decidable (s.ScrollsInRange c) :=
  match c with
  | .scroll _ _ _ => inferInstanceAs (Decidable ((_ → _) ∧ (_ → _)))
  | .reset _ | .remeasure | .splice _ _ _ | .setScrollHandler | .scrollBy _ | .scrollTo _
  | .scrollToRevealItem _ | .scrollbarDragStarted | .scrollbarDragEnded
  | .setOffsetFromScrollbar _ | .requestLayout _ _ | .prepaint _ _ _ => isTrue trivial

/-! ## The scrollbar -/

theorem inScrollRange_iff (hdrag : s.dragOffset = 0) :
    s.InScrollRange ↔ 0 ≤ s.absolute s.scrollTop ∧
      s.absolute s.scrollTop ≤ max 0 (contentHeight s.items - s.viewportHeight) := by
  have hheight : s.scrollbarHeight = contentHeight s.items := by
    unfold dragOffset at hdrag
    linarith
  unfold InScrollRange maxOffsetForScrollbar
  rw [scrollPxOffsetForScrollbar_eq, hdrag, sub_zero, hheight]
  constructor
  · rintro ⟨y, hy, hrange⟩
    obtain rfl := Option.some.inj hy
    rwa [neg_neg] at hrange
  · intro hrange
    refine ⟨_, rfl, ?_⟩
    rwa [neg_neg]

/-- The end of a list that is aligned to the bottom is in the range if there is nothing to
scroll. -/
theorem contentHeight_le_max_iff {content height : ℚ} (hcontent : 0 ≤ content) :
    content ≤ max 0 (content - height) ↔ content = 0 ∨ height ≤ 0 := by
  rw [le_max_iff]
  constructor
  · rintro (hzero | hheight)
    · exact .inl (le_antisymm hzero hcontent)
    · exact .inr (by linarith)
  · rintro (hzero | hheight)
    · exact .inl hzero.le
    · exact .inr (by linarith)

/-- A scroll offset is clamped to the padding, and so to the range without it. -/
theorem clamp_le_iff {content height space x : ℚ} :
    min (max x 0) (max (content + space - height) 0) ≤ max 0 (content - height) ↔
      space ≤ 0 ∨ content + space ≤ height ∨ x ≤ max 0 (content - height) := by
  have hzero : 0 ≤ max 0 (content - height) := le_max_left _ _
  rw [min_le_iff, max_le_iff, max_le_iff]
  constructor
  · rintro (⟨hx, -⟩ | ⟨hend, -⟩)
    · exact .inr (.inr hx)
    · rcases le_max_iff.mp hend with hshort | hnone
      · exact .inr (.inl (by linarith))
      · exact .inl (by linarith)
  · rintro (hnone | hshort | hx)
    · exact .inr ⟨le_max_of_le_right (by linarith), hzero⟩
    · exact .inr ⟨le_max_of_le_left (by linarith), hzero⟩
    · exact .inl ⟨hx, hzero⟩

/-! ## Scroll events -/

/-- The offset after scrolling to an offset; the end of a list that is aligned to the bottom is
behind all items. -/
theorem absolute_scrollToOffset (s : StateInner F) (height offset : ℚ) :
    (s.scrollToOffset height offset).absolute (s.scrollToOffset height offset).scrollTop =
      if s.alignment = .bottom ∧ offset = s.scrollMax height then contentHeight s.items
      else offset := by
  rw [scrollToOffset_eq, absolute_eq]
  by_cases hend : s.alignment = .bottom ∧ offset = s.scrollMax height
  · rw [if_pos hend, if_pos hend]
    simp only [scrollTop, hend.1, Option.getD_none, add_zero]
    exact top_of_length_le le_rfl
  · rw [if_neg hend, if_neg hend]
    exact absolute_positionOf _ _

/-- A scroll event after which the offset is in the range. -/
theorem inScrollRange_scrollToOffset_iff (hdrag : s.dragOffset = 0) (position : ListOffset)
    (deltaY : ℚ) : (s.scrollToOffset s.viewportHeight
      (s.scrolledOffset position s.viewportHeight deltaY)).InScrollRange ↔
      s.ScrollsInRange (.scroll position s.viewportHeight deltaY) := by
  have hcontent := contentHeight_nonneg s.items
  have hnonneg := s.scrolledOffset_nonneg position s.viewportHeight deltaY
  have hend : (s.alignment = .bottom ∧
      s.scrolledOffset position s.viewportHeight deltaY = s.scrollMax s.viewportHeight) ↔
      s.ScrollsToEnd position s.viewportHeight deltaY := by
    rw [ScrollsToEnd, scrolledOffset, min_eq_right_iff]
  have hkept : ∀ offset, (s.scrollToOffset s.viewportHeight offset).dragOffset = 0 ∧
      (s.scrollToOffset s.viewportHeight offset).items = s.items ∧
      (s.scrollToOffset s.viewportHeight offset).viewportHeight = s.viewportHeight := by
    intro offset
    rw [scrollToOffset_eq]
    exact ⟨hdrag, rfl, rfl⟩
  obtain ⟨hdrag', hitems, hheight⟩ := hkept (s.scrolledOffset position s.viewportHeight deltaY)
  rw [inScrollRange_iff hdrag', absolute_scrollToOffset, hitems, hheight]
  unfold ScrollsInRange
  by_cases htoEnd : s.ScrollsToEnd position s.viewportHeight deltaY
  · rw [if_pos (hend.mpr htoEnd), contentHeight_le_max_iff hcontent]
    exact ⟨fun h => ⟨fun _ => h.2, fun hnot => absurd htoEnd hnot⟩, fun h => ⟨hcontent, h.1 htoEnd⟩⟩
  · have hmax : s.scrollMax s.viewportHeight = max (contentHeight s.items +
        (s.padding.top + s.padding.bottom) - s.viewportHeight) 0 := by
      rw [scrollMax, add_assoc]
    rw [if_neg (mt hend.mp htoEnd), and_iff_right hnonneg, scrolledOffset, hmax, clamp_le_iff,
      ← add_assoc]
    exact ⟨fun h => ⟨fun hto => absurd hto htoEnd, fun _ => h⟩, fun h => h.2 htoEnd⟩

/-! ## Layouts -/

/-- A layout that leaves a position scrolls at most to the padding below the items. -/
theorem LayoutOf.absolute_le
    (h : s.LayoutOf elements width availableHeight padding first q s' layout)
    (hposition : ¬(s.alignment = .bottom ∧ s'.logicalScrollTop = none)) :
    s'.absolute s'.scrollTop ≤
      max 0 (contentHeight s'.items + (padding.top + padding.bottom) - availableHeight) := by
  have htop := h.position.resolve_right hposition
  have hcontent := h.content
  have hheight := h.fills.measures.height
  rw [absolute_eq, htop, h.scrollTop, h.fills.itemIx]
  rcases h.fills.cases with ⟨-, hq, hvisible⟩ | ⟨-, q', hup, hq⟩
  · refine le_max_of_le_right ?_
    rw [LayoutPass.visibleHeight, ← hq] at hvisible
    linarith
  · cases halignment : s.alignment with
    | bottom =>
      refine absurd ⟨halignment, ?_⟩ hposition
      rw [h.logicalScrollTop, hq, halignment]
      rfl
    | top =>
      have hoffset : q.scrollTop.offsetInItem = max (q'.renderedHeight - availableHeight) 0 := by
        rw [hq, halignment]
        rfl
      have hsame : q.renderedHeight = q'.renderedHeight := by
        rw [hq, halignment]
        rfl
      rw [hoffset]
      by_cases hfull : availableHeight ≤ q'.renderedHeight
      · refine le_max_of_le_right ?_
        rw [max_eq_left (sub_nonneg.mpr hfull)]
        linarith
      · -- the layout has gone up to the first item
        refine le_max_of_le_left ?_
        rw [max_eq_right (sub_nonpos.mpr (not_le.mp hfull).le), add_zero,
          hup.fills.resolve_left hfull, top_zero]

/-- After a layout the offset is in the range exactly if the list rests in it. -/
theorem inScrollRange_iff_restsInRange (hpositioned : s.Positioned) {bounds : Bounds ℚ}
    (h : s.prepaint elements bounds padding = some (s', layout)) (hdrag : s'.dragOffset = 0) :
    s'.InScrollRange ↔ s'.RestsInRange := by
  have hcontent := contentHeight_nonneg s'.items
  have hend : s'.alignment = .bottom → s'.logicalScrollTop = none →
      s'.absolute s'.scrollTop = contentHeight s'.items := by
    intro hbottom hnone
    rw [absolute_eq, scrollTop, hnone, hbottom, Option.getD_none]
    dsimp only
    rw [add_zero, top_of_length_le le_rfl]
  rw [inScrollRange_iff hdrag]
  constructor
  · rintro ⟨habove, hmax⟩
    refine ⟨hdrag, habove, fun hbottom hnone => ?_, .inr ?_⟩
    · rw [hend hbottom hnone] at hmax
      exact (contentHeight_le_max_iff hcontent).mp hmax
    · rcases le_max_iff.mp hmax with hzero | hitems
      · exact .inl (le_antisymm hzero habove)
      · right
        linarith
  · intro hs'
    refine ⟨hs'.above, ?_⟩
    by_cases hposition : s'.alignment = .bottom ∧ s'.logicalScrollTop = none
    · rw [hend hposition.1 hposition.2, contentHeight_le_max_iff hcontent]
      exact hs'.bottom hposition.1 hposition.2
    rcases hs'.padding with hpadding | hzero | hitems
    · obtain ⟨t, t', first, q, laidOut, hlayout, -, rfl⟩ := hpositioned.exists_layoutOf h
      rw [hlayout.same.1] at hposition
      refine (hlayout.absolute_le hposition).trans (max_le_max le_rfl ?_)
      have hpadding' : padding.top + padding.bottom ≤ 0 := hpadding
      change contentHeight t'.items + (padding.top + padding.bottom) - bounds.size.height ≤
        contentHeight t'.items - bounds.size.height
      linarith
    · exact le_max_of_le_left hzero.le
    · exact le_max_of_le_right (by linarith)

/-! ## Runs -/

/-- A scroll event in the viewport of the last layout keeps the range. -/
theorem InScrollRange.scroll (hs : s.InScrollRange) (hdrag : s.dragOffset = 0)
    {position : ListOffset} {deltaY : ℚ} {event : Option ListScrollEvent}
    (hscroll : s.scroll position s.viewportHeight deltaY = some (s', event))
    (hrange : s.ScrollsInRange (.scroll position s.viewportHeight deltaY)) :
    s'.InScrollRange ∧ s'.dragOffset = 0 ∧ s'.viewportHeight = s.viewportHeight := by
  rw [scroll_state hscroll]
  split_ifs
  · exact ⟨hs, hdrag, rfl⟩
  · refine ⟨(inScrollRange_scrollToOffset_iff hdrag _ _).mpr hrange, ?_⟩
    rw [scrollToOffset_eq]
    exact ⟨hdrag, rfl⟩

/-- After a layout in which the list rests in the range, and after any scroll events that lead
neither to the end of a list that is aligned to the bottom nor to the padding, the offset of the
scrollbar is in its range. -/
theorem inScrollRange_of_scrolls (hreachable : Reachable s) {bounds : Bounds ℚ}
    {rested : StateInner F}
    (hlayout : s.prepaint elements bounds padding = some (rested, layout))
    (hrests : rested.RestsInRange) (deltas : List ℚ)
    (run : Foundation.Run call ScrollsInRange rested
      (deltas.map (.scroll layout.scrollTop bounds.size.height)) s') : s'.InScrollRange := by
  have hheight : rested.viewportHeight = bounds.size.height := by
    obtain ⟨t, t', first, q, laidOut, -, -, rfl⟩ := hreachable.positioned.exists_layoutOf hlayout
    rfl
  have hrested : rested.InScrollRange :=
    (inScrollRange_iff_restsInRange hreachable.positioned hlayout hrests.drag).mpr hrests
  have hinvariant := run.invariant (fun calls state =>
    (∀ c ∈ calls, ∃ deltaY, c = .scroll layout.scrollTop bounds.size.height deltaY) →
      state.InScrollRange ∧ state.dragOffset = 0 ∧ state.viewportHeight = bounds.size.height)
    (fun _ => ⟨hrested, hrests.drag, hheight⟩)
    (fun calls state c next ih hguard hcall hscrolls => by
      obtain ⟨hstate, hdrag, hviewport⟩ := ih fun c hc => hscrolls c (List.mem_append_left _ hc)
      obtain ⟨deltaY, rfl⟩ := hscrolls c (by simp)
      obtain ⟨⟨next', event⟩, hscroll, rfl⟩ := Option.map_eq_some_iff.mp hcall
      rw [← hviewport] at hguard hscroll ⊢
      exact hstate.scroll hdrag hscroll hguard)
  refine (hinvariant fun c hc => ?_).1
  obtain ⟨deltaY, -, rfl⟩ := List.mem_map.mp hc
  exact ⟨deltaY, rfl⟩

/-- Three items that have not been laid out. -/
def freshItems (alignment : ListAlignment) : StateInner Empty :=
  ⟨none, none, [.unmeasured none, .unmeasured none, .unmeasured none], none, alignment, 0, false,
    false, none, .visible, none⟩

/-- The items after a layout in a viewport of fifteen pixels. -/
def laidOutItems (alignment : ListAlignment) (padding : Edges) (items : List (ListItem Empty))
    (position : Option ListOffset) : StateInner Empty :=
  ⟨some ⟨⟨0, 0⟩, ⟨10, 15⟩⟩, some padding, items, position, alignment, 0, false, false, none,
    .visible, none⟩

theorem reachable_freshItems (alignment : ListAlignment) : Reachable (freshItems alignment) := by
  have hcalls : (new 3 alignment 0).bind (Foundation.execute call InRange · []) =
      some (freshItems alignment) := by
    cases alignment
    · decide +kernel
    · decide +kernel
  exact reachable_of_execute hcalls

/-- Two scroll events of a list without padding that is aligned to the top. -/
theorem inScrollRange_scrolledItems : (laidOutItems .top ⟨0, 0⟩
    [.measured .ten none, .measured .ten none, .unmeasured none] (some ⟨0, 3⟩)).InScrollRange := by
  have hlayout : (freshItems .top).prepaint (.uniform _ .ten) ⟨⟨0, 0⟩, ⟨10, 15⟩⟩ ⟨0, 0⟩ =
      some (laidOutItems .top ⟨0, 0⟩
        [.measured .ten none, .measured .ten none, .unmeasured none] none,
        ⟨10, ⟨0, 0⟩, [⟨0, .ten⟩, ⟨1, .ten⟩]⟩) := by decide +kernel
  refine inScrollRange_of_scrolls (reachable_freshItems .top) hlayout ?_ [2, -3] ?_
  · refine ⟨by decide +kernel, by decide +kernel, fun h => ?_, .inl (by decide +kernel)⟩
    cases h
  · exact .of_execute (by decide +kernel)

/-- At the end of a list that is aligned to the bottom, where it rests after its first layout, the
scrollbar is past its range, and so it is at the end of a list with padding. -/
theorem not_inScrollRange_end : Reachable (freshItems .bottom) ∧ Reachable (freshItems .top) ∧
    (∃ layout, (freshItems .bottom).prepaint (.uniform _ .ten) ⟨⟨0, 0⟩, ⟨10, 15⟩⟩ ⟨0, 0⟩ =
      some (laidOutItems .bottom ⟨0, 0⟩
        [.unmeasured none, .measured .ten none, .measured .ten none] none, layout)) ∧
    ¬(laidOutItems .bottom ⟨0, 0⟩
      [.unmeasured none, .measured .ten none, .measured .ten none] none).InScrollRange ∧
    (∃ padded layout, (freshItems .top).prepaint (.uniform _ .ten) ⟨⟨0, 0⟩, ⟨10, 15⟩⟩ ⟨0, 5⟩ =
        some (padded, layout) ∧
      padded.call (.scroll layout.scrollTop 15 (-100)) = some (laidOutItems .top ⟨0, 5⟩
        [.measured .ten none, .measured .ten none, .unmeasured none] (some ⟨1, 0⟩))) ∧
    ¬(laidOutItems .top ⟨0, 5⟩ [.measured .ten none, .measured .ten none, .unmeasured none]
      (some ⟨1, 0⟩)).InScrollRange := by
  have hbottom : (freshItems .bottom).prepaint (.uniform _ .ten) ⟨⟨0, 0⟩, ⟨10, 15⟩⟩ ⟨0, 0⟩ =
      some (laidOutItems .bottom ⟨0, 0⟩
        [.unmeasured none, .measured .ten none, .measured .ten none] none,
        ⟨0, ⟨1, 5⟩, [⟨1, .ten⟩, ⟨2, .ten⟩]⟩) := by decide +kernel
  have hpadded : (freshItems .top).prepaint (.uniform _ .ten) ⟨⟨0, 0⟩, ⟨10, 15⟩⟩ ⟨0, 5⟩ =
      some (laidOutItems .top ⟨0, 5⟩
        [.measured .ten none, .measured .ten none, .unmeasured none] none,
        ⟨10, ⟨0, 0⟩, [⟨0, .ten⟩, ⟨1, .ten⟩]⟩) := by decide +kernel
  refine ⟨reachable_freshItems _, reachable_freshItems _, ⟨_, hbottom⟩, fun hrange => ?_,
    ⟨_, _, hpadded, by decide +kernel⟩, fun hrange => ?_⟩
  · have hmax := ((inScrollRange_iff (by decide +kernel)).mp hrange).2
    exact absurd hmax (by decide +kernel)
  · have hmax := ((inScrollRange_iff (by decide +kernel)).mp hrange).2
    exact absurd hmax (by decide +kernel)

end Lucie.ItemList.StateInner
