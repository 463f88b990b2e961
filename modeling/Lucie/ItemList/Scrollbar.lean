import Lucie.ItemList.VisibleRange

/-!
# The offset of the scrollbar

A scrollbar reads the offset of a list and sets it. While it is dragged, the content height
is the one at the start of the drag, so that both directions move the offset by how much the
height has changed since.
-/

set_option autoImplicit false

namespace Lucie.ItemList.StateInner

variable {F : Type}

/-- The content height for the scrollbar, which is fixed during a drag. -/
def scrollbarHeight (s : StateInner F) : ℚ :=
  s.scrollbarDragStartHeight.getD (contentHeight s.items)

/-- The height of `ListState::max_offset_for_scrollbar`. -/
def maxOffsetForScrollbar (s : StateInner F) : ℚ := max 0 (s.scrollbarHeight - s.viewportHeight)

/-- The `y` of `ListState::scroll_px_offset_for_scrollbar`; `none` is the panic of seeking
backward. -/
def scrollPxOffsetForScrollbar (s : StateInner F) : Option ℚ := do
  let position := s.scrollTop
  let index ← seek s.items (countTarget position.itemIx) .right
  let dragOffset := contentHeight s.items - s.scrollbarHeight
  some (-((startAt s.items index).height + position.offsetInItem - dragOffset))

/-- What the content has grown since the drag started. -/
def dragOffset (s : StateInner F) : ℚ := contentHeight s.items - s.scrollbarHeight

theorem scrollPxOffsetForScrollbar_eq (s : StateInner F) :
    s.scrollPxOffsetForScrollbar = some (-(s.absolute s.scrollTop - s.dragOffset)) := by
  unfold scrollPxOffsetForScrollbar
  dsimp only
  rw [seek_countTarget, Option.bind_eq_bind, Option.bind_some, startAt_height, top_min_length,
    ← absolute_eq]
  rfl

/-- Setting the offset of a list that is aligned to the top moves it to that offset. -/
theorem absolute_setOffsetFromScrollbar {s : StateInner F} (htop : s.alignment = .top)
    {bounds : Bounds ℚ} (hbounds : s.lastLayoutBounds = some bounds) (y : ℚ) :
    let s' := s.setOffsetFromScrollbar y
    s'.absolute s'.scrollTop =
      min (max |y - s.dragOffset| 0) (s.scrollMax bounds.size.height) := by
  have hbottom : ∀ offset, ¬(s.alignment = .bottom ∧ offset = s.scrollMax bounds.size.height) := by
    intro offset h
    rw [htop] at h
    cases h.1
  dsimp only
  unfold setOffsetFromScrollbar
  rw [hbounds]
  dsimp only
  rw [scrollToOffset_eq, if_neg (hbottom _), absolute_eq]
  exact absolute_positionOf _ _

/-- Three items of ten pixels in a viewport of ten pixels; the drag began with two of them
measured. -/
def draggedItems : StateInner Empty :=
  let item := .measured .ten none
  ⟨some ⟨⟨0, 0⟩, ⟨10, 10⟩⟩, some ⟨2, 3⟩, [item, item, item], some ⟨1, 4⟩, .top, 30, false, false,
    some 20, .visible, none⟩

/-- The scrollbar moves a list in the order of its points: a lower point leads to a later offset, a
point at or above the start leads to the top and one at the scroll range below it to the bottom.
During a drag, the start is where the content has grown to. -/
structure ScrollsInOrder (s : StateInner F) (height p q : ℚ) : Prop where
  antitone : (s.setOffsetFromScrollbar q).viewTop height ≤
    (s.setOffsetFromScrollbar p).viewTop height
  top : ∀ y, y = p ∨ y = q → s.dragOffset ≤ y → (s.setOffsetFromScrollbar y).viewTop height ≤ 0
  bottom : ∀ y, y = p ∨ y = q → y ≤ s.dragOffset - s.scrollMax height →
    contentHeight s.items + s.padding.top + s.padding.bottom ≤
      (s.setOffsetFromScrollbar y).viewTop height + height

/-- The offset at the top edge after a point of the scrollbar, where the list can be scrolled. -/
theorem viewTop_setOffsetFromScrollbar {s : StateInner F} {bounds : Bounds ℚ}
    (hbounds : s.lastLayoutBounds = some bounds) (hscrolls : s.scrollMax bounds.size.height ≠ 0)
    (y : ℚ) : (s.setOffsetFromScrollbar y).viewTop bounds.size.height =
      min |y - s.dragOffset| (s.scrollMax bounds.size.height) := by
  have hmax : contentHeight s.items + s.padding.top + s.padding.bottom - bounds.size.height =
      s.scrollMax bounds.size.height := by
    obtain h | h := max_choice
      (contentHeight s.items + s.padding.top + s.padding.bottom - bounds.size.height) 0
    · exact h.symm
    · exact absurd h hscrolls
  unfold setOffsetFromScrollbar
  rw [hbounds]
  dsimp only
  rw [viewTop_scrollToOffset, max_eq_left (abs_nonneg _), hmax]
  split_ifs with hend
  · exact hend.2.symm
  · rfl

/-- In a list that cannot be scrolled, all points lead to where it is at its top and bottom. -/
theorem viewTop_setOffsetFromScrollbar_of_eq_zero {s : StateInner F} {bounds : Bounds ℚ}
    (hbounds : s.lastLayoutBounds = some bounds) (hscrolls : s.scrollMax bounds.size.height = 0)
    (y : ℚ) : (s.setOffsetFromScrollbar y).viewTop bounds.size.height =
      if s.alignment = .bottom then
        contentHeight s.items + s.padding.top + s.padding.bottom - bounds.size.height
      else 0 := by
  unfold setOffsetFromScrollbar
  rw [hbounds]
  dsimp only
  rw [viewTop_scrollToOffset, max_eq_left (abs_nonneg _), hscrolls, min_eq_right (abs_nonneg _)]
  simp only [and_true]

/-- The points are in order exactly where none is above the start, or nothing can be scrolled. -/
theorem scrollsInOrder_iff {s : StateInner F} {bounds : Bounds ℚ}
    (hbounds : s.lastLayoutBounds = some bounds) {p q : ℚ} (hpq : p ≤ q) :
    s.ScrollsInOrder bounds.size.height p q ↔
      q ≤ s.dragOffset ∨ s.scrollMax bounds.size.height = 0 := by
  have hnonneg := s.scrollMax_nonneg bounds.size.height
  have hcontent : contentHeight s.items + s.padding.top + s.padding.bottom - bounds.size.height ≤
      s.scrollMax bounds.size.height := le_max_left _ _
  by_cases hscrolls : s.scrollMax bounds.size.height = 0
  · refine iff_of_true ?_ (Or.inr hscrolls)
    have hview := viewTop_setOffsetFromScrollbar_of_eq_zero hbounds hscrolls
    refine ⟨by rw [hview, hview], fun y _ _ => ?_, fun y _ _ => ?_⟩
    · rw [hview]
      split_ifs <;> linarith
    · rw [hview]
      split_ifs <;> linarith
  · have hview := viewTop_setOffsetFromScrollbar hbounds hscrolls
    have hpos : 0 < s.scrollMax bounds.size.height := lt_of_le_of_ne hnonneg (Ne.symm hscrolls)
    rw [or_iff_left hscrolls]
    constructor
    · intro h
      by_contra! habove
      have htop := h.top q (Or.inr rfl) habove.le
      rw [hview, min_le_iff] at htop
      obtain htop | htop := htop
      · have hq := abs_nonpos_iff.mp htop
        linarith
      · linarith
    · intro hq
      have habs (y : ℚ) (hy : y = p ∨ y = q) : |y - s.dragOffset| = s.dragOffset - y := by
        rw [abs_of_nonpos, neg_sub]
        obtain rfl | rfl := hy <;> linarith
      refine ⟨?_, fun y hy htop => ?_, fun y hy hbottom => ?_⟩
      · rw [hview, hview, habs p (Or.inl rfl), habs q (Or.inr rfl)]
        exact min_le_min_right _ (by linarith)
      · rw [hview, habs y hy]
        exact min_le_of_left_le (by linarith)
      · rw [hview, habs y hy, min_eq_right (by linarith)]
        linarith

/-- Two points at or below the top of three items that are not dragged. -/
theorem scrollsInOrder_threeItems : threeItems.ScrollsInOrder 10 (-5) 0 := by
  have hbounds : threeItems.lastLayoutBounds = some ⟨⟨0, 0⟩, ⟨10, 10⟩⟩ := rfl
  exact (scrollsInOrder_iff hbounds (by decide +kernel)).mpr (Or.inl (by decide +kernel))

/-- A point above the top leads further down than one below it. -/
theorem not_scrollsInOrder_threeItems : ¬ threeItems.ScrollsInOrder 10 (-5) 10 := by
  intro h
  have hantitone := h.antitone
  revert hantitone
  decide +kernel

end Lucie.ItemList.StateInner
