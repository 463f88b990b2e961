import Lucie.UniformList.Prepaint

/-!
# Scrolling a uniform list to an item

A requested scroll leaves the offset in its range, unless mirroring the index overflows. Where
it leads is documented by strategies within a viewport that the offset shrinks; the strategy
`Bottom` does not look at that offset.
-/

set_option autoImplicit false

namespace Lucie.UniformList

section Clamp

variable {x o m : ℚ}

theorem clamp_nonneg (hm : 0 ≤ m) : 0 ≤ clamp x 0 m := le_min (le_max_right _ _) hm

theorem clamp_le : clamp x 0 m ≤ m := min_le_right _ _

/-- Two offsets have the same place in a range if both are before it or both behind it. -/
theorem clamp_eq_clamp_add_iff (ho : 0 ≤ o) (hm : 0 ≤ m) :
    clamp x 0 m = clamp (x + o) 0 m ↔ o = 0 ∨ m = 0 ∨ x + o ≤ 0 ∨ m ≤ x := by
  unfold clamp
  constructor
  · intro heq
    by_contra hne
    push Not at hne
    obtain ⟨ho', hm', hadd, hx⟩ := hne
    have hopos := lt_of_le_of_ne ho (Ne.symm ho')
    have hmpos := lt_of_le_of_ne hm (Ne.symm hm')
    have hless : min (max x 0) m < min (max (x + o) 0) m := by
      rw [max_eq_left hadd.le]
      refine lt_min ?_ ?_
      · exact (min_le_left _ _).trans_lt (max_lt (by linarith) hadd)
      · exact (min_le_left _ _).trans_lt (max_lt hx hmpos)
    exact absurd heq hless.ne
  · rintro (rfl | rfl | hadd | hx)
    · rw [add_zero]
    · rw [min_eq_right (le_max_right _ _), min_eq_right (le_max_right _ _)]
    · rw [max_eq_right hadd, max_eq_right (by linarith)]
    · rw [min_eq_right (le_max_of_le_left hx), min_eq_right (le_max_of_le_left (by linarith))]

theorem roundToTwoDecimals_nonpos (hx : x ≤ 0) : roundToTwoDecimals x ≤ 0 := by
  unfold roundToTwoDecimals
  split_ifs with hnonneg
  · obtain rfl : x = 0 := le_antisymm hx hnonneg
    norm_num
  · have hfloor : (0 : ℤ) ≤ ⌊-(x * 100) + 1 / 2⌋ := Int.floor_nonneg.mpr (by linarith)
    have hcast : (0 : ℚ) ≤ (⌊-(x * 100) + 1 / 2⌋ : ℤ) := by exact_mod_cast hfloor
    exact div_nonpos_of_nonpos_of_nonneg (by linarith) (by norm_num)

end Clamp

variable (l : UniformList) (bounds : Bounds ℚ)

/-- The last scroll top, at which the end of the content is at the end of the viewport. -/
def lastScrollTop : ℚ := max (l.contentHeight - l.listHeight bounds) 0

/-- The offset at which prepaint begins to scroll to an item. -/
def startOffset (s : UniformListScrollState) : Point ℚ :=
  l.correctScrollOffset bounds (l.clampScrollPosition bounds s).scrollOffset

theorem lastScrollTop_nonneg : 0 ≤ l.lastScrollTop bounds := le_max_right _ _

theorem itemHeight_nonneg : 0 ≤ l.itemHeight := by
  unfold itemHeight measureItem
  split_ifs
  · exact le_refl _
  · exact l.measured_nonneg

theorem listHeight_eq :
    l.listHeight bounds = bounds.size.height -
      (l.border.top + l.padding.top + l.border.bottom + l.padding.bottom) := by
  simp only [listHeight, paddedBounds, Bounds.fromCorners, Bounds.bottomRight]
  ring

theorem scrollMax_height_nonneg : 0 ≤ (l.scrollMax bounds).height := le_max_right _ _

/-- The clamped offset. -/
theorem clampScrollPosition_range (s : UniformListScrollState) :
    -(l.scrollMax bounds).height ≤ (l.clampScrollPosition bounds s).scrollOffset.y ∧
      (l.clampScrollPosition bounds s).scrollOffset.y ≤ 0 := by
  have hnonneg := l.scrollMax_height_nonneg bounds
  simp only [clampScrollPosition, clamp]
  split_ifs
  · exact ⟨le_refl _, by linarith⟩
  · exact ⟨le_min (le_max_right _ _) (by linarith), min_le_right _ _⟩

/-- A list that can be scrolled has more content than the viewport. -/
theorem listHeight_lt_of_scrollMax_pos (hpos : 0 < (l.scrollMax bounds).height) :
    l.listHeight bounds < l.contentHeight := by
  by_contra hle
  have hborder := add_nonneg l.border.top_nonneg l.border.bottom_nonneg
  have hround : roundToTwoDecimals (l.contentHeight + (l.padding.top + l.padding.bottom) -
      bounds.size.height) ≤ 0 := by
    refine roundToTwoDecimals_nonpos ?_
    rw [not_lt, listHeight_eq] at hle
    linarith
  exact absurd hpos (not_lt.mpr (max_le hround (le_refl _)))

/-- The scroll to an item starts at an offset in its range. -/
theorem startOffset_range (s : UniformListScrollState) :
    -l.lastScrollTop bounds ≤ (l.startOffset bounds s).y ∧ (l.startOffset bounds s).y ≤ 0 := by
  obtain ⟨hlow, hhigh⟩ := l.clampScrollPosition_range bounds s
  have hlast : l.contentHeight - l.listHeight bounds ≤ l.lastScrollTop bounds := le_max_left _ _
  have hnonneg := l.lastScrollTop_nonneg bounds
  simp only [startOffset, correctScrollOffset]
  split_ifs with hcorrect
  · have hpos : 0 < (l.scrollMax bounds).height := by
      have hneg := lt_of_le_of_ne hhigh hcorrect.1
      linarith
    have hmore := l.listHeight_lt_of_scrollMax_pos bounds hpos
    exact ⟨by linarith, by linarith⟩
  · rcases not_and_or.mp hcorrect with hzero | hinside
    · rw [not_not.mp hzero]
      exact ⟨by linarith, le_refl _⟩
    · rw [not_lt] at hinside
      exact ⟨by linarith, hhigh⟩

/-- A scroll to a position stays in the range. -/
theorem scrollToPosition_range {y : ℚ} (hlow : -l.lastScrollTop bounds ≤ y) (hhigh : y ≤ 0)
    (deferred : DeferredScrollToItem) (position : ℕ) :
    -l.lastScrollTop bounds ≤ l.scrollToPosition bounds y deferred position ∧
      l.scrollToPosition bounds y deferred position ≤ 0 := by
  have hclamp : ∀ target, -l.lastScrollTop bounds ≤ -clamp target 0 (l.lastScrollTop bounds) ∧
      -clamp target 0 (l.lastScrollTop bounds) ≤ 0 := by
    intro target
    exact ⟨neg_le_neg clamp_le, neg_nonpos.mpr (clamp_nonneg (l.lastScrollTop_nonneg bounds))⟩
  unfold scrollToPosition
  dsimp only
  split_ifs
  · split
    · exact hclamp _
    · exact ⟨hlow, hhigh⟩
  · exact ⟨hlow, hhigh⟩

/-- An empty list is left at its clamped offset. -/
theorem prepaint_empty {s : UniformListScrollState} (hempty : l.itemCount = 0) :
    ∃ s', l.prepaint bounds s = some (s', none) ∧
      s'.scrollOffset = (l.clampScrollPosition bounds s).scrollOffset := by
  unfold prepaint
  dsimp only
  rw [if_pos hempty]
  exact ⟨_, rfl, rfl⟩

/-- A requested scroll overflows, or it leads to the position of its item. -/
theorem prepaint_deferred {s : UniformListScrollState} (hitems : l.itemCount ≠ 0)
    {deferred : DeferredScrollToItem} (hdeferred : s.deferredScrollToItem = some deferred) :
    match l.positionOf s.yFlipped deferred.itemIndex with
    | none => l.prepaint bounds s = none
    | some position => ∃ s' placed, l.prepaint bounds s = some (s', placed) ∧
        s'.scrollOffset.y =
          l.scrollToPosition bounds (l.startOffset bounds s).y deferred position := by
  unfold prepaint
  dsimp only
  rw [if_neg hitems, hdeferred, applyDeferred]
  have hflipped : ∀ s : UniformListScrollState,
      (l.clampScrollPosition bounds s).yFlipped = s.yFlipped := fun _ => rfl
  rw [hflipped]
  cases l.positionOf s.yFlipped deferred.itemIndex with
  | none => rfl
  | some position => exact ⟨_, _, rfl, rfl⟩

/-- Only the mirrored index can overflow. -/
theorem positionOf_eq (yFlipped : Bool) (itemIndex : ℕ) :
    l.positionOf yFlipped itemIndex =
      if yFlipped = true → itemIndex < usizeMax then
        some (if yFlipped then l.itemCount - (itemIndex + 1) else itemIndex)
      else none := by
  unfold positionOf
  cases yFlipped with
  | false => simp
  | true =>
    simp only [if_true, forall_const]
    rfl

/-- Prepaint does not overflow, and it leaves a vertical offset between the end of the content
and its beginning. -/
def ScrollsInRange (s : UniformListScrollState) : Prop :=
  ∃ s' placed, l.prepaint bounds s = some (s', placed) ∧
    -l.lastScrollTop bounds ≤ s'.scrollOffset.y ∧ s'.scrollOffset.y ≤ 0

/-- An empty list whose padding does not fit into its bounds: rounding does not lead past its
end, or the offset has not been there. -/
def EmptyFits (s : UniformListScrollState) : Prop :=
  (l.scrollMax bounds).height ≤ l.lastScrollTop bounds ∨
    s.scrollToBottom = false ∧ -l.lastScrollTop bounds ≤ s.scrollOffset.y

instance (s : UniformListScrollState) : Decidable (l.EmptyFits bounds s) :=
  inferInstanceAs (Decidable (_ ∨ _))

theorem scrollsInRange_empty (hempty : l.itemCount = 0) (s : UniformListScrollState) :
    l.ScrollsInRange bounds s ↔ l.EmptyFits bounds s := by
  obtain ⟨s', hprepaint, hoffset⟩ := l.prepaint_empty bounds (s := s) hempty
  obtain ⟨hlow, hhigh⟩ := l.clampScrollPosition_range bounds s
  have hlast := l.lastScrollTop_nonneg bounds
  have hmax := l.scrollMax_height_nonneg bounds
  have hrange : l.ScrollsInRange bounds s ↔
      -l.lastScrollTop bounds ≤ (l.clampScrollPosition bounds s).scrollOffset.y := by
    unfold ScrollsInRange
    rw [hprepaint, ← hoffset]
    constructor
    · rintro ⟨t, placed, heq, hrange, -⟩
      obtain ⟨rfl, -⟩ := Prod.mk.inj (Option.some.inj heq)
      exact hrange
    · intro hrange
      exact ⟨s', none, rfl, hrange, hoffset ▸ hhigh⟩
  rw [hrange]
  unfold EmptyFits
  simp only [clampScrollPosition, clamp]
  split_ifs with hbottom
  · constructor
    · intro h
      exact .inl (by linarith)
    · rintro (h | ⟨h, -⟩)
      · linarith
      · rw [hbottom] at h
        cases h
  · rw [le_min_iff, le_max_iff, neg_le_neg_iff]
    constructor
    · rintro ⟨h | h, -⟩
      · exact .inr ⟨Bool.eq_false_iff.mpr hbottom, h⟩
      · exact .inl h
    · rintro (h | ⟨-, h⟩)
      · exact ⟨.inr h, by linarith⟩
      · exact ⟨.inl h, by linarith⟩

/-- A requested scroll stays in the range, unless the index of a flipped list is the last one
there is, or an empty list is rounded past its end. -/
theorem scrollsInRange_iff (s : UniformListScrollState) (ix : ℕ) (strategy : ScrollStrategy)
    (offset : ℕ) (strict : Bool) :
    l.ScrollsInRange bounds (s.deferScroll ix strategy offset strict) ↔
      if l.itemCount = 0 then l.EmptyFits bounds s else s.yFlipped = true → ix < usizeMax := by
  split_ifs with hempty
  · exact l.scrollsInRange_empty bounds hempty _
  · have hdeferred := l.prepaint_deferred bounds (s := s.deferScroll ix strategy offset strict)
      hempty rfl
    have hflipped : (s.deferScroll ix strategy offset strict).yFlipped = s.yFlipped := rfl
    rw [hflipped, positionOf_eq] at hdeferred
    unfold ScrollsInRange
    by_cases hix : s.yFlipped = true → ix < usizeMax
    · rw [if_pos hix] at hdeferred
      obtain ⟨s', placed, hprepaint, hoffset⟩ := hdeferred
      obtain ⟨hlow, hhigh⟩ :=
        l.startOffset_range bounds (s.deferScroll ix strategy offset strict)
      refine ⟨fun _ => hix, fun _ => ⟨s', placed, hprepaint, ?_⟩⟩
      rw [hoffset]
      exact l.scrollToPosition_range bounds hlow hhigh _ _
    · rw [if_neg hix] at hdeferred
      dsimp only at hdeferred
      rw [hdeferred]
      constructor
      · rintro ⟨s', placed, heq, -⟩
        cases heq
      · exact fun h => absurd h hix

/-- One item of ten pixels without border and padding. -/
def oneItem : UniformList :=
  let none := ⟨0, 0, 0, 0, le_refl _, le_refl _, le_refl _, le_refl _⟩
  ⟨1, by decide, ⟨10, 10⟩, by decide, none, none, false⟩

/-- The state of a flipped list. -/
def flippedState : UniformListScrollState := ⟨⟨0, 0⟩, false, none, none, true⟩

/-- Scrolling a flipped list to the bottom overflows. -/
theorem not_scrollsInRange_flipped :
    ¬oneItem.ScrollsInRange ⟨⟨0, 0⟩, ⟨10, 10⟩⟩ flippedState.scrollToEnd := by
  have hprepaint : oneItem.prepaint ⟨⟨0, 0⟩, ⟨10, 10⟩⟩ flippedState.scrollToEnd = none := by
    decide +kernel
  rintro ⟨s', placed, heq, -⟩
  rw [hprepaint] at heq
  cases heq

end Lucie.UniformList
