import Lucie.UniformList.ScrollToItem

/-!
# The strategies of a scroll to an item

The documentation of a strategy names the edge from which the offset shrinks the viewport, and
the place of the item in what is left. All strategies find out from the same edge whether the
item is visible, and `Bottom` places it without the offset.
-/

set_option autoImplicit false

namespace Lucie.UniformList

/-- The offset shrinks the viewport from the bottom for `Bottom`, otherwise from the top. -/
def ScrollStrategy.reducedViewport (strategy : ScrollStrategy) (listHeight offsetPixels : ℚ) :
    ℚ × ℚ :=
  if strategy = .bottom then (0, listHeight - offsetPixels) else (offsetPixels, listHeight)

/-- An item is inside a viewport at a scroll top. -/
def Inside (viewport : ℚ × ℚ) (scrollTop itemTop itemBottom : ℚ) : Prop :=
  viewport.1 ≤ itemTop - scrollTop ∧ itemBottom - scrollTop ≤ viewport.2

instance (viewport : ℚ × ℚ) (scrollTop itemTop itemBottom : ℚ) :
    Decidable (Inside viewport scrollTop itemTop itemBottom) :=
  inferInstanceAs (Decidable (_ ∧ _))

/-- The scroll top at which an item has its documented place in a viewport. -/
def ScrollStrategy.documentedTop (viewport : ℚ × ℚ) (itemTop itemBottom : ℚ) :
    ScrollStrategy → ℚ
  | .bottom => itemBottom - viewport.2
  | .center => (itemTop + itemBottom) / 2 - (viewport.1 + viewport.2) / 2
  | .top | .nearest => itemTop - viewport.1

variable (l : UniformList) (bounds : Bounds ℚ)

/-- `Nearest` is `Top` for an item above the viewport and `Bottom` for one below it. -/
def nearestEdge (strategy : ScrollStrategy) (scrollTop itemTop offsetPixels : ℚ) :
    ScrollStrategy :=
  if strategy = .nearest then
    if itemTop - scrollTop < offsetPixels then .top else .bottom
  else strategy

/-- The documented scroll top: an item that is inside stays unless the scroll is strict, for
`Nearest` even then; any other is placed, as far as the content reaches. -/
def documentedScrollTop (strict : Bool) (strategy : ScrollStrategy)
    (scrollTop itemTop offsetPixels : ℚ) : ℚ :=
  let itemBottom := itemTop + l.itemHeight
  let listHeight := l.listHeight bounds
  if Inside (strategy.reducedViewport listHeight offsetPixels) scrollTop itemTop itemBottom ∧
      (strict = false ∨ strategy = .nearest) then scrollTop
  else
    let strategy := nearestEdge strategy scrollTop itemTop offsetPixels
    clamp (strategy.documentedTop (strategy.reducedViewport listHeight offsetPixels) itemTop
      itemBottom) 0 (l.lastScrollTop bounds)

/-- The position from the top of an item; a flipped list has its first item at the bottom. -/
def itemPosition (yFlipped : Bool) (ix : ℕ) : ℕ :=
  if yFlipped then l.itemCount - (ix + 1) else ix

/-- A scroll to an item of a list that is not empty leads where its strategy says. -/
def ScrollsAsDocumented (s : UniformListScrollState) (ix : ℕ) (strategy : ScrollStrategy)
    (offset : ℕ) (strict : Bool) : Prop :=
  l.itemCount ≠ 0 → ∃ s' placed, l.prepaint bounds (s.deferScroll ix strategy offset strict) = some (s', placed) ∧
    -s'.scrollOffset.y = l.documentedScrollTop bounds strict strategy
      (-(l.startOffset bounds s).y) (l.itemHeight * l.itemPosition s.yFlipped ix)
      (l.itemHeight * offset)

/-- A place of the bottom of an item is not changed by an offset: there is none, or both places
are before the beginning or behind the end of the content. -/
def OffsetHidden (itemTop offsetPixels : ℚ) : Prop :=
  let target := itemTop + l.itemHeight - l.listHeight bounds
  offsetPixels = 0 ∨ l.lastScrollTop bounds = 0 ∨ target + offsetPixels ≤ 0 ∨
    l.lastScrollTop bounds ≤ target

/-- The offset of `Bottom` does not matter. An item that is inside a viewport shrunk from the
top stays, also if it is not inside one shrunk from the bottom. -/
def BottomOffsetHidden (strict : Bool) (scrollTop itemTop offsetPixels : ℚ) : Prop :=
  let itemBottom := itemTop + l.itemHeight
  let listHeight := l.listHeight bounds
  let insideTop := Inside (offsetPixels, listHeight) scrollTop itemTop itemBottom
  let insideBottom := Inside (0, listHeight - offsetPixels) scrollTop itemTop itemBottom
  if strict then l.OffsetHidden bounds itemTop offsetPixels
  else
    (insideTop → insideBottom ∨ scrollTop = l.lastScrollTop bounds) ∧
      (insideBottom → insideTop ∨ scrollTop = 0) ∧
      (¬insideTop → ¬insideBottom → l.OffsetHidden bounds itemTop offsetPixels)

/-- The scrolls for which the missing offset does not matter. -/
def OffsetHonoured (strict : Bool) (strategy : ScrollStrategy)
    (scrollTop itemTop offsetPixels : ℚ) : Prop :=
  match strategy with
  | .top | .center => True
  | .bottom => l.BottomOffsetHidden bounds strict scrollTop itemTop offsetPixels
  | .nearest =>
    offsetPixels ≤ itemTop - scrollTop →
      l.listHeight bounds < itemTop + l.itemHeight - scrollTop →
        l.OffsetHidden bounds itemTop offsetPixels

/-- The scroll top after a scroll to an item, in the terms of the documentation. -/
def appliedScrollTop (strict : Bool) (strategy : ScrollStrategy)
    (scrollTop itemTop offsetPixels : ℚ) : ℚ :=
  let itemBottom := itemTop + l.itemHeight
  let listHeight := l.listHeight bounds
  if strict = false ∧ Inside (offsetPixels, listHeight) scrollTop itemTop itemBottom then scrollTop
  else
    let strategy := strategy.resolve (itemTop < scrollTop + offsetPixels)
      (itemBottom > scrollTop + listHeight)
    match l.targetScrollTop bounds itemTop offsetPixels strategy with
    | some target => clamp target 0 (l.lastScrollTop bounds)
    | none => scrollTop

theorem neg_scrollToPosition (deferred : DeferredScrollToItem) (position : ℕ) (y : ℚ) :
    -l.scrollToPosition bounds y deferred position =
      l.appliedScrollTop bounds deferred.scrollStrict deferred.strategy (-y)
        (l.itemHeight * position) (l.itemHeight * deferred.offset) := by
  have hinside : ((deferred.scrollStrict ||
      decide (l.itemHeight * position < -y + l.itemHeight * deferred.offset) ||
      decide (l.itemHeight * position + l.itemHeight > -y + l.listHeight bounds)) = true) ↔
      ¬(deferred.scrollStrict = false ∧ Inside (l.itemHeight * deferred.offset,
        l.listHeight bounds) (-y) (l.itemHeight * position)
        (l.itemHeight * position + l.itemHeight)) := by
    simp only [Bool.or_eq_true, decide_eq_true_eq, Inside, not_and_or, Bool.not_eq_false, not_le]
    rw [or_assoc]
    refine or_congr_right (or_congr ?_ ?_)
    · constructor <;> intro h <;> linarith
    · constructor <;> intro h <;> linarith
  unfold scrollToPosition appliedScrollTop
  dsimp only
  by_cases hstay : deferred.scrollStrict = false ∧ Inside (l.itemHeight * deferred.offset,
      l.listHeight bounds) (-y) (l.itemHeight * position)
      (l.itemHeight * position + l.itemHeight)
  · rw [if_neg fun h => hinside.mp h hstay, if_pos hstay]
  · rw [if_pos (hinside.mpr hstay), if_neg hstay]
    generalize l.targetScrollTop bounds (l.itemHeight * position) (l.itemHeight * deferred.offset)
      (deferred.strategy.resolve
        (decide (l.itemHeight * position < -y + l.itemHeight * deferred.offset))
        (decide (l.itemHeight * position + l.itemHeight > -y + l.listHeight bounds))) = target
    cases target with
    | none => rfl
    | some target => exact neg_neg _

section Place

variable {l bounds} {strict : Bool} {scrollTop itemTop o : ℚ}

/-- The places of an item at the bottom of the viewport and of the reduced one. -/
theorem clamp_bottom_eq_iff (l : UniformList) (bounds : Bounds ℚ) (itemTop : ℚ) (ho : 0 ≤ o) :
    clamp (itemTop + l.itemHeight - l.listHeight bounds) 0 (l.lastScrollTop bounds) =
      clamp (itemTop + l.itemHeight - (l.listHeight bounds - o)) 0 (l.lastScrollTop bounds) ↔
      l.OffsetHidden bounds itemTop o := by
  have hshift : itemTop + l.itemHeight - (l.listHeight bounds - o) =
      itemTop + l.itemHeight - l.listHeight bounds + o := by ring
  rw [hshift]
  exact clamp_eq_clamp_add_iff ho (l.lastScrollTop_nonneg bounds)

/-- `Top` and `Center` place an item as documented. -/
theorem appliedScrollTop_of_top {strategy : ScrollStrategy}
    (hstrategy : strategy = .top ∨ strategy = .center) :
    l.appliedScrollTop bounds strict strategy scrollTop itemTop o =
      l.documentedScrollTop bounds strict strategy scrollTop itemTop o := by
  have hcenter : itemTop + l.itemHeight / 2 - (o + (l.listHeight bounds - o) / 2) =
      (itemTop + (itemTop + l.itemHeight)) / 2 - (o + l.listHeight bounds) / 2 := by ring
  unfold appliedScrollTop documentedScrollTop
  rcases hstrategy with rfl | rfl
  · simp [ScrollStrategy.reducedViewport, ScrollStrategy.resolve, nearestEdge, targetScrollTop,
      ScrollStrategy.documentedTop, and_comm]
  · simp [ScrollStrategy.reducedViewport, ScrollStrategy.resolve, nearestEdge, targetScrollTop,
      ScrollStrategy.documentedTop, and_comm, hcenter]

/-- `Bottom` places an item as documented exactly if the offset does not matter. -/
theorem appliedScrollTop_bottom_iff (hscroll : 0 ≤ scrollTop)
    (hlast : scrollTop ≤ l.lastScrollTop bounds) (ho : 0 ≤ o) :
    l.appliedScrollTop bounds strict .bottom scrollTop itemTop o =
        l.documentedScrollTop bounds strict .bottom scrollTop itemTop o ↔
      l.BottomOffsetHidden bounds strict scrollTop itemTop o := by
  have hplaces := clamp_bottom_eq_iff l bounds itemTop ho
  have hmax := l.lastScrollTop_nonneg bounds
  have happlied : l.appliedScrollTop bounds strict .bottom scrollTop itemTop o =
      if strict = false ∧ Inside (o, l.listHeight bounds) scrollTop itemTop
          (itemTop + l.itemHeight) then scrollTop
      else clamp (itemTop + l.itemHeight - l.listHeight bounds) 0 (l.lastScrollTop bounds) := rfl
  have hdocumented : l.documentedScrollTop bounds strict .bottom scrollTop itemTop o =
      if Inside (0, l.listHeight bounds - o) scrollTop itemTop (itemTop + l.itemHeight) ∧
          strict = false then scrollTop
      else clamp (itemTop + l.itemHeight - (l.listHeight bounds - o)) 0
        (l.lastScrollTop bounds) := by
    simp [documentedScrollTop, ScrollStrategy.reducedViewport, nearestEdge,
      ScrollStrategy.documentedTop]
  rw [happlied, hdocumented]
  unfold BottomOffsetHidden
  dsimp only
  cases strict with
  | true =>
    rw [if_neg (by simp), if_neg (by simp), if_pos rfl]
    exact hplaces
  | false =>
    simp only [true_and, and_true, Bool.false_eq_true, if_false]
    by_cases htop : Inside (o, l.listHeight bounds) scrollTop itemTop (itemTop + l.itemHeight)
    · by_cases hbottom : Inside (0, l.listHeight bounds - o) scrollTop itemTop
        (itemTop + l.itemHeight)
      · simp [htop, hbottom]
      · -- the item stays, but it should move up: this is hidden at the end of the content
        have hbelow : scrollTop < itemTop + l.itemHeight - (l.listHeight bounds - o) := by
          by_contra hnot
          exact hbottom ⟨by linarith [htop.1], by linarith⟩
        have hstay : scrollTop =
            clamp (itemTop + l.itemHeight - (l.listHeight bounds - o)) 0 (l.lastScrollTop bounds) ↔
            scrollTop = l.lastScrollTop bounds := by
          rw [clamp, max_eq_left (by linarith)]
          constructor
          · intro heq
            rcases min_choice (itemTop + l.itemHeight - (l.listHeight bounds - o))
              (l.lastScrollTop bounds) with h | h
            · linarith
            · linarith
          · intro heq
            rw [min_eq_right (by linarith), heq]
        simp [htop, hbottom, hstay]
    · by_cases hbottom : Inside (0, l.listHeight bounds - o) scrollTop itemTop
        (itemTop + l.itemHeight)
      · -- the item moves, but it should stay: this is hidden at the beginning of the content
        have habove : itemTop - scrollTop < o := by
          by_contra hnot
          exact htop ⟨by linarith, by linarith [hbottom.2]⟩
        have hinside : 0 ≤ itemTop - scrollTop ∧
            itemTop + l.itemHeight - scrollTop ≤ l.listHeight bounds - o := hbottom
        have hmove : clamp (itemTop + l.itemHeight - l.listHeight bounds) 0
            (l.lastScrollTop bounds) = scrollTop ↔ scrollTop = 0 := by
          constructor
          · intro heq
            by_contra hne
            have hpos := lt_of_le_of_ne hscroll (Ne.symm hne)
            have hless : clamp (itemTop + l.itemHeight - l.listHeight bounds) 0
                (l.lastScrollTop bounds) < scrollTop :=
              (min_le_left _ _).trans_lt (max_lt (by linarith) hpos)
            exact absurd heq hless.ne
          · rintro rfl
            rw [clamp, max_eq_right (by linarith), min_eq_left hmax]
        simp [htop, hbottom, hmove]
      · simp [htop, hbottom, hplaces]

/-- `Nearest` places an item below the viewport as `Bottom` does. -/
theorem appliedScrollTop_nearest_iff (ho : 0 ≤ o) :
    l.appliedScrollTop bounds strict .nearest scrollTop itemTop o =
        l.documentedScrollTop bounds strict .nearest scrollTop itemTop o ↔
      (o ≤ itemTop - scrollTop → l.listHeight bounds < itemTop + l.itemHeight - scrollTop →
        l.OffsetHidden bounds itemTop o) := by
  have hplaces := clamp_bottom_eq_iff l bounds itemTop ho
  by_cases habove : itemTop - scrollTop < o
  · have htop : itemTop < scrollTop + o := by linarith
    have hout : ¬Inside (o, l.listHeight bounds) scrollTop itemTop (itemTop + l.itemHeight) :=
      fun h => absurd h.1 (not_le.mpr habove)
    have hnot : ¬o ≤ itemTop - scrollTop := not_le.mpr habove
    simp [appliedScrollTop, documentedScrollTop, ScrollStrategy.reducedViewport,
      ScrollStrategy.resolve, nearestEdge, targetScrollTop, ScrollStrategy.documentedTop, hout,
      habove, htop, hnot]
  · have htop : ¬itemTop < scrollTop + o := by linarith
    have hle : o ≤ itemTop - scrollTop := not_lt.mp habove
    by_cases hbelow : l.listHeight bounds < itemTop + l.itemHeight - scrollTop
    · have hbottom : itemTop + l.itemHeight > scrollTop + l.listHeight bounds := by linarith
      have hout : ¬Inside (o, l.listHeight bounds) scrollTop itemTop (itemTop + l.itemHeight) :=
        fun h => absurd h.2 (not_le.mpr hbelow)
      simp only [appliedScrollTop, documentedScrollTop, ScrollStrategy.reducedViewport,
        ScrollStrategy.resolve, nearestEdge, targetScrollTop, ScrollStrategy.documentedTop]
      simp [hout, habove, htop, hle, hbelow, hbottom, hplaces]
    · have hbottom : ¬itemTop + l.itemHeight > scrollTop + l.listHeight bounds := by linarith
      have hin : Inside (o, l.listHeight bounds) scrollTop itemTop (itemTop + l.itemHeight) :=
        ⟨hle, not_lt.mp hbelow⟩
      simp [appliedScrollTop, documentedScrollTop, ScrollStrategy.reducedViewport,
        ScrollStrategy.resolve, targetScrollTop, hin, htop, hbelow, hbottom]

/-- A scroll to an item leads where its strategy says exactly if the missing offset of `Bottom`
does not matter. -/
theorem appliedScrollTop_eq_iff (strict : Bool) (strategy : ScrollStrategy) (itemTop : ℚ)
    (hscroll : 0 ≤ scrollTop) (hlast : scrollTop ≤ l.lastScrollTop bounds) (ho : 0 ≤ o) :
    l.appliedScrollTop bounds strict strategy scrollTop itemTop o =
        l.documentedScrollTop bounds strict strategy scrollTop itemTop o ↔
      l.OffsetHonoured bounds strict strategy scrollTop itemTop o := by
  cases strategy with
  | top => simp [OffsetHonoured, appliedScrollTop_of_top]
  | center => simp [OffsetHonoured, appliedScrollTop_of_top]
  | bottom => exact appliedScrollTop_bottom_iff hscroll hlast ho
  | nearest => exact appliedScrollTop_nearest_iff ho

end Place

/-- A scroll to an item leads where its strategy says exactly if mirroring the index does not
overflow and the missing offset of `Bottom` does not matter. -/
theorem scrollsAsDocumented_iff (s : UniformListScrollState) (ix : ℕ)
    (strategy : ScrollStrategy) (offset : ℕ) (strict : Bool) :
    l.ScrollsAsDocumented bounds s ix strategy offset strict ↔
      (l.itemCount ≠ 0 → (s.yFlipped = true → ix < usizeMax) ∧
        l.OffsetHonoured bounds strict strategy (-(l.startOffset bounds s).y)
          (l.itemHeight * l.itemPosition s.yFlipped ix) (l.itemHeight * offset)) := by
  unfold ScrollsAsDocumented
  refine forall_congr' fun hitems => ?_
  have hdeferred := l.prepaint_deferred bounds (s := s.deferScroll ix strategy offset strict)
    hitems rfl
  have hflipped : (s.deferScroll ix strategy offset strict).yFlipped = s.yFlipped := rfl
  have hstart : l.startOffset bounds (s.deferScroll ix strategy offset strict) =
      l.startOffset bounds s := rfl
  rw [hflipped, positionOf_eq, hstart] at hdeferred
  by_cases hix : s.yFlipped = true → ix < usizeMax
  · rw [if_pos hix] at hdeferred
    obtain ⟨s', placed, hprepaint, hoffset⟩ := hdeferred
    obtain ⟨hlow, hhigh⟩ := l.startOffset_range bounds s
    have ho : 0 ≤ l.itemHeight * (offset : ℚ) :=
      mul_nonneg l.itemHeight_nonneg (Nat.cast_nonneg _)
    have happlied := neg_scrollToPosition l bounds ⟨ix, strategy, offset, strict⟩
      (l.itemPosition s.yFlipped ix) (l.startOffset bounds s).y
    have hiff := appliedScrollTop_eq_iff strict strategy
      (l.itemHeight * l.itemPosition s.yFlipped ix) (neg_nonneg.mpr hhigh) (neg_le.mp hlow) ho
    rw [← hiff, ← happlied, hprepaint]
    constructor
    · rintro ⟨t, placed', heq, hdocumented⟩
      obtain ⟨rfl, -⟩ := Prod.mk.inj (Option.some.inj heq)
      exact ⟨hix, by rw [← hdocumented, hoffset]; rfl⟩
    · rintro ⟨-, hdocumented⟩
      exact ⟨s', placed, rfl, by rw [hoffset, ← hdocumented]; rfl⟩
  · rw [if_neg hix] at hdeferred
    dsimp only at hdeferred
    rw [hdeferred]
    constructor
    · rintro ⟨s', placed, heq, -⟩
      cases heq
    · rintro ⟨h, -⟩
      exact absurd h hix

theorem zero_nonneg : (0 : ℚ) ≤ 0 := le_rfl

theorem ten_nonneg : (0 : ℚ) ≤ 10 := by decide

theorem ten_le_usizeMax : 10 ≤ usizeMax := by decide

/-- Ten items of ten pixels without border and padding. -/
def tenItems : UniformList :=
  let none := ⟨0, 0, 0, 0, zero_nonneg, zero_nonneg, zero_nonneg, zero_nonneg⟩
  ⟨10, ten_le_usizeMax, ⟨10, 10⟩, ten_nonneg, none, none, false⟩

/-- The state of a list at its top. -/
def topState : UniformListScrollState := ⟨⟨0, 0⟩, false, none, none, false⟩

/-- Scrolled to the bottom of five visible items, the eighth one should have another one below
it, but it is the last one visible. -/
theorem not_scrollsAsDocumented_bottom :
    ¬tenItems.ScrollsAsDocumented ⟨⟨0, 0⟩, ⟨10, 50⟩⟩ topState 7 .bottom 1 true := by
  have hprepaint : (tenItems.prepaint ⟨⟨0, 0⟩, ⟨10, 50⟩⟩
      (topState.deferScroll 7 .bottom 1 true)).map (fun r => r.1.scrollOffset.y) =
        some (-30) := by
    decide +kernel
  have hdocumented : tenItems.documentedScrollTop ⟨⟨0, 0⟩, ⟨10, 50⟩⟩ true .bottom
      (-(tenItems.startOffset ⟨⟨0, 0⟩, ⟨10, 50⟩⟩ topState).y)
      (tenItems.itemHeight * tenItems.itemPosition topState.yFlipped 7)
      (tenItems.itemHeight * 1) = 40 := by
    decide +kernel
  intro h
  obtain ⟨s', placed, heq, hplace⟩ := h (by decide)
  rw [heq, Option.map_some, Option.some.injEq] at hprepaint
  rw [Nat.cast_one, hdocumented, hprepaint] at hplace
  norm_num at hplace

end Lucie.UniformList
