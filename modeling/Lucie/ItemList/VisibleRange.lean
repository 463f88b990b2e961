import Lucie.ItemList.Calls

/-!
# The visible range of a scroll event

The handler of a list is told which items are visible. The range is computed from the scroll
top of the last layout, and its end from the offset of the bottom edge without the padding.
-/

set_option autoImplicit false

namespace Lucie.ItemList.StateInner

variable {F : Type}

/-- The offset at the top edge of the viewport; a list that is aligned to the bottom and has no
position ends at the bottom edge. -/
def viewTop (s : StateInner F) (height : ℚ) : ℚ :=
  if s.logicalScrollTop = none ∧ s.alignment = .bottom then
    contentHeight s.items + s.padding.top + s.padding.bottom - height
  else s.absolute s.scrollTop

/-- An item between two offsets, of which the first is at the top edge of the viewport. -/
def Between (s : StateInner F) (top bottom : ℚ) (i : ℕ) : Prop :=
  i < s.items.length ∧ s.padding.top + ItemList.top s.items i < bottom ∧
    top < s.padding.top + ItemList.top s.items (i + 1)

/-- An item intersects a viewport. -/
def Visible (s : StateInner F) (height : ℚ) : ℕ → Prop :=
  s.Between (s.viewTop height) (s.viewTop height + height)

/-- A scroll tells its handler the items that are visible after it, a range of the items. -/
def ReportsVisible (s : StateInner F) (position : ListOffset) (height deltaY : ℚ) : Prop :=
  ∃ s' event, s.scroll position height deltaY = some (s', some event) ∧
    event.visibleEnd ≤ s'.items.length ∧
    ∀ i, event.visibleStart ≤ i ∧ i < event.visibleEnd ↔ s'.Visible height i

/-- The offset at the top edge after a scroll from a position. -/
def scrolledViewTop (s : StateInner F) (position : ListOffset) (height deltaY : ℚ) : ℚ :=
  let offset := s.scrolledOffset position height deltaY
  if s.alignment = .bottom ∧ offset = s.scrollMax height then
    contentHeight s.items + s.padding.top + s.padding.bottom - height
  else offset

/-- The top item of a position and the item at the bottom edge, without the padding, are the
first and the last item between two offsets. -/
structure EdgesStay (s : StateInner F) (position : ListOffset) (height top bottom : ℚ)
    (last : ℕ) : Prop where
  inRange : position.itemIx ≤ last ∧ last < s.items.length
  bottom_begin : last = position.itemIx ∨
    ItemList.top s.items last < s.absolute position + height
  bottom_end : s.absolute position + height ≤ ItemList.top s.items (last + 1)
  first_begin : position.itemIx = 0 ∨
    s.padding.top + ItemList.top s.items position.itemIx ≤ top
  first_end : top < s.padding.top + ItemList.top s.items (position.itemIx + 1)
  last_begin : s.padding.top + ItemList.top s.items last < bottom
  last_end : last + 1 = s.items.length ∨
    bottom ≤ s.padding.top + ItemList.top s.items (last + 1)

/-- The items between two offsets are those from one to another exactly if these two are the
first and the last one there. -/
theorem between_iff {s : StateInner F} {top bottom : ℚ} {first last : ℕ} (hfirst : first ≤ last)
    (hlast : last < s.items.length) :
    (∀ i, first ≤ i ∧ i < last + 1 ↔ s.Between top bottom i) ↔
      (first = 0 ∨ s.padding.top + ItemList.top s.items first ≤ top) ∧
        top < s.padding.top + ItemList.top s.items (first + 1) ∧
        s.padding.top + ItemList.top s.items last < bottom ∧
        (last + 1 = s.items.length ∨ bottom ≤ s.padding.top + ItemList.top s.items (last + 1)) := by
  constructor
  · intro hrange
    obtain ⟨-, -, htop⟩ := (hrange first).mp ⟨Nat.le_refl _, by omega⟩
    obtain ⟨-, hbottom, -⟩ := (hrange last).mp ⟨hfirst, by omega⟩
    refine ⟨?_, htop, hbottom, ?_⟩
    · rcases first with - | first
      · exact .inl rfl
      · right
        by_contra habove
        have hmono := @top_mono _ s.items first last (by omega)
        have hin := (hrange first).mpr ⟨by omega, by linarith, not_le.mp habove⟩
        omega
    · by_cases hend : last + 1 = s.items.length
      · exact .inl hend
      · right
        by_contra hbelow
        have hmono := @top_mono _ s.items (first + 1) (last + 1 + 1) (by omega)
        have hin := (hrange (last + 1)).mpr ⟨by omega, not_le.mp hbelow, by linarith⟩
        omega
  · rintro ⟨hbegin, htop, hbottom, hend⟩ i
    constructor
    · rintro ⟨hi, hilast⟩
      have hbefore := @top_mono _ s.items i last (by omega)
      have hafter := @top_mono _ s.items (first + 1) (i + 1) (by omega)
      exact ⟨by omega, by linarith, by linarith⟩
    · rintro ⟨hi, hibottom, hitop⟩
      constructor
      · rcases hbegin with hzero | hbegin
        · omega
        · by_contra hbefore
          have hmono := @top_mono _ s.items (i + 1) first (by omega)
          linarith
      · rcases hend with hlength | hend
        · omega
        · by_contra hafter
          have hmono := @top_mono _ s.items (last + 1) i (by omega)
          linarith

/-- The last index of the range that `visible_range` returns. -/
def lastIndex (items : List (ListItem F)) (height : ℚ) (position : ListOffset) : ℕ :=
  max (min position.itemIx items.length) <|
    (heightTarget (top items position.itemIx + position.offsetInItem + height)).leading .left items

theorem visibleRange_eq (items : List (ListItem F)) (height : ℚ) (position : ListOffset) :
    visibleRange items height position =
      if position.offsetInItem + height < 0 then none
      else some (position.itemIx, lastIndex items height position + 1) := by
  have hcount : (startAt items (lastIndex items height position)).count =
      lastIndex items height position := by
    rw [startAt_count]
    exact min_eq_left (max_le (min_le_right _ _) (SeekTarget.leading_le _ _ _))
  have hpanic : (heightTarget (top items position.itemIx + position.offsetInItem + height)).cmp
      (startAt items (min position.itemIx items.length)) = .lt ↔
      position.offsetInItem + height < 0 := by
    rw [cmp_heightTarget_lt, startAt_height, top_min_length]
    constructor
    · intro h
      linarith
    · intro h
      linarith
  unfold visibleRange
  rw [seek_countTarget, Option.bind_eq_bind, Option.bind_some, startAt_height, top_min_length]
  dsimp only [seekFrom]
  by_cases hback : position.offsetInItem + height < 0
  · rw [if_pos hback, if_pos (hpanic.mpr hback), Option.bind_none]
  · rw [if_neg hback, if_neg fun h => hback (hpanic.mp h), Option.bind_some, Cursor.seekIndex]
    exact congrArg some (Prod.ext rfl (congrArg (· + 1) hcount))

/-- The last index of the range is the item at the bottom edge. -/
theorem lastIndex_eq_iff {s : StateInner F} {height : ℚ} {position : ListOffset} {last : ℕ}
    (hrange : position.itemIx ≤ last ∧ last < s.items.length) :
    lastIndex s.items height position = last ↔
      (last = position.itemIx ∨ ItemList.top s.items last < s.absolute position + height) ∧
        s.absolute position + height ≤ ItemList.top s.items (last + 1) := by
  obtain ⟨hpassed, hstop⟩ := leading_height_left s.items (s.absolute position + height)
  have hindex : min position.itemIx s.items.length = position.itemIx := by omega
  unfold lastIndex
  rw [← absolute_eq, hindex]
  constructor
  · intro hlast
    constructor
    · by_cases heq : last = position.itemIx
      · exact .inl heq
      · have hreach : last ≤ (heightTarget (s.absolute position + height)).leading .left
            s.items := by omega
        exact .inr <| ((le_leading_height_left_iff hrange.2.le).mp hreach).resolve_left
          (by omega)
    · have hle : (heightTarget (s.absolute position + height)).leading .left s.items ≤ last := by
        omega
      exact (hstop (by omega)).trans (top_mono (by omega))
  · rintro ⟨hbegin, hend⟩
    have hle : (heightTarget (s.absolute position + height)).leading .left s.items ≤ last := by
      by_contra hgreater
      have := hpassed last (not_le.mp hgreater)
      linarith
    rcases hbegin with rfl | hbegin
    · exact max_eq_left hle
    · have hreach := (le_leading_height_left_iff hrange.2.le).mpr (.inr hbegin)
      omega

theorem scrollMax_nonneg (s : StateInner F) (height : ℚ) : 0 ≤ s.scrollMax height :=
  le_max_right _ _

theorem scrolledOffset_nonneg (s : StateInner F) (position : ListOffset) (height deltaY : ℚ) :
    0 ≤ s.scrolledOffset position height deltaY :=
  le_min (le_max_right _ _) (s.scrollMax_nonneg height)

/-- Scrolling to an offset keeps everything but the position. -/
theorem scrollToOffset_eq (s : StateInner F) (height offset : ℚ) :
    s.scrollToOffset height offset =
      { s with
        logicalScrollTop :=
          if s.alignment = .bottom ∧ offset = s.scrollMax height then none
          else some (positionOf s.items offset) } := by
  have hcount : (find s.items (heightTarget offset) .right).count =
      (heightTarget offset).leading .right s.items := by
    rw [find, startAt_count, min_eq_left (SeekTarget.leading_le _ _ _)]
  unfold scrollToOffset
  split_ifs
  · rfl
  · dsimp only
    rw [hcount, find, startAt_height]
    rfl

/-- The offset at the top edge after a scroll. -/
theorem viewTop_scrollToOffset (s : StateInner F) (height offset : ℚ) :
    (s.scrollToOffset height offset).viewTop height =
      if s.alignment = .bottom ∧ offset = s.scrollMax height then
        contentHeight s.items + s.padding.top + s.padding.bottom - height
      else offset := by
  rw [scrollToOffset_eq]
  by_cases hend : s.alignment = .bottom ∧ offset = s.scrollMax height
  · rw [if_pos hend, if_pos hend]
    exact if_pos ⟨rfl, hend.1⟩
  · have hposition : some (positionOf s.items offset) ≠ none := Option.some_ne_none _
    rw [if_neg hend, if_neg hend, viewTop, if_neg fun h => hposition h.1, absolute_eq]
    exact absolute_positionOf _ _

/-- What a scroll event of a list with a handler returns. -/
theorem scroll_eq (s : StateInner F) (hreset : s.reset = false) (hhandler : s.hasScrollHandler)
    (position : ListOffset) (height deltaY : ℚ) :
    s.scroll position height deltaY =
      if position.offsetInItem + height < 0 then none
      else
        let s' := s.scrollToOffset height (s.scrolledOffset position height deltaY)
        some (s', some ⟨position.itemIx, lastIndex s.items height position + 1, s.items.length,
          s'.logicalScrollTop.isSome⟩) := by
  unfold scroll
  rw [scrollToOffset_eq]
  simp only [hreset, hhandler, Bool.false_eq_true, if_false, if_true, visibleRange_eq]
  split_ifs
  all_goals rfl

/-- A scroll event reports the items that are visible after it exactly if the items at both
edges of the viewport, the lower one found without the padding, are the first and the last
visible ones after it. -/
theorem reportsVisible_iff (s : StateInner F) (hreset : s.reset = false)
    (hhandler : s.hasScrollHandler = true) (position : ListOffset) (height deltaY : ℚ) :
    s.ReportsVisible position height deltaY ↔
      0 ≤ position.offsetInItem + height ∧
        ∃ last, s.EdgesStay position height (s.scrolledViewTop position height deltaY)
          (s.scrolledViewTop position height deltaY + height) last := by
  have hview := s.viewTop_scrollToOffset height (s.scrolledOffset position height deltaY)
  have hvisible : (s.scrollToOffset height (s.scrolledOffset position height deltaY)).Visible
      height = s.Between (s.scrolledViewTop position height deltaY)
        (s.scrolledViewTop position height deltaY + height) := by
    unfold Visible
    rw [hview, scrollToOffset_eq]
    rfl
  have hitems : (s.scrollToOffset height (s.scrolledOffset position height deltaY)).items =
      s.items := by
    rw [scrollToOffset_eq]
  unfold ReportsVisible
  rw [scroll_eq s hreset hhandler]
  by_cases hpanic : position.offsetInItem + height < 0
  · rw [if_pos hpanic]
    constructor
    · rintro ⟨s', event, heq, -⟩
      cases heq
    · rintro ⟨hnonneg, -⟩
      exact absurd hpanic (not_lt.mpr hnonneg)
  · rw [if_neg hpanic]
    constructor
    · rintro ⟨s', event, heq, hend, hrange⟩
      obtain ⟨rfl, hevent⟩ := Prod.mk.inj (Option.some.inj heq)
      obtain rfl := Option.some.inj hevent
      rw [hitems] at hend
      rw [hvisible] at hrange
      have hfirst : position.itemIx ≤ lastIndex s.items height position := by
        unfold lastIndex at hend ⊢
        dsimp only at hend
        omega
      have hinside : position.itemIx ≤ lastIndex s.items height position ∧
          lastIndex s.items height position < s.items.length := ⟨hfirst, hend⟩
      obtain ⟨hbegin, hbottom⟩ := (lastIndex_eq_iff hinside).mp rfl
      obtain ⟨h₁, h₂, h₃, h₄⟩ := (between_iff hfirst hend).mp hrange
      exact ⟨not_lt.mp hpanic, _, hinside, hbegin, hbottom, h₁, h₂, h₃, h₄⟩
    · rintro ⟨-, last, hedges⟩
      have hlast := (lastIndex_eq_iff hedges.inRange).mpr ⟨hedges.bottom_begin, hedges.bottom_end⟩
      refine ⟨_, _, rfl, ?_, ?_⟩
      · rw [hitems, hlast]
        exact hedges.inRange.2
      · rw [hvisible, hlast]
        exact (between_iff hedges.inRange.1 hedges.inRange.2).mpr
          ⟨hedges.first_begin, hedges.first_end, hedges.last_begin, hedges.last_end⟩

/-- Three items of which the first one fills the viewport. -/
def threeItems : StateInner Empty :=
  let item := .measured .ten none
  ⟨some ⟨⟨0, 0⟩, ⟨10, 10⟩⟩, some ⟨0, 0⟩, [item, item, item], none, .top, 30, false, true, none,
    .visible, none⟩

/-- The calls that lead to `threeItems`. -/
def threeItemsCalls : List (ListCall Empty) :=
  [.setScrollHandler, .prepaint (.uniform _ .ten) ⟨⟨0, 0⟩, ⟨10, 10⟩⟩ ⟨0, 0⟩]

/-- A scroll by ten pixels reports the first item, although only the second one is visible. -/
theorem threeItems_not_reportsVisible :
    Reachable threeItems ∧ ¬threeItems.ReportsVisible ⟨0, 0⟩ 10 (-10) := by
  have hcalls : (new 3 .top 30).bind (Foundation.execute call InRange · threeItemsCalls) =
      some threeItems := by decide +kernel
  have hscroll : threeItems.scroll ⟨0, 0⟩ 10 (-10) =
      some ({ threeItems with logicalScrollTop := some ⟨1, 0⟩ }, some ⟨0, 1, 3, true⟩) := by
    decide +kernel
  refine ⟨reachable_of_execute hcalls, ?_⟩
  rintro ⟨s', event, heq, -, hrange⟩
  rw [hscroll] at heq
  obtain ⟨rfl, hevent⟩ := Prod.mk.inj (Option.some.inj heq)
  obtain rfl := Option.some.inj hevent
  obtain ⟨-, -, habove⟩ := (hrange 0).mp ⟨Nat.le_refl 0, Nat.one_pos⟩
  revert habove
  decide +kernel

/-- A scroll by nothing reports the visible item. -/
theorem reportsVisible_threeItems : threeItems.ReportsVisible ⟨0, 0⟩ 10 0 ↔
    0 ≤ (⟨0, 0⟩ : ListOffset).offsetInItem + 10 ∧
      ∃ last, threeItems.EdgesStay ⟨0, 0⟩ 10 (threeItems.scrolledViewTop ⟨0, 0⟩ 10 0)
        (threeItems.scrolledViewTop ⟨0, 0⟩ 10 0 + 10) last :=
  reportsVisible_iff threeItems rfl rfl ⟨0, 0⟩ 10 0

end Lucie.ItemList.StateInner
