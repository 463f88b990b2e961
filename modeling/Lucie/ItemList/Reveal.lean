import Lucie.ItemList.Calls

/-!
# Revealing an item

`scroll_to_reveal_item` puts an item at or above the top item at the top edge. For an item
below it computes the offset at which the item ends at the bottom edge, and goes there
unless that offset lies above the top item; the offset in the top item is not considered.
-/

set_option autoImplicit false

namespace Lucie.ItemList.StateInner

variable {F : Type}

/-- An item fits into the viewport without its paddings. -/
def Fits (s : StateInner F) (ix : ℕ) : Prop :=
  s.padding.top + (top s.items (ix + 1) - top s.items ix) + s.padding.bottom ≤ s.viewportHeight

/-- An item lies in the viewport without its paddings. -/
def Inside (s : StateInner F) (ix : ℕ) : Prop :=
  s.absolute s.scrollTop ≤ top s.items ix ∧
    s.padding.top + top s.items (ix + 1) + s.padding.bottom ≤
      s.absolute s.scrollTop + s.viewportHeight

/-- Revealing an item puts it in the viewport if it fits, and does not scroll if it is there. -/
def Reveals (s : StateInner F) (ix : ℕ) : Prop :=
  ∃ s', s.scrollToRevealItem ix = some s' ∧ (s'.Fits ix → s'.Inside ix) ∧
    (s.Inside ix → s'.absolute s'.scrollTop = s.absolute s.scrollTop)

/-- An item below the top item is brought to the bottom edge. -/
def GoesToGoal (s : StateInner F) (ix : ℕ) : Prop :=
  s.scrollTop.itemIx = 0 ∨ top s.items s.scrollTop.itemIx < s.goalTop ix

instance (s : StateInner F) (ix : ℕ) : Decidable (s.GoesToGoal ix) :=
  inferInstanceAs (Decidable (_ ∨ _))

theorem goalTop_nonneg (s : StateInner F) (ix : ℕ) : 0 ≤ s.goalTop ix := le_max_left _ _

/-- The first item that ends at or behind the goal of revealing an item. -/
def goalIndex (s : StateInner F) (ix : ℕ) : ℕ :=
  (heightTarget (s.goalTop ix)).leading .left s.items

/-- The position after revealing an item. -/
def revealedPosition (s : StateInner F) (ix : ℕ) : ListOffset :=
  if ix ≤ s.scrollTop.itemIx then ⟨ix, 0⟩
  else if s.scrollTop.itemIx ≤ s.goalIndex ix then
    ⟨s.goalIndex ix, s.goalTop ix - top s.items (s.goalIndex ix)⟩
  else s.scrollTop

/-- Revealing an item sets the position only. -/
theorem scrollToRevealItem_eq (s : StateInner F) (ix : ℕ) :
    s.scrollToRevealItem ix =
      some { s with logicalScrollTop := some (s.revealedPosition ix) } := by
  unfold scrollToRevealItem revealedPosition
  dsimp only
  by_cases habove : ix ≤ s.scrollTop.itemIx
  · rw [if_pos habove, if_pos habove]
  · have hcount : (startAt s.items (s.goalIndex ix)).count = s.goalIndex ix := by
      rw [startAt_count]
      exact min_eq_left (SeekTarget.leading_le _ _ _)
    have hseek : seek s.items (heightTarget (s.goalTop ix)) .left = some (s.goalIndex ix) := by
      have hforward : ¬(heightTarget (s.goalTop ix)).cmp (startAt s.items 0) = .lt := by
        rw [cmp_heightTarget_lt, startAt_height, top_zero]
        exact not_lt.mpr (s.goalTop_nonneg ix)
      rw [seek, seekFrom, if_neg hforward, Cursor.seekIndex, Nat.zero_max, goalIndex]
    rw [if_neg habove, if_neg habove, seek_countTarget, Option.bind_eq_bind, Option.bind_some,
      startAt_height, top_min_length]
    change (seek s.items (heightTarget (s.goalTop ix)) .left).bind _ = _
    rw [hseek, Option.bind_some, hcount, startAt_height]
    rfl

theorem goesToGoal_iff {s : StateInner F} (htop : s.scrollTop.itemIx ≤ s.items.length) (ix : ℕ) :
    s.GoesToGoal ix ↔ s.scrollTop.itemIx ≤ s.goalIndex ix :=
  (le_leading_height_left_iff htop).symm

/-- An item lies in the viewport without its paddings at some offset. -/
def InsideAt (s : StateInner F) (ix : ℕ) (offset : ℚ) : Prop :=
  offset ≤ top s.items ix ∧
    s.padding.top + top s.items (ix + 1) + s.padding.bottom ≤ offset + s.viewportHeight

/-- Revealing an item in terms of the offset to which it goes. -/
theorem reveals_of_eq (s : StateInner F) {ix : ℕ} {position : ListOffset}
    (h : s.scrollToRevealItem ix = some { s with logicalScrollTop := some position }) :
    s.Reveals ix ↔ (s.Fits ix → s.InsideAt ix (s.absolute position)) ∧
      (s.Inside ix → s.absolute position = s.absolute s.scrollTop) := by
  unfold Reveals
  rw [h]
  constructor
  · rintro ⟨s', heq, hfits, hinside⟩
    obtain rfl := Option.some.inj heq
    exact ⟨hfits, hinside⟩
  · rintro ⟨hfits, hinside⟩
    exact ⟨_, rfl, hfits, hinside⟩

/-- An item that fits is in the viewport at its own offset. -/
theorem insideAt_top (s : StateInner F) {ix : ℕ} (hfits : s.Fits ix) :
    s.InsideAt ix (top s.items ix) := by
  unfold Fits at hfits
  constructor
  · exact le_rfl
  · linarith

/-- An item that fits is in the viewport at the offset at which it ends at the bottom edge. -/
theorem insideAt_goalTop (s : StateInner F) {ix : ℕ} (hfits : s.Fits ix) :
    s.InsideAt ix (s.goalTop ix) := by
  unfold Fits at hfits
  constructor
  · apply max_le (top_nonneg ix)
    linarith
  · have hgoal : top s.items (ix + 1) + s.padding.top - s.viewportHeight + s.padding.bottom ≤
        s.goalTop ix := le_max_right _ _
    linarith

/-- Three items that are scrolled by half an item, in a viewport of the height of two. -/
def halfScrolled : StateInner Empty :=
  let item := .measured .ten none
  ⟨some ⟨⟨0, 0⟩, ⟨10, 20⟩⟩, some ⟨0, 0⟩, [item, item, item], some ⟨0, 5⟩, .top, 30, false, false,
    none, .visible, none⟩

/-- The calls that lead to `halfScrolled`. -/
def halfScrolledCalls : List (ListCall Empty) :=
  [.prepaint (.uniform _ .ten) ⟨⟨0, 0⟩, ⟨10, 20⟩⟩ ⟨0, 0⟩, .scrollBy 5]

end Lucie.ItemList.StateInner
