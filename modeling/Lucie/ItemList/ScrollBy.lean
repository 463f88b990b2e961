import Lucie.ItemList.Calls

/-!
# Scrolling by a distance

`scroll_by` looks for the new offset from the top item on whenever it lies below the old
one. An offset in the item may be negative, so that the old offset is above the top item.
-/

set_option autoImplicit false

namespace Lucie.ItemList.StateInner

variable {F : Type}

/-- The offset to which a scroll by a distance leads; the items end at the top. -/
def offsetAfter (s : StateInner F) (distance : ℚ) : ℚ :=
  max 0 (s.absolute s.scrollTop + distance)

/-- Scrolling by a distance succeeds, moves the offset from the top of the items by it, but
not above them, and leaves a position with an offset in its item. -/
def ScrollByMoves (s : StateInner F) (distance : ℚ) : Prop :=
  ∃ s', s.scrollBy distance = some s' ∧
    s'.absolute s'.scrollTop = s.offsetAfter distance ∧ Canonical s'.items s'.scrollTop

/-- The new offset lies below the old one, but above the top item. -/
def SeeksBackward (s : StateInner F) (distance : ℚ) : Prop :=
  s.absolute s.scrollTop < s.offsetAfter distance ∧
    s.offsetAfter distance < top s.items s.scrollTop.itemIx

instance (s : StateInner F) (distance : ℚ) : Decidable (s.SeeksBackward distance) :=
  inferInstanceAs (Decidable (_ ∧ _))

theorem offsetAfter_nonneg (s : StateInner F) (distance : ℚ) : 0 ≤ s.offsetAfter distance :=
  le_max_left _ _

/-- A scroll panics, or it leaves the position of the new offset. -/
theorem scrollBy_eq (s : StateInner F) {distance : ℚ} (hdistance : distance ≠ 0) :
    s.scrollBy distance =
      if s.SeeksBackward distance then none
      else some { s with
        logicalScrollTop := some (positionOf s.items (s.offsetAfter distance)) } := by
  have hstart : (startAt s.items (min s.scrollTop.itemIx s.items.length)).height =
      top s.items s.scrollTop.itemIx := by
    rw [startAt_height, top_min_length]
  have hoffset : max (s.absolute s.scrollTop + distance) 0 = s.offsetAfter distance :=
    max_comm _ _
  have hcount : (startAt s.items
      ((heightTarget (s.offsetAfter distance)).leading .right s.items)).count =
      (positionOf s.items (s.offsetAfter distance)).itemIx := by
    rw [startAt_count, min_eq_left (SeekTarget.leading_le _ _ _)]
    rfl
  have hnonneg := s.offsetAfter_nonneg distance
  unfold scrollBy
  rw [if_neg hdistance]
  dsimp only
  rw [seek_countTarget, Option.bind_eq_bind, Option.bind_some, hstart, ← absolute_eq, hoffset]
  by_cases hdown : s.offsetAfter distance > s.absolute s.scrollTop
  · rw [if_pos hdown, seekFrom_height hnonneg]
    by_cases habove : s.offsetAfter distance < top s.items s.scrollTop.itemIx
    · have hback : s.SeeksBackward distance := ⟨hdown, habove⟩
      rw [if_pos habove, if_pos hback, Option.bind_none]
    · have hsafe : ¬s.SeeksBackward distance := fun h => habove h.2
      rw [if_neg habove, if_neg hsafe, Option.bind_some, hcount, startAt_height]
      rfl
  · have hsafe : ¬s.SeeksBackward distance := fun h => hdown h.1
    rw [if_neg hdown, seek_height hnonneg, if_neg hsafe, Option.bind_some, hcount,
      startAt_height]
    rfl

/-- A scroll does what it should, unless it looks below the top item for an offset above it
or it stops at once although the position is not in its item. -/
theorem scrollBy_moves_iff (s : StateInner F) (distance : ℚ) :
    s.ScrollByMoves distance ↔
      if distance = 0 then Canonical s.items s.scrollTop else ¬s.SeeksBackward distance := by
  unfold ScrollByMoves
  split_ifs with hdistance
  · subst hdistance
    have hstay : s.scrollBy 0 = some s := rfl
    rw [hstay]
    constructor
    · rintro ⟨s', heq, -, hcanonical⟩
      obtain rfl := Option.some.inj heq
      exact hcanonical
    · intro hcanonical
      have htop := @top_nonneg _ s.items s.scrollTop.itemIx
      have hoffset := hcanonical.nonneg
      refine ⟨s, rfl, ?_, hcanonical⟩
      rw [offsetAfter, add_zero, absolute_eq, max_eq_right (by linarith)]
  · rw [scrollBy_eq s hdistance]
    split_ifs with hback
    · simp [hback]
    · constructor
      · intro _
        exact hback
      · intro _
        refine ⟨_, rfl, ?_, canonical_positionOf _ (s.offsetAfter_nonneg _)⟩
        rw [absolute_eq]
        exact absolute_positionOf _ _

/-- A list of two items whose first one fills the viewport. It is scrolled to a place above
its second item. -/
def aboveItem : StateInner Empty :=
  ⟨some ⟨⟨0, 0⟩, ⟨10, 10⟩⟩, some ⟨0, 0⟩, [.measured .ten none, .unmeasured none],
    some ⟨1, -5⟩, .top, 0, false, false, none, .visible, none⟩

/-- The calls that lead to `aboveItem`. -/
def aboveItemCalls : List (ListCall Empty) :=
  [.prepaint (.uniform _ .ten) ⟨⟨0, 0⟩, ⟨10, 10⟩⟩ ⟨0, 0⟩, .scrollTo ⟨1, -5⟩]

/-- From there a scroll down by one pixel panics. -/
theorem aboveItem_not_scrollBy_moves : Reachable aboveItem ∧ ¬aboveItem.ScrollByMoves 1 := by
  have hcalls : (new 2 .top 0).bind (Foundation.execute call InRange · aboveItemCalls) =
      some aboveItem := by decide +kernel
  have hpanic : aboveItem.scrollBy 1 = none := by decide +kernel
  refine ⟨reachable_of_execute hcalls, ?_⟩
  rintro ⟨s', heq, -⟩
  rw [hpanic] at heq
  cases heq

end Lucie.ItemList.StateInner
