import Lucie.UniformList.Strategy

/-!
# The visible range of a uniform list

The list shows its bounds within the border. The first position of the range is found with the
padding above the items, the last one without the padding below them, so that an item that
begins in this padding is missing.
-/

set_option autoImplicit false

namespace Lucie.UniformList

variable (l : UniformList) (bounds : Bounds ℚ)

/-- The area that the list shows: its bounds without the border. -/
def shownArea : Bounds ℚ :=
  .fromCorners ⟨bounds.origin.x + l.border.left, bounds.origin.y + l.border.top⟩
    ⟨bounds.bottomRight.x - l.border.right, bounds.bottomRight.y - l.border.bottom⟩

/-- An item is placed so that a part of it is shown. -/
def Shown (yFlipped : Bool) (offset : Point ℚ) (ix : ℕ) : Prop :=
  ix < l.itemCount ∧
    (l.placedBounds bounds offset (l.itemPosition yFlipped ix)).intersects
      (l.shownArea bounds) = true

/-- Every item that is shown is in the visible range and is rendered, and the range lies within
the items. -/
def RangeCoversShown (yFlipped : Bool) (offset : Point ℚ) : Prop :=
  let visible := l.visibleRange bounds offset
  let rendered := l.renderedRange yFlipped visible
  (∀ ix, l.Shown bounds yFlipped offset ix →
    (visible.1 ≤ l.itemPosition yFlipped ix ∧ l.itemPosition yFlipped ix < visible.2) ∧
      rendered.1 ≤ ix ∧ ix < rendered.2) ∧
    visible.1 ≤ l.itemCount ∧ visible.2 ≤ l.itemCount

/-- The items overlap the shown area horizontally. -/
def OverlapsHorizontally (offset : Point ℚ) : Prop :=
  let placed := l.placedBounds bounds offset 0
  placed.origin.x < (l.shownArea bounds).bottomRight.x ∧
    (l.shownArea bounds).origin.x < placed.bottomRight.x

/-- The item at a position begins in the padding below the items, and it does not end above
the shown area. -/
def BeginsInBottomPadding (offset : Point ℚ) (position : ℕ) : Prop :=
  (-offset.y + l.listHeight bounds ≤ l.itemHeight * position ∧
    l.itemHeight * position < -offset.y + l.listHeight bounds + l.padding.bottom) ∧
    -(offset.y + l.padding.top) < l.itemHeight * (position + 1)

section Quotient

variable {l} (hheight : 0 < l.itemHeight) {x : ℚ} {n : ℕ}

include hheight

theorem asUsize_floor_le_iff :
    l.asUsize x Int.floor ≤ n ↔ usizeMax ≤ n ∨ x < l.itemHeight * (n + 1) := by
  have hfloor : ⌊x / l.itemHeight⌋.toNat ≤ n ↔ x < l.itemHeight * (n + 1) := by
    rw [Int.toNat_le, ← Int.lt_add_one_iff, Int.floor_lt, div_lt_iff₀ hheight, mul_comm]
    push_cast
    rfl
  rw [asUsize, quotient, if_neg hheight.ne']
  dsimp only
  rw [min_le_iff, hfloor, or_comm]

theorem lt_asUsize_ceil_iff :
    n < l.asUsize x Int.ceil ↔ l.itemHeight * n < x ∧ n < usizeMax := by
  have hceil : n < ⌈x / l.itemHeight⌉.toNat ↔ l.itemHeight * n < x := by
    rw [Int.lt_toNat, Int.lt_ceil, lt_div_iff₀ hheight, mul_comm]
    push_cast
    rfl
  rw [asUsize, quotient, if_neg hheight.ne']
  dsimp only
  rw [lt_min_iff, hceil]

end Quotient

variable {l bounds} {offset : Point ℚ}

/-- An item is shown if it overlaps the shown area in both directions. -/
theorem intersects_shownArea_iff (position : ℕ) :
    (l.placedBounds bounds offset position).intersects (l.shownArea bounds) = true ↔
      l.OverlapsHorizontally bounds offset ∧
        l.itemHeight * position < -offset.y + l.listHeight bounds + l.padding.bottom ∧
          -(offset.y + l.padding.top) < l.itemHeight * (position + 1) := by
  have hbottom : bounds.origin.y + (l.border.top + l.padding.top) + offset.y +
      l.itemHeight * position < bounds.origin.y + bounds.size.height - l.border.bottom ↔
      l.itemHeight * position < -offset.y + l.listHeight bounds + l.padding.bottom := by
    rw [listHeight_eq]
    constructor <;> intro h <;> linarith
  have htop : bounds.origin.y + (l.border.top + l.padding.top) + offset.y +
      l.itemHeight * position + l.itemHeight > bounds.origin.y + l.border.top ↔
      -(offset.y + l.padding.top) < l.itemHeight * (position + 1) := by
    constructor <;> intro h <;> linarith
  rw [Bounds.intersects]
  simp only [Bool.and_eq_true, decide_eq_true_eq]
  unfold OverlapsHorizontally
  simp only [shownArea, Bounds.bottomRight_fromCorners]
  simp only [placedBounds, paddedBounds, Bounds.fromCorners, Bounds.bottomRight]
  rw [hbottom, htop]
  constructor
  · rintro ⟨⟨⟨h₁, h₂⟩, h₃⟩, h₄⟩
    exact ⟨⟨h₁, h₂⟩, h₃, h₄⟩
  · rintro ⟨⟨h₁, h₂⟩, h₃, h₄⟩
    exact ⟨⟨⟨h₁, h₂⟩, h₃⟩, h₄⟩

/-- Mirroring the positions of the items twice leads back. -/
theorem itemPosition_itemPosition {yFlipped : Bool} {ix : ℕ} (hix : ix < l.itemCount) :
    l.itemPosition yFlipped (l.itemPosition yFlipped ix) = ix := by
  unfold itemPosition
  split_ifs <;> omega

theorem itemPosition_lt {yFlipped : Bool} {ix : ℕ} (hix : ix < l.itemCount) :
    l.itemPosition yFlipped ix < l.itemCount := by
  unfold itemPosition
  split_ifs <;> omega

/-- The rendered items are those at the visible positions. -/
theorem mem_renderedRange_iff {yFlipped : Bool} {ix : ℕ} {range : ℕ × ℕ}
    (hix : ix < l.itemCount) (hrange : range.2 ≤ l.itemCount) :
    (l.renderedRange yFlipped range).1 ≤ ix ∧ ix < (l.renderedRange yFlipped range).2 ↔
      range.1 ≤ l.itemPosition yFlipped ix ∧ l.itemPosition yFlipped ix < range.2 := by
  unfold renderedRange itemPosition
  cases yFlipped with
  | false => simp
  | true =>
    simp only [if_true]
    omega

/-- The visible range has every shown item exactly if no item begins in the padding below the
items, and it lies within the items exactly if they do not end an item above the viewport. -/
theorem rangeCoversShown_iff (hheight : 0 < l.itemHeight) (yFlipped : Bool) :
    l.RangeCoversShown bounds yFlipped offset ↔
      (l.OverlapsHorizontally bounds offset → ∀ position < l.itemCount,
        ¬l.BeginsInBottomPadding bounds offset position) ∧
      (usizeMax ≤ l.itemCount ∨
        -(offset.y + l.padding.top) < l.itemHeight * (l.itemCount + 1)) := by
  have hend : (l.visibleRange bounds offset).2 ≤ l.itemCount := min_le_right _ _
  have hfirst : (l.visibleRange bounds offset).1 ≤ l.itemCount ↔ usizeMax ≤ l.itemCount ∨
      -(offset.y + l.padding.top) < l.itemHeight * (l.itemCount + 1) :=
    asUsize_floor_le_iff hheight
  have hlast : ∀ position < l.itemCount, position < (l.visibleRange bounds offset).2 ↔
      l.itemHeight * position < -offset.y + l.listHeight bounds := by
    intro position hposition
    have hmax := l.itemCount_le
    rw [visibleRange, lt_min_iff, lt_asUsize_ceil_iff hheight]
    exact ⟨fun h => h.1.1, fun h => ⟨⟨h, by omega⟩, hposition⟩⟩
  unfold RangeCoversShown
  dsimp only
  rw [hfirst]
  constructor
  · rintro ⟨hcovers, hrange, -⟩
    refine ⟨fun hoverlap position hposition hbegins => ?_, hrange⟩
    obtain ⟨⟨hbehind, hpadding⟩, habove⟩ := hbegins
    have hmirror : l.itemPosition yFlipped (l.itemPosition yFlipped position) = position :=
      itemPosition_itemPosition hposition
    have hshown : l.Shown bounds yFlipped offset (l.itemPosition yFlipped position) := by
      refine ⟨itemPosition_lt hposition, ?_⟩
      rw [hmirror]
      exact (intersects_shownArea_iff position).mpr ⟨hoverlap, hpadding, habove⟩
    obtain ⟨⟨-, hvisible⟩, -⟩ := hcovers _ hshown
    rw [hmirror, hlast position hposition] at hvisible
    linarith
  · rintro ⟨hpadding, hrange⟩
    refine ⟨fun ix hshown => ?_, hrange, hend⟩
    obtain ⟨hix, hintersects⟩ := hshown
    obtain ⟨hoverlap, hbelow, habove⟩ := (intersects_shownArea_iff _).mp hintersects
    have hposition : l.itemPosition yFlipped ix < l.itemCount := itemPosition_lt hix
    have hvisible : (l.visibleRange bounds offset).1 ≤ l.itemPosition yFlipped ix ∧
        l.itemPosition yFlipped ix < (l.visibleRange bounds offset).2 := by
      refine ⟨(asUsize_floor_le_iff hheight).mpr (.inr habove), ?_⟩
      rw [hlast _ hposition]
      by_contra hbehind
      exact hpadding hoverlap _ hposition ⟨⟨not_lt.mp hbehind, hbelow⟩, habove⟩
    exact ⟨hvisible, (mem_renderedRange_iff hix hend).mpr hvisible⟩

theorem five_nonneg : (0 : ℚ) ≤ 5 := by decide

/-- Ten items of ten pixels with a padding of five pixels below them. -/
def paddedItems : UniformList :=
  let none := ⟨0, 0, 0, 0, zero_nonneg, zero_nonneg, zero_nonneg, zero_nonneg⟩
  ⟨10, ten_le_usizeMax, ⟨10, 10⟩, ten_nonneg, none,
    ⟨0, 0, 5, 0, zero_nonneg, zero_nonneg, five_nonneg, zero_nonneg⟩, false⟩

/-- Of a viewport of twenty-five pixels, the last five show the third item, which is not in the
visible range. -/
theorem not_rangeCoversShown_padding :
    ¬paddedItems.RangeCoversShown ⟨⟨0, 0⟩, ⟨10, 25⟩⟩ false ⟨0, 0⟩ := by
  have hshown : paddedItems.Shown ⟨⟨0, 0⟩, ⟨10, 25⟩⟩ false ⟨0, 0⟩ 2 :=
    ⟨by decide, by decide +kernel⟩
  have hrange : (paddedItems.visibleRange ⟨⟨0, 0⟩, ⟨10, 25⟩⟩ ⟨0, 0⟩).2 = 2 := by decide +kernel
  intro hcovers
  obtain ⟨⟨-, hlast⟩, -⟩ := hcovers.1 2 hshown
  rw [hrange] at hlast
  exact absurd hlast (by decide)

/-- At an offset of five pixels, the padding shows nothing of the fourth item. -/
theorem rangeCoversShown_iff_padding : paddedItems.RangeCoversShown ⟨⟨0, 0⟩, ⟨10, 25⟩⟩ false
      ⟨0, -5⟩ ↔
    (paddedItems.OverlapsHorizontally ⟨⟨0, 0⟩, ⟨10, 25⟩⟩ ⟨0, -5⟩ →
      ∀ position < paddedItems.itemCount,
        ¬paddedItems.BeginsInBottomPadding ⟨⟨0, 0⟩, ⟨10, 25⟩⟩ ⟨0, -5⟩ position) ∧
    (usizeMax ≤ paddedItems.itemCount ∨
      -((⟨0, -5⟩ : Point ℚ).y + paddedItems.padding.top) <
        paddedItems.itemHeight * (paddedItems.itemCount + 1)) :=
  rangeCoversShown_iff (by decide +kernel) false

end Lucie.UniformList
