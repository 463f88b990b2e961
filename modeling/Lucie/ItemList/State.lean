import Lucie.ItemList.Items
import Lucie.Geometry.Bounds

/-!
# The state of a list element

A list remembers its items and a scroll position: the top item and an offset in it. Calls
between two layouts replace items and move the position; a layout measures the items from
the position on and adjusts the position when the items do not fill the viewport.
-/

set_option autoImplicit false

namespace Lucie.ItemList

variable {F : Type}

/-- `ListOffset`. -/
@[ext] structure ListOffset where
  itemIx : ℕ
  offsetInItem : ℚ
  deriving DecidableEq

/-- `ListAlignment`. -/
inductive ListAlignment
  | top
  | bottom
  deriving DecidableEq

/-- `ListMeasuringBehavior`. -/
inductive ListMeasuringBehavior
  | measure (hasMeasured : Bool)
  | visible
  deriving DecidableEq

/-- `ListMeasuringBehavior::reset`. -/
def ListMeasuringBehavior.reset : ListMeasuringBehavior → ListMeasuringBehavior
  | measure _ => measure false
  | visible => visible

/-- `PendingScrollFraction`. -/
structure PendingScrollFraction where
  itemIx : ℕ
  fraction : ℚ
  deriving DecidableEq

/-- The paddings above and below the items, of `Edges`. -/
structure Edges where
  top : ℚ
  bottom : ℚ
  deriving DecidableEq

/-- `StateInner`; of the scroll handler, whether there is one. -/
structure StateInner (F : Type) where
  lastLayoutBounds : Option (Bounds ℚ)
  lastPadding : Option Edges
  items : List (ListItem F)
  logicalScrollTop : Option ListOffset
  alignment : ListAlignment
  overdraw : ℚ
  reset : Bool
  hasScrollHandler : Bool
  scrollbarDragStartHeight : Option ℚ
  measuringBehavior : ListMeasuringBehavior
  pendingScroll : Option PendingScrollFraction
  deriving DecidableEq

/-- `ListScrollEvent`; the visible range is given by its start and its end. -/
structure ListScrollEvent where
  visibleStart : ℕ
  visibleEnd : ℕ
  count : ℕ
  isScrolled : Bool
  deriving DecidableEq

namespace StateInner

/-- `StateInner::logical_scroll_top`. -/
def scrollTop (s : StateInner F) : ListOffset :=
  s.logicalScrollTop.getD <|
    match s.alignment with
    | .top => ⟨0, 0⟩
    | .bottom => ⟨s.items.length, 0⟩

/-- `StateInner::scroll_top`: the offset of a position from the top of the items. -/
def absolute (s : StateInner F) (position : ListOffset) : ℚ :=
  (find s.items (countTarget position.itemIx) .right).height + position.offsetInItem

/-- The viewport height of the last layout. -/
def viewportHeight (s : StateInner F) : ℚ := s.lastLayoutBounds.elim 0 (·.size.height)

/-- The padding of the last layout. -/
def padding (s : StateInner F) : Edges := s.lastPadding.getD ⟨0, 0⟩

/-! ## Calls between layouts -/

/-- `ListState::splice_focusable`: the items of a range are replaced by new ones. -/
def spliceFocusable (s : StateInner F) (start stop : ℕ) (focusHandles : List (Option F)) :
    Option (StateInner F) := do
  let first ← seek s.items (countTarget start) .right
  let last ← seekFrom s.items (countTarget stop) .right first
  let position := s.logicalScrollTop.map fun position =>
    if start ≤ position.itemIx ∧ position.itemIx < stop then ⟨start, 0⟩
    else if stop ≤ position.itemIx then
      { position with itemIx := position.itemIx - (stop - start) + focusHandles.length }
    else position
  some { s with
    items := s.items.take first ++ focusHandles.map .unmeasured ++ s.items.drop last
    logicalScrollTop := position }

/-- `ListState::splice`. -/
def splice (s : StateInner F) (start stop count : ℕ) : Option (StateInner F) :=
  s.spliceFocusable start stop (List.replicate count none)

/-- `ListState::new`. -/
def new (itemCount : ℕ) (alignment : ListAlignment) (overdraw : ℚ) : Option (StateInner F) :=
  splice ⟨none, none, [], none, alignment, overdraw, false, false, none, .visible, none⟩ 0 0
    itemCount

/-- `ListState::measure_all`. -/
def measureAll (s : StateInner F) : StateInner F := { s with measuringBehavior := .measure false }

/-- `ListState::set_scroll_handler`. -/
def setScrollHandler (s : StateInner F) : StateInner F := { s with hasScrollHandler := true }

/-- `ListState::reset`. -/
def resetItems (s : StateInner F) (elementCount : ℕ) : Option (StateInner F) :=
  { s with
    reset := true
    measuringBehavior := s.measuringBehavior.reset
    logicalScrollTop := none
    scrollbarDragStartHeight := none }.splice 0 s.items.length elementCount

/-- The fraction of the top item that `remeasure` remembers, if the item is measured. -/
def topFraction (s : StateInner F) : Option PendingScrollFraction := do
  let position ← s.logicalScrollTop
  let index ← seek s.items (countTarget position.itemIx) .right
  let item ← s.items[index]?
  let size ← item.size
  some ⟨position.itemIx,
    if size.height > 0 then max 0 (min (position.offsetInItem / size.height) 1) else 0⟩

/-- All items without their measurements. -/
def unmeasuredItems (items : List (ListItem F)) : List (ListItem F) :=
  items.map fun item => .unmeasured item.focusHandle

/-- `ListState::remeasure`. -/
def remeasure (s : StateInner F) : StateInner F :=
  { s with
    items := unmeasuredItems s.items
    measuringBehavior := s.measuringBehavior.reset
    pendingScroll := s.topFraction.or s.pendingScroll }

/-- `ListState::scroll_by`. -/
def scrollBy (s : StateInner F) (distance : ℚ) : Option (StateInner F) :=
  if distance = 0 then some s
  else do
    let current := s.scrollTop
    let index ← seek s.items (countTarget current.itemIx) .right
    let startPixelOffset := (startAt s.items index).height + current.offsetInItem
    let newPixelOffset := max (startPixelOffset + distance) 0
    let index ←
      if newPixelOffset > startPixelOffset then
        seekFrom s.items (heightTarget newPixelOffset) .right index
      else seek s.items (heightTarget newPixelOffset) .right
    let start := startAt s.items index
    some { s with logicalScrollTop := some ⟨start.count, newPixelOffset - start.height⟩ }

/-- `ListState::scroll_to`. -/
def scrollTo (s : StateInner F) (position : ListOffset) : StateInner F :=
  let position := if position.itemIx ≥ s.items.length then ⟨s.items.length, 0⟩ else position
  { s with logicalScrollTop := some position }

/-- The goal of `scroll_to_reveal_item` below the top item: the offset at which the end of the
item is at the end of the viewport. -/
def goalTop (s : StateInner F) (ix : ℕ) : ℚ :=
  max 0 (top s.items (ix + 1) + s.padding.top - s.viewportHeight + s.padding.bottom)

/-- `ListState::scroll_to_reveal_item`. -/
def scrollToRevealItem (s : StateInner F) (ix : ℕ) : Option (StateInner F) :=
  let position := s.scrollTop
  if ix ≤ position.itemIx then some { s with logicalScrollTop := some ⟨ix, 0⟩ }
  else do
    let index ← seek s.items (countTarget (ix + 1)) .right
    let bottom := (startAt s.items index).height + s.padding.top
    let goalTop := max 0 (bottom - s.viewportHeight + s.padding.bottom)
    let index ← seek s.items (heightTarget goalTop) .left
    let startIx := (startAt s.items index).count
    let startItemTop := (startAt s.items index).height
    let position :=
      if startIx ≥ position.itemIx then ⟨startIx, goalTop - startItemTop⟩ else position
    some { s with logicalScrollTop := some position }

/-- `ListState::scrollbar_drag_started`. -/
def scrollbarDragStarted (s : StateInner F) : StateInner F :=
  { s with scrollbarDragStartHeight := some (contentHeight s.items) }

/-- `ListState::scrollbar_drag_ended`. -/
def scrollbarDragEnded (s : StateInner F) : StateInner F :=
  { s with scrollbarDragStartHeight := none }

/-- The last offset to which the items can be scrolled in a viewport. -/
def scrollMax (s : StateInner F) (height : ℚ) : ℚ :=
  max (contentHeight s.items + s.padding.top + s.padding.bottom - height) 0

/-- Scroll to an offset; the end of a list that is aligned to the bottom is no position. -/
def scrollToOffset (s : StateInner F) (height offset : ℚ) : StateInner F :=
  if s.alignment = .bottom ∧ offset = s.scrollMax height then { s with logicalScrollTop := none }
  else
    let start := find s.items (heightTarget offset) .right
    { s with logicalScrollTop := some ⟨start.count, offset - start.height⟩ }

/-- `StateInner::set_offset_from_scrollbar`. -/
def setOffsetFromScrollbar (s : StateInner F) (y : ℚ) : StateInner F :=
  match s.lastLayoutBounds with
  | none => s
  | some bounds =>
    let height := bounds.size.height
    let contentHeight := contentHeight s.items
    let dragOffset := contentHeight - s.scrollbarDragStartHeight.getD contentHeight
    s.scrollToOffset height (min (max |y - dragOffset| 0) (s.scrollMax height))

/-- `StateInner::visible_range`; `none` is the panic of seeking backward. -/
def visibleRange (items : List (ListItem F)) (height : ℚ) (position : ListOffset) :
    Option (ℕ × ℕ) := do
  let index ← seek items (countTarget position.itemIx) .right
  let startY := (startAt items index).height + position.offsetInItem
  let index ← seekFrom items (heightTarget (startY + height)) .left index
  some (position.itemIx, (startAt items index).count + 1)

/-- The offset to which a scroll by `deltaY` leads. -/
def scrolledOffset (s : StateInner F) (position : ListOffset) (height deltaY : ℚ) : ℚ :=
  min (max (s.absolute position - deltaY) 0) (s.scrollMax height)

/-- `StateInner::scroll`, with the event for the scroll handler. -/
def scroll (s : StateInner F) (position : ListOffset) (height deltaY : ℚ) :
    Option (StateInner F × Option ListScrollEvent) :=
  if s.reset then some (s, none)
  else
    let s := s.scrollToOffset height (s.scrolledOffset position height deltaY)
    if s.hasScrollHandler then do
      let (visibleStart, visibleEnd) ← visibleRange s.items height position
      some (s, some ⟨visibleStart, visibleEnd, s.items.length, s.logicalScrollTop.isSome⟩)
    else some (s, none)

/-! ## Absolute offsets -/

theorem absolute_eq (s : StateInner F) (position : ListOffset) :
    s.absolute position = top s.items position.itemIx + position.offsetInItem := by
  rw [absolute, find, leading_countTarget, startAt_height, top_min_length]

/-- A position with an offset in its item; the end of the items is a position too. -/
structure Canonical (items : List (ListItem F)) (position : ListOffset) : Prop where
  inRange : position.itemIx ≤ items.length
  nonneg : 0 ≤ position.offsetInItem
  before_next : position.itemIx < items.length →
    top items position.itemIx + position.offsetInItem < top items (position.itemIx + 1)

/-- The position that a seek to an offset finds. -/
def positionOf (items : List (ListItem F)) (offset : ℚ) : ListOffset :=
  let index := (heightTarget offset).leading .right items
  ⟨index, offset - top items index⟩

theorem canonical_positionOf (items : List (ListItem F)) {offset : ℚ} (hoffset : 0 ≤ offset) :
    Canonical items (positionOf items offset) := by
  obtain ⟨hbegin, hend⟩ := leading_height_right items hoffset
  constructor
  · exact SeekTarget.leading_le _ _ _
  · exact sub_nonneg.mpr hbegin
  · intro hlt
    rw [positionOf, add_sub_cancel]
    exact hend hlt

@[simp] theorem absolute_positionOf (items : List (ListItem F)) (offset : ℚ) :
    top items (positionOf items offset).itemIx + (positionOf items offset).offsetInItem =
      offset := add_sub_cancel _ _

end StateInner

end Lucie.ItemList
