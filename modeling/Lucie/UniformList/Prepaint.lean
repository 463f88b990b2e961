import Lucie.Geometry.Bounds
import Mathlib.Data.Rat.Floor
import Mathlib.Tactic.Linarith
import Mathlib.Tactic.Ring

/-!
# The prepaint of a uniform list

All items of a uniform list have the height of the one that is measured. The prepaint brings
the scroll offset into its range, applies the scroll to an item that was requested since the
last frame, and renders the items from the first to the last visible position.
-/

set_option autoImplicit false

namespace Lucie

/-- `usize::MAX`. -/
def usizeMax : ℕ := 2 ^ 64 - 1

namespace UniformList

/-- Border widths or paddings, of `Edges`. -/
structure Edges where
  top : ℚ
  right : ℚ
  bottom : ℚ
  left : ℚ
  top_nonneg : 0 ≤ top
  right_nonneg : 0 ≤ right
  bottom_nonneg : 0 ≤ bottom
  left_nonneg : 0 ≤ left

instance : DecidableEq Edges := fun a b =>
  decidable_of_iff (a.top = b.top ∧ a.right = b.right ∧ a.bottom = b.bottom ∧ a.left = b.left) <| by
    cases a
    cases b
    simp

/-- `ScrollStrategy`. -/
inductive ScrollStrategy
  | top
  | center
  | bottom
  | nearest
  deriving DecidableEq

/-- `DeferredScrollToItem`. -/
structure DeferredScrollToItem where
  itemIndex : ℕ
  strategy : ScrollStrategy
  offset : ℕ
  scrollStrict : Bool
  deriving DecidableEq

/-- `ItemSize`. -/
structure ItemSize where
  item : Size ℚ
  contents : Size ℚ
  deriving DecidableEq

/-- `UniformListScrollState`, of whose base handle there are the offset, which the list shares
with it, and whether it was asked to scroll to the bottom. A list without a handle is not
flipped and nothing asks it to scroll to an item. -/
structure UniformListScrollState where
  scrollOffset : Point ℚ
  scrollToBottom : Bool
  deferredScrollToItem : Option DeferredScrollToItem
  lastItemSize : Option ItemSize
  yFlipped : Bool
  deriving DecidableEq

namespace UniformListScrollState

/-- The common part of `scroll_to_item` and its variants. -/
def deferScroll (s : UniformListScrollState) (ix : ℕ) (strategy : ScrollStrategy) (offset : ℕ)
    (strict : Bool) : UniformListScrollState :=
  { s with deferredScrollToItem := some ⟨ix, strategy, offset, strict⟩ }

/-- `UniformListScrollHandle::scroll_to_item`. -/
def scrollToItem (s : UniformListScrollState) (ix : ℕ) (strategy : ScrollStrategy) :=
  s.deferScroll ix strategy 0 false

/-- `UniformListScrollHandle::scroll_to_item_strict`. -/
def scrollToItemStrict (s : UniformListScrollState) (ix : ℕ) (strategy : ScrollStrategy) :=
  s.deferScroll ix strategy 0 true

/-- `UniformListScrollHandle::scroll_to_item_with_offset`. -/
def scrollToItemWithOffset (s : UniformListScrollState) (ix : ℕ) (strategy : ScrollStrategy)
    (offset : ℕ) :=
  s.deferScroll ix strategy offset false

/-- `UniformListScrollHandle::scroll_to_item_strict_with_offset`. -/
def scrollToItemStrictWithOffset (s : UniformListScrollState) (ix : ℕ)
    (strategy : ScrollStrategy) (offset : ℕ) :=
  s.deferScroll ix strategy offset true

/-- `UniformListScrollHandle::scroll_to_bottom`. -/
def scrollToEnd (s : UniformListScrollState) := s.scrollToItem usizeMax .bottom

end UniformListScrollState

end UniformList

open UniformList

/-- `UniformList`, as far as its prepaint reads it, with the size of the measured item. -/
structure UniformList where
  itemCount : ℕ
  itemCount_le : itemCount ≤ usizeMax
  measured : Size ℚ
  measured_nonneg : 0 ≤ measured.height
  border : Edges
  padding : Edges
  canScrollHorizontally : Bool
  deriving DecidableEq

namespace UniformList

variable (l : UniformList) (bounds : Bounds ℚ)

/-- `UniformList::measure_item`. -/
def measureItem : Size ℚ := if l.itemCount = 0 then ⟨0, 0⟩ else l.measured

/-- The height of every item. -/
def itemHeight : ℚ := l.measureItem.height

/-- The bounds within the border and the padding. -/
def paddedBounds : Bounds ℚ :=
  .fromCorners
    ⟨bounds.origin.x + (l.border.left + l.padding.left),
      bounds.origin.y + (l.border.top + l.padding.top)⟩
    ⟨bounds.bottomRight.x - (l.border.right + l.padding.right),
      bounds.bottomRight.y - (l.border.bottom + l.padding.bottom)⟩

/-- The height between the paddings, the viewport of the scroll offset. -/
def listHeight : ℚ := (l.paddedBounds bounds).size.height

def contentHeight : ℚ := l.itemHeight * l.itemCount

/-- The size of the content for the scroll offset. -/
def contentSize : Size ℚ :=
  let paddedWidth := (l.paddedBounds bounds).size.width
  ⟨if l.canScrollHorizontally then max paddedWidth l.measureItem.width else paddedWidth,
    l.contentHeight⟩

/-- `round_to_two_decimals`; half a unit is rounded away from zero. -/
def roundToTwoDecimals (x : ℚ) : ℚ :=
  (if 0 ≤ x then (⌊x * 100 + 1 / 2⌋ : ℚ) else -⌊-(x * 100) + 1 / 2⌋) / 100

/-- The range of the scroll offset in `clamp_scroll_position`. -/
def scrollMax : Size ℚ :=
  let content := l.contentSize bounds
  ⟨max (roundToTwoDecimals
      (content.width + (l.padding.left + l.padding.right) - bounds.size.width)) 0,
    max (roundToTwoDecimals
      (content.height + (l.padding.top + l.padding.bottom) - bounds.size.height)) 0⟩

/-- `clamp` of `f32`. -/
def clamp (x lo hi : ℚ) : ℚ := min (max x lo) hi

/-- `Interactivity::clamp_scroll_position`. -/
def clampScrollPosition (s : UniformListScrollState) : UniformListScrollState :=
  let scrollMax := l.scrollMax bounds
  { s with
    scrollOffset :=
      ⟨clamp s.scrollOffset.x (-scrollMax.width) 0,
        if s.scrollToBottom then -scrollMax.height
        else clamp s.scrollOffset.y (-scrollMax.height) 0⟩
    scrollToBottom := false }

/-- The scroll offset that prepaint corrects before it scrolls to an item. -/
def correctScrollOffset (offset : Point ℚ) : Point ℚ :=
  let maxScrollOffset := l.listHeight bounds - l.contentHeight
  let contentWidth := (l.contentSize bounds).width + l.padding.left + l.padding.right
  ⟨if (l.canScrollHorizontally ∧ offset.x ≠ 0) ∧
      contentWidth ≤ (l.paddedBounds bounds).size.width then 0 else offset.x,
    if offset.y ≠ 0 ∧ offset.y < maxScrollOffset then maxScrollOffset else offset.y⟩

/-- The position of an item from the top; `none` is the overflow of `item_index + 1`. -/
def positionOf (yFlipped : Bool) (itemIndex : ℕ) : Option ℕ :=
  if yFlipped then
    if itemIndex + 1 ≤ usizeMax then some (l.itemCount - (itemIndex + 1)) else none
  else some itemIndex

/-- The strategy `Nearest` becomes `Top` or `Bottom` if the item is not visible. -/
def ScrollStrategy.resolve (strategy : ScrollStrategy) (isAbove isBelow : Bool) :
    ScrollStrategy :=
  if strategy = .nearest then
    if isAbove then .top else if isBelow then .bottom else .nearest
  else strategy

/-- Where a strategy puts the top of the viewport, before it is clamped. -/
def targetScrollTop (itemTop offsetPixels : ℚ) : ScrollStrategy → Option ℚ
  | .top => some (itemTop - offsetPixels)
  | .center =>
    let itemCenter := itemTop + l.itemHeight / 2
    let viewportHeight := l.listHeight bounds - offsetPixels
    let viewportCenter := offsetPixels + viewportHeight / 2
    some (itemCenter - viewportCenter)
  | .bottom =>
    let itemBottom := itemTop + l.itemHeight
    some (itemBottom - l.listHeight bounds)
  | .nearest => none

/-- The vertical offset after a requested scroll to the item at a position. -/
def scrollToPosition (y : ℚ) (deferred : DeferredScrollToItem) (position : ℕ) : ℚ :=
  let listHeight := l.listHeight bounds
  let itemTop := l.itemHeight * position
  let itemBottom := itemTop + l.itemHeight
  let scrollTop := -y
  let offsetPixels := l.itemHeight * deferred.offset
  let isAbove : Bool := itemTop < scrollTop + offsetPixels
  let isBelow : Bool := itemBottom > scrollTop + listHeight
  if deferred.scrollStrict || isAbove || isBelow then
    let maxScrollOffset := max (l.contentHeight - listHeight) 0
    let strategy := deferred.strategy.resolve isAbove isBelow
    match l.targetScrollTop bounds itemTop offsetPixels strategy with
    | some target => -clamp target 0 maxScrollOffset
    | none => y
  else y

/-- The vertical offset after the deferred scroll, if there is one. -/
def applyDeferred (yFlipped : Bool) (y : ℚ) : Option DeferredScrollToItem → Option ℚ
  | none => some y
  | some deferred => do
    let position ← l.positionOf yFlipped deferred.itemIndex
    some (l.scrollToPosition bounds y deferred position)

/-- A quotient of pixels; `none` is infinite or undefined. -/
def quotient (x : ℚ) : Option ℚ := if l.itemHeight = 0 then none else some (x / l.itemHeight)

/-- A rounded quotient `as usize`. -/
def asUsize (x : ℚ) (round : ℚ → ℤ) : ℕ :=
  match l.quotient x with
  | none => if 0 < x then usizeMax else 0
  | some q => min (round q).toNat usizeMax

/-- The positions from the first to the last visible one. -/
def visibleRange (offset : Point ℚ) : ℕ × ℕ :=
  (l.asUsize (-(offset.y + l.padding.top)) Int.floor,
    min (l.asUsize (-offset.y + l.listHeight bounds) Int.ceil) l.itemCount)

/-- The items that are rendered for a range of positions. -/
def renderedRange (yFlipped : Bool) (range : ℕ × ℕ) : ℕ × ℕ :=
  if yFlipped then (l.itemCount - range.2, l.itemCount - range.1) else range

/-- Where the item at a position is placed. -/
def placedBounds (offset : Point ℚ) (position : ℕ) : Bounds ℚ :=
  let padded := l.paddedBounds bounds
  ⟨⟨padded.origin.x + offset.x, padded.origin.y + offset.y + l.itemHeight * position⟩,
    ⟨if l.canScrollHorizontally then padded.size.width + |offset.x| else padded.size.width,
      l.itemHeight⟩⟩

/-- What prepaint leaves: the visible range and the placed items. -/
structure PrepaintState where
  visibleRange : ℕ × ℕ
  renderedRange : ℕ × ℕ
  items : List (ℕ × Bounds ℚ)
  deriving DecidableEq

/-- `UniformList::prepaint`; `none` is an overflow, and the rendered elements are given by the
indices of their items. -/
def prepaint (s : UniformListScrollState) :
    Option (UniformListScrollState × Option PrepaintState) := do
  let deferred := s.deferredScrollToItem
  let lastItemSize := some ⟨(l.paddedBounds bounds).size, l.contentSize bounds⟩
  let s := l.clampScrollPosition bounds { s with lastItemSize, deferredScrollToItem := none }
  if l.itemCount = 0 then some (s, none)
  else
    let offset := l.correctScrollOffset bounds s.scrollOffset
    let y ← l.applyDeferred bounds s.yFlipped offset.y deferred
    let offset := { offset with y }
    let visible := l.visibleRange bounds offset
    let rendered := l.renderedRange s.yFlipped visible
    let items := List.range' rendered.1 (rendered.2 - rendered.1)
    let items := if s.yFlipped then items.reverse else items
    let positions := List.range' visible.1 (visible.2 - visible.1)
    let placed := positions.map (l.placedBounds bounds offset)
    some ({ s with scrollOffset := offset }, some ⟨visible, rendered, items.zip placed⟩)

end UniformList

end Lucie
