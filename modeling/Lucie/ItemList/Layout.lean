import Lucie.ItemList.State
import Lucie.Foundation.Run

/-!
# The layout of a list element

A layout renders the items from the scroll position down to the end of the viewport. If they
do not fill it, the position moves up. The items that were rendered or measured replace the
old ones. A fraction that `remeasure` left behind is applied when the top item is rendered.
-/

set_option autoImplicit false

namespace Lucie.ItemList

variable {F : Type}

/-- What a layout learns from the rendered elements of the items. -/
structure Elements (F : Type) where
  /-- `layout_as_root` of a rendered item in an available width. -/
  size : Option ℚ → ℕ → ItemSize
  /-- `FocusHandle::contains_focused`. -/
  containsFocused : F → Bool
  /-- The top and the bottom of what the prepaint of an item at some height scrolls to. -/
  autoscroll : ℕ → ℚ → Option (ℚ × ℚ)

/-- `ListItem::contains_focused`. -/
def ListItem.containsFocused (elements : Elements F) (item : ListItem F) : Bool :=
  item.focusHandle.any elements.containsFocused

/-- `ItemLayout`, without the element. -/
structure ItemLayout where
  index : ℕ
  size : ItemSize
  deriving DecidableEq

/-- `LayoutItemsResponse`. -/
structure LayoutItemsResponse where
  maxItemWidth : ℚ
  scrollTop : ListOffset
  itemLayouts : List ItemLayout
  deriving DecidableEq

/-- The variables of `layout_items` and the fields that it writes. -/
structure LayoutPass (F : Type) where
  measuredItems : List (ListItem F)
  itemLayouts : List ItemLayout
  renderedHeight : ℚ
  maxItemWidth : ℚ
  scrollTop : ListOffset
  renderedFocusedItem : Bool
  logicalScrollTop : Option ListOffset
  pendingScroll : Option PendingScrollFraction

namespace LayoutPass

/-- Measure the next item below. -/
def pushMeasured (p : LayoutPass F) (size : ItemSize) (item : ListItem F) : LayoutPass F :=
  { p with
    renderedHeight := p.renderedHeight + size.height
    maxItemWidth := max p.maxItemWidth size.width
    measuredItems := p.measuredItems ++ [.measured size item.focusHandle] }

/-- Apply a pending fraction to the height of the top item. -/
def applyPending (p : LayoutPass F) (height : ℚ) : LayoutPass F :=
  match p.pendingScroll with
  | none => p
  | some pending =>
    if pending.itemIx = p.scrollTop.itemIx then
      let scrollTop := { p.scrollTop with offsetInItem := pending.fraction * height }
      { p with scrollTop, logicalScrollTop := some scrollTop, pendingScroll := none }
    else { p with pendingScroll := none }

variable (elements : Elements F) (width : Option ℚ) (availableHeight overdraw : ℚ)

/-- Render and measure an item, and lay it out if it begins in the viewport. -/
def render (p : LayoutPass F) (ix : ℕ) (item : ListItem F) : LayoutPass F :=
  let visibleHeight := p.renderedHeight - p.scrollTop.offsetInItem
  let itemIndex := p.scrollTop.itemIx + ix
  let size := elements.size width itemIndex
  let p := if ix = 0 then p.applyPending size.height else p
  let p :=
    if visibleHeight < availableHeight then
      { p with
        itemLayouts := p.itemLayouts ++ [⟨itemIndex, size⟩]
        renderedFocusedItem := p.renderedFocusedItem || item.containsFocused elements }
    else p
  p.pushMeasured size item

/-- An item below the top is rendered if it begins in the viewport or has no size. -/
def layoutItem (p : LayoutPass F) (ix : ℕ) (item : ListItem F) : LayoutPass F :=
  match item.size with
  | none => p.render elements width availableHeight ix item
  | some size =>
    if p.renderedHeight - p.scrollTop.offsetInItem < availableHeight then
      p.render elements width availableHeight ix item
    else p.pushMeasured size item

/-- The items from the scroll top on, down to the end of the trailing overdraw. -/
def layoutBelow : List (ListItem F) → ℕ → LayoutPass F → LayoutPass F
  | [], _, p => p
  | item :: items, ix, p =>
    if p.renderedHeight - p.scrollTop.offsetInItem ≥ availableHeight + overdraw then p
    else layoutBelow items (ix + 1) (p.layoutItem elements width availableHeight ix item)

/-- Render an item above the scroll top. -/
def renderAbove (p : LayoutPass F) (ix : ℕ) (item : ListItem F) : LayoutPass F :=
  let size := elements.size width ix
  { p with
    renderedHeight := p.renderedHeight + size.height
    measuredItems := .measured size item.focusHandle :: p.measuredItems
    itemLayouts := ⟨ix, size⟩ :: p.itemLayouts
    renderedFocusedItem := p.renderedFocusedItem || item.containsFocused elements }

/-- The walk upward that fills the viewport; the items before the cursor are given last
first, and what is left of them tells where the cursor stops. -/
def layoutAbove : List (ListItem F) → LayoutPass F → List (ListItem F) × LayoutPass F
  | [], p => ([], p)
  | item :: before, p =>
    if p.renderedHeight < availableHeight then
      layoutAbove before (p.renderAbove elements width before.length item)
    else (item :: before, p)

/-- The scroll top after the walk upward. -/
def adjustScrollTop (p : LayoutPass F) (alignment : ListAlignment) (itemIx : ℕ) : LayoutPass F :=
  let offset := p.renderedHeight - availableHeight
  match alignment with
  | .top =>
    let scrollTop := ⟨itemIx, max offset 0⟩
    { p with scrollTop, logicalScrollTop := some scrollTop }
  | .bottom => { p with scrollTop := ⟨itemIx, offset⟩, logicalScrollTop := none }

/-- If the rendered items do not fill the viewport, the scroll top moves upward. -/
def fill (alignment : ListAlignment) (before : List (ListItem F)) (p : LayoutPass F) :
    List (ListItem F) × LayoutPass F :=
  if p.renderedHeight - p.scrollTop.offsetInItem < availableHeight then
    let (before, p) := layoutAbove elements width availableHeight before p
    (before, p.adjustScrollTop availableHeight alignment before.length)
  else (before, p)

/-- The items in the leading overdraw. -/
def measureAbove : List (ListItem F) → ℚ → List (ListItem F) →
    List (ListItem F) × List (ListItem F)
  | [], _, measured => ([], measured)
  | item :: before, leading, measured =>
    if leading < overdraw then
      let size := item.size.getD (elements.size width before.length)
      measureAbove before (leading + size.height) (.measured size item.focusHandle :: measured)
    else (item :: before, measured)

end LayoutPass

namespace StateInner

variable (elements : Elements F)

/-- `StateInner::layout_all_items`. -/
def layoutAllItems (s : StateInner F) (availableWidth : ℚ) : StateInner F :=
  match s.measuringBehavior with
  | .measure false =>
    { s with
      measuringBehavior := .measure true
      items := s.items.mapIdx fun ix item =>
        .measured (item.size.getD (elements.size (some availableWidth) ix)) item.focusHandle }
  | _ => s

/-- The state of `layout_items` at the scroll top, before it renders. -/
def startPass (s : StateInner F) (padding : Edges) : LayoutPass F :=
  ⟨[], [], padding.top, 0, s.scrollTop, false, s.logicalScrollTop, s.pendingScroll⟩

/-- The first loop of `layout_items`. -/
def topPass (s : StateInner F) (width : Option ℚ) (availableHeight : ℚ) (padding : Edges) :
    LayoutPass F :=
  let p := LayoutPass.layoutBelow elements width availableHeight s.overdraw
    (s.items.drop s.scrollTop.itemIx) 0 (s.startPass padding)
  { p with renderedHeight := p.renderedHeight + padding.bottom }

/-- `StateInner::layout_items`. -/
def layoutItems (s : StateInner F) (width : Option ℚ) (availableHeight : ℚ) (padding : Edges) :
    StateInner F × LayoutItemsResponse :=
  let above := (s.items.take s.scrollTop.itemIx).reverse
  let (above, p) := LayoutPass.fill elements width availableHeight s.alignment above
    (s.topPass elements width availableHeight padding)
  let (above, measured) := LayoutPass.measureAbove elements width s.overdraw above
    p.scrollTop.offsetInItem p.measuredItems
  let items := s.items.take above.length ++ measured ++
    s.items.drop (above.length + measured.length)
  -- a focused item that is not visible is rendered after the visible ones
  let focused := (items.findIdx? (ListItem.containsFocused elements)).map fun ix =>
    ItemLayout.mk ix (elements.size width ix)
  let itemLayouts :=
    if p.renderedFocusedItem then p.itemLayouts else p.itemLayouts ++ focused.toList
  ({ s with items, logicalScrollTop := p.logicalScrollTop, pendingScroll := p.pendingScroll },
    ⟨p.maxItemWidth, p.scrollTop, itemLayouts⟩)

/-- The walk upward from an item that an autoscroll reveals below the viewport. -/
def autoscrollAbove (width : ℚ) : List (ListItem F) → ℚ → ListOffset
  | [], height => ⟨0, if height < 0 then -height else 0⟩
  | item :: before, height =>
    if height > 0 then
      let size := item.size.getD (elements.size (some width) before.length)
      autoscrollAbove width before (height - size.height)
    else ⟨before.length + 1, if height < 0 then -height else 0⟩

/-- The loop of `prepaint_items`: the position that the first autoscroll asks for. -/
def autoscrollRequest (items : List (ListItem F)) (bounds : Bounds ℚ) (padding : Edges) :
    List ItemLayout → ℚ → Option ListOffset
  | [], _ => none
  | item :: layouts, y =>
    match elements.autoscroll item.index y with
    | none => autoscrollRequest items bounds padding layouts (y + item.size.height)
    | some (top, bottom) =>
      if top < bounds.origin.y then some ⟨item.index, top - y⟩
      else if bottom > bounds.bottomRight.y then
        some (autoscrollAbove elements bounds.size.width (items.take item.index).reverse
          (bounds.size.height - padding.top - padding.bottom - (bottom - y)))
      else autoscrollRequest items bounds padding layouts (y + item.size.height)

/-- `StateInner::prepaint_items`. -/
def prepaintItems (s : StateInner F) (bounds : Bounds ℚ) (padding : Edges) (autoscroll : Bool) :
    StateInner F × Except ListOffset LayoutItemsResponse :=
  let s := s.layoutAllItems elements bounds.size.width
  let (s, layout) := s.layoutItems elements (some bounds.size.width) bounds.size.height padding
  if bounds.size.height > padding.top + padding.bottom then
    let y := bounds.origin.y + padding.top - layout.scrollTop.offsetInItem
    let request :=
      if autoscroll then autoscrollRequest elements s.items bounds padding layout.itemLayouts y
      else none
    (s, request.elim (.ok layout) .error)
  else (s, .ok { layout with itemLayouts := [] })

/-- What the prepaint of a list does before it lays the items out: if the width has changed,
the measurements are dropped. -/
def beginPrepaint (s : StateInner F) (bounds : Bounds ℚ) : StateInner F :=
  let s := { s with reset := false }
  if s.lastLayoutBounds.all (·.size.width ≠ bounds.size.width) then
    { s with items := unmeasuredItems s.items }
  else s

/-- `List::prepaint`; `none` is the panic of the second `unwrap`. -/
def prepaint (s : StateInner F) (bounds : Bounds ℚ) (padding : Edges) :
    Option (StateInner F × LayoutItemsResponse) := do
  let (s, layout) ←
    match (s.beginPrepaint bounds).prepaintItems elements bounds padding true with
    | (s, .ok layout) => some (s, layout)
    | (s, .error position) =>
      match { s with logicalScrollTop := some position }.prepaintItems elements bounds padding
        false with
      | (s, .ok layout) => some (s, layout)
      | (_, .error _) => none
  some ({ s with lastLayoutBounds := some bounds, lastPadding := some padding }, layout)

/-- `List::request_layout` of a list that infers its size. -/
def requestLayout (s : StateInner F) (padding : Edges) : StateInner F × LayoutItemsResponse :=
  s.layoutItems elements none (s.lastLayoutBounds.elim s.overdraw (·.size.height)) padding

/-- The second prepaint of the items never fails. -/
theorem prepaintItems_isOk (s : StateInner F) (bounds : Bounds ℚ) (padding : Edges) :
    (s.prepaintItems elements bounds padding false).2.isOk = true := by
  by_cases hspace : bounds.size.height > padding.top + padding.bottom
  · simp [prepaintItems, hspace, Except.isOk, Except.toBool]
  · simp [prepaintItems, hspace, Except.isOk, Except.toBool]

theorem prepaint_isSome (s : StateInner F) (bounds : Bounds ℚ) (padding : Edges) :
    (s.prepaint elements bounds padding).isSome = true := by
  unfold prepaint
  rcases (s.beginPrepaint bounds).prepaintItems elements bounds padding true with
    ⟨first, position | layout⟩
  · have hok := prepaintItems_isOk elements { first with logicalScrollTop := some position }
      bounds padding
    rcases hsecond : { first with logicalScrollTop := some position }.prepaintItems elements
      bounds padding false with ⟨second, position | layout⟩
    · rw [hsecond] at hok
      cases hok
    · simp [hsecond]
  · rfl

end StateInner

end Lucie.ItemList
