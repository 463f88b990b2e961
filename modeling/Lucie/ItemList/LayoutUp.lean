import Lucie.ItemList.LayoutDown

/-!
# The way up of a layout

If the items from the scroll top on do not fill the viewport, a layout goes up until they do, and
then it measures the items above. What it has measured replaces the items in between.
-/

set_option autoImplicit false

namespace Lucie.ItemList

variable {F : Type}

/-! ## Up to fill the viewport -/

namespace LayoutPass

variable {items : List (ListItem F)} {start : ℕ} {space : ℚ} {p : LayoutPass F}

/-- The items before an index, the last one first. -/
theorem reverse_take_succ {item : ListItem F} {index : ℕ} (hitem : items[index]? = some item) :
    (items.take (index + 1)).reverse = item :: (items.take index).reverse := by
  rw [List.take_add_one, hitem, List.reverse_append]
  rfl

theorem length_reverse_take {index : ℕ} (hindex : index ≤ items.length) :
    (items.take index).reverse.length = index := by
  rw [List.length_reverse, List.length_take, Nat.min_eq_left hindex]

/-- A pass goes up to the item at `first`, to fill the viewport or to reach the first item. -/
structure GoesUp (elements : Elements F) (width : Option ℚ) (availableHeight : ℚ)
    (items : List (ListItem F)) (first start : ℕ) (p q : LayoutPass F) : Prop where
  le : first ≤ start
  layouts : q.itemLayouts = layoutsOf elements width first (start - first) ++ p.itemLayouts
  focused : q.renderedFocusedItem = true ↔
    p.renderedFocusedItem = true ∨ FocusIn elements items first (start - first)
  height : q.renderedHeight = p.renderedHeight + spanHeight elements width first (start - first)
  fills : availableHeight ≤ q.renderedHeight ∨ first = 0
  needs : first < start → p.renderedHeight < availableHeight
  pendingScroll : q.pendingScroll = p.pendingScroll

section GoesUp

variable {elements : Elements F} {width : Option ℚ} {availableHeight : ℚ} {first : ℕ}
  {q : LayoutPass F} {item : ListItem F}

/-- The pass is at its end, or it has filled the viewport. -/
theorem GoesUp.stop (hstop : availableHeight ≤ p.renderedHeight ∨ start = 0) :
    GoesUp elements width availableHeight items start start p p := by
  refine ⟨le_rfl, ?_, ?_, ?_, hstop, by simp, rfl⟩
  · rw [Nat.sub_self]
    rfl
  · rw [Nat.sub_self]
    exact (or_iff_left not_focusIn_zero).symm
  · rw [Nat.sub_self, spanHeight_zero, add_zero]

/-- One more item is rendered in front of the others. -/
theorem GoesUp.render (h : GoesUp elements width availableHeight items first start
      (p.renderAbove elements width start item) q) (hitem : items[start]? = some item)
    (hless : p.renderedHeight < availableHeight) :
    GoesUp elements width availableHeight items first (start + 1) p q := by
  have hle := h.le
  have hcount : start + 1 - first = start - first + 1 := by omega
  have hfirst : first + (start - first) = start := by omega
  have hlayouts : (p.renderAbove elements width start item).itemLayouts =
      layoutsOf elements width start 1 ++ p.itemLayouts := rfl
  have hfocus : (p.renderAbove elements width start item).renderedFocusedItem = true ↔
      p.renderedFocusedItem = true ∨ FocusIn elements items start 1 := by
    rw [focusIn_succ hitem, or_iff_left not_focusIn_zero, ← Bool.or_eq_true]
    rfl
  have hheight : (p.renderAbove elements width start item).renderedHeight =
      p.renderedHeight + spanHeight elements width start 1 := by
    rw [spanHeight_succ, spanHeight_zero, add_zero]
    rfl
  refine ⟨by omega, ?_, ?_, ?_, h.fills, fun _ => hless, h.pendingScroll⟩
  · rw [h.layouts, hlayouts, hcount, ← layoutsOf_append, hfirst, List.append_assoc]
  · rw [h.focused, hfocus, hcount, focusIn_append, hfirst, or_assoc,
      @or_comm (FocusIn elements items start 1)]
  · rw [h.height, hheight, hcount, ← spanHeight_append, hfirst]
    ring

theorem Measures.renderAbove (hp : p.Measures items (start + 1) space)
    (hitem : items[start]? = some item) :
    (p.renderAbove elements width start item).Measures items start space := by
  refine ⟨hp.covers.cons hitem _, ?_⟩
  change p.renderedHeight + _ = space + contentHeight (_ :: p.measuredItems)
  rw [hp.height, contentHeight_cons]
  simp only [ListItem.height, ListItem.size, Option.elim_some]
  ring

end GoesUp

/-- The walk upward. The induction is on the number of items above. -/
theorem layoutAbove_spec (hp : p.Measures items start space) (elements : Elements F)
    (width : Option ℚ) (availableHeight : ℚ) :
    ∃ first q, layoutAbove elements width availableHeight (items.take start).reverse p =
        ((items.take first).reverse, q) ∧ q.Measures items first space ∧
      GoesUp elements width availableHeight items first start p q := by
  induction start generalizing p with
  | zero => exact ⟨0, p, rfl, hp, .stop (.inr rfl)⟩
  | succ start ih =>
    have hbound := hp.covers.bound
    have hlt : start < items.length := by omega
    have hitem : items[start]? = some items[start] := List.getElem?_eq_getElem hlt
    rw [reverse_take_succ hitem, layoutAbove, length_reverse_take hlt.le]
    split_ifs with hless
    · obtain ⟨first, q, hrun, hq, hup⟩ := ih (hp.renderAbove hitem)
      exact ⟨first, q, hrun, hq, hup.render hitem hless⟩
    · exact ⟨start + 1, p, by rw [reverse_take_succ hitem], hp, .stop (.inl (not_lt.mp hless))⟩

/-! ## The leading overdraw -/

/-- The items above the layout that are measured. -/
theorem measureAbove_spec (elements : Elements F) (width : Option ℚ) (overdraw leading : ℚ)
    {measured : List (ListItem F)} (hmeasured : CoversFrom items start measured) :
    ∃ first above, measureAbove elements width overdraw (items.take start).reverse leading
        measured = ((items.take first).reverse, above ++ measured) ∧
      above.length = start - first ∧ first ≤ start ∧
      CoversFrom items first (above ++ measured) := by
  induction start generalizing leading measured with
  | zero => exact ⟨0, [], rfl, rfl, le_rfl, hmeasured⟩
  | succ start ih =>
    have hbound := hmeasured.bound
    have hlt : start < items.length := by omega
    have hitem : items[start]? = some items[start] := List.getElem?_eq_getElem hlt
    rw [reverse_take_succ hitem, measureAbove]
    split_ifs with hless
    · obtain ⟨first, above, hrun, hlength, hle, hcovers⟩ := ih (leading + (items[start].size.getD
        (elements.size width (items.take start).reverse.length)).height)
        (hmeasured.cons hitem (items[start].size.getD
          (elements.size width (items.take start).reverse.length)))
      refine ⟨first, above ++ [_], hrun.trans (by rw [List.append_cons]), ?_, by omega, ?_⟩
      · rw [List.length_append, hlength, List.length_singleton]
        omega
      · rwa [← List.append_cons]
    · refine ⟨start + 1, [], ?_, by simp, le_rfl, hmeasured⟩
      rw [← reverse_take_succ hitem]
      rfl

end LayoutPass

namespace StateInner

variable (s : StateInner F) (elements : Elements F) (width : Option ℚ) (availableHeight : ℚ)
  (padding : Edges)

/-- The passes of a layout that fill the viewport: the first loop does it from the scroll top, or
the scroll top moves up to the item at `first`. -/
structure Fills (first : ℕ) (q : LayoutPass F) : Prop where
  measures : q.Measures s.items first (padding.top + padding.bottom)
  itemIx : q.scrollTop.itemIx = first
  cases : (first = s.scrollTop.itemIx ∧
      q = s.topPass elements width availableHeight padding ∧
      availableHeight ≤ (s.topPass elements width availableHeight padding).visibleHeight) ∨
    ((s.topPass elements width availableHeight padding).visibleHeight < availableHeight ∧
      ∃ q', LayoutPass.GoesUp elements width availableHeight s.items first s.scrollTop.itemIx
        (s.topPass elements width availableHeight padding) q' ∧
          q = q'.adjustScrollTop availableHeight s.alignment first)

/-- An item of the list that contains the focus, to be rendered outside the viewport. -/
def focusedLayout : Option ItemLayout :=
  (s.items.findIdx? (ListItem.containsFocused elements)).map fun ix => ⟨ix, elements.size width ix⟩

/-- What a layout does, given its passes. -/
structure LayoutOf (first : ℕ) (q : LayoutPass F) (s' : StateInner F)
    (layout : LayoutItemsResponse) : Prop where
  fills : s.Fills elements width availableHeight padding first q
  scrollTop : layout.scrollTop = q.scrollTop
  logicalScrollTop : s'.logicalScrollTop = q.logicalScrollTop
  pendingScroll : s'.pendingScroll = q.pendingScroll
  layouts : layout.itemLayouts = q.itemLayouts ++
    if q.renderedFocusedItem then [] else (s.focusedLayout elements width).toList
  handles : s'.items.map ListItem.focusHandle = s.items.map ListItem.focusHandle
  content : top s'.items first + contentHeight q.measuredItems ≤ contentHeight s'.items
  same : s'.alignment = s.alignment ∧
    s'.scrollbarDragStartHeight = s.scrollbarDragStartHeight

variable {s}

theorem exists_fills (hposition : s.scrollTop.itemIx ≤ s.items.length) :
    ∃ first q, LayoutPass.fill elements width availableHeight s.alignment
        (s.items.take s.scrollTop.itemIx).reverse
        (s.topPass elements width availableHeight padding) = ((s.items.take first).reverse, q) ∧
      s.Fills elements width availableHeight padding first q := by
  obtain ⟨hmeasures, -⟩ := topPass_spec elements width availableHeight padding hposition
  have hitemIx : (s.topPass elements width availableHeight padding).scrollTop.itemIx =
      s.scrollTop.itemIx := by rw [topPass_scrollTop, startPosition_itemIx]
  unfold LayoutPass.fill
  split_ifs with hless
  · obtain ⟨first, q, hrun, hq, hup⟩ :=
      LayoutPass.layoutAbove_spec hmeasures elements width availableHeight
    rw [hrun]
    dsimp only
    rw [LayoutPass.length_reverse_take (hup.le.trans hposition)]
    refine ⟨first, _, rfl, ?_, ?_, .inr ⟨hless, q, hup, rfl⟩⟩
    · unfold LayoutPass.adjustScrollTop
      cases s.alignment with
      | top => exact ⟨hq.covers, hq.height⟩
      | bottom => exact ⟨hq.covers, hq.height⟩
    · unfold LayoutPass.adjustScrollTop
      cases s.alignment with
      | top => rfl
      | bottom => rfl
  · exact ⟨s.scrollTop.itemIx, _, rfl, hmeasures, hitemIx, .inl ⟨rfl, rfl, not_lt.mp hless⟩⟩

/-- Items with the same focus handles contain the focus at the same places. -/
theorem findIdx?_containsFocused {items items' : List (ListItem F)}
    (h : items'.map ListItem.focusHandle = items.map ListItem.focusHandle) :
    items'.findIdx? (ListItem.containsFocused elements) =
      items.findIdx? (ListItem.containsFocused elements) := by
  have hhandles : ∀ items : List (ListItem F),
      items.findIdx? (ListItem.containsFocused elements) =
        (items.map ListItem.focusHandle).findIdx? (·.any elements.containsFocused) := by
    intro items
    rw [List.findIdx?_map]
    rfl
  rw [hhandles, h, hhandles]

/-- A layout of a list, given what its passes have measured: this replaces the items from `start`
on, and what is above the passes is measured by the leading overdraw. -/
theorem layoutItems_eq {first : ℕ} {q : LayoutPass F}
    (hfill : LayoutPass.fill elements width availableHeight s.alignment
      (s.items.take s.scrollTop.itemIx).reverse
      (s.topPass elements width availableHeight padding) = ((s.items.take first).reverse, q))
    (hcovers : CoversFrom s.items first q.measuredItems) :
    ∃ start above, LayoutPass.measureAbove elements width s.overdraw (s.items.take first).reverse
        q.scrollTop.offsetInItem q.measuredItems =
          ((s.items.take start).reverse, above ++ q.measuredItems) ∧
      above.length = first - start ∧ start ≤ first ∧
      CoversFrom s.items start (above ++ q.measuredItems) ∧
      s.layoutItems elements width availableHeight padding =
        ({ s with
          items := s.items.take start ++ (above ++ q.measuredItems) ++
            s.items.drop (start + (above ++ q.measuredItems).length)
          logicalScrollTop := q.logicalScrollTop
          pendingScroll := q.pendingScroll },
        ⟨q.maxItemWidth, q.scrollTop,
          if q.renderedFocusedItem then q.itemLayouts
          else q.itemLayouts ++ (s.focusedLayout elements width).toList⟩) := by
  obtain ⟨start, above, hrun, hlength, hle, habove⟩ := LayoutPass.measureAbove_spec elements width
    s.overdraw q.scrollTop.offsetInItem hcovers
  have hstart : (s.items.take start).reverse.length = start :=
    LayoutPass.length_reverse_take ((Nat.le_add_right _ _).trans habove.bound)
  refine ⟨start, above, hrun, hlength, hle, habove, ?_⟩
  set items := s.items.take start ++ (above ++ q.measuredItems) ++
    s.items.drop (start + (above ++ q.measuredItems).length) with hitems
  have hhandles : items.map ListItem.focusHandle = s.items.map ListItem.focusHandle := by
    rw [hitems]
    exact habove.handles_replace
  unfold layoutItems
  dsimp only
  rw [hfill]
  dsimp only
  rw [hrun]
  dsimp only
  rw [hstart, ← hitems, findIdx?_containsFocused elements hhandles]
  rfl

theorem layoutOf_of_fills {first : ℕ} {q : LayoutPass F}
    (hfill : LayoutPass.fill elements width availableHeight s.alignment
      (s.items.take s.scrollTop.itemIx).reverse
      (s.topPass elements width availableHeight padding) = ((s.items.take first).reverse, q))
    (hfills : s.Fills elements width availableHeight padding first q) :
    s.LayoutOf elements width availableHeight padding first q
      (s.layoutItems elements width availableHeight padding).1
      (s.layoutItems elements width availableHeight padding).2 := by
  obtain ⟨start, above, -, hlength, hle, hcovers, hlayout⟩ :=
    layoutItems_eq elements width availableHeight padding hfill hfills.measures.covers
  have hbound := hcovers.bound
  rw [hlayout]
  set items := s.items.take start ++ (above ++ q.measuredItems) ++
    s.items.drop (start + (above ++ q.measuredItems).length) with hitems
  refine ⟨hfills, rfl, rfl, rfl, ?_, hcovers.handles_replace, ?_, rfl, rfl⟩
  · dsimp only
    split_ifs
    · rw [List.append_nil]
    · rfl
  · have htop : top items first = contentHeight (s.items.take start ++ above) := by
      have hsplit : items = (s.items.take start ++ above) ++ (q.measuredItems ++
          s.items.drop (start + (above ++ q.measuredItems).length)) := by
        rw [hitems]
        simp only [List.append_assoc]
      have hfront : (s.items.take start ++ above).length = first := by
        rw [List.length_append, List.length_take, hlength]
        omega
      rw [top, hsplit, List.take_left' hfront, contentHeight]
    change top items first + contentHeight q.measuredItems ≤ contentHeight items
    rw [htop, hitems, contentHeight_append, contentHeight_append, contentHeight_append,
      contentHeight_append]
    have := contentHeight_nonneg (s.items.drop (start + (above ++ q.measuredItems).length))
    linarith

/-- A layout of a list whose scroll position is in its items. -/
theorem layoutItems_spec (hposition : s.scrollTop.itemIx ≤ s.items.length) :
    ∃ first q, s.LayoutOf elements width availableHeight padding first q
      (s.layoutItems elements width availableHeight padding).1
      (s.layoutItems elements width availableHeight padding).2 := by
  obtain ⟨first, q, hfill, hfills⟩ := exists_fills elements width availableHeight padding hposition
  exact ⟨first, q, layoutOf_of_fills elements width availableHeight padding hfill hfills⟩

end StateInner

end Lucie.ItemList
