import Lucie.ItemList.MeasuredItems
import Lucie.ItemList.ScrollRange

/-!
# The bounds of an item

`bounds_for_item` derives where an item is from the items and the scroll position, apart from the
loop of `prepaint_items` that has placed it. It begins at the bounds of the list instead of behind
their padding, and it takes the position of the list for that of the layout. A list that is aligned
to the bottom has none while it shows its end.
-/

set_option autoImplicit false

namespace Lucie.ItemList

variable {F : Type} {elements : Elements F} {width : Option ℚ} {availableHeight : ℚ}
  {padding : Edges} {first ix : ℕ} {q : LayoutPass F} {layout : LayoutItemsResponse}
  {bounds rect : Bounds ℚ}

/-! ## The placed items -/

/-- The rectangles at which the loop of `prepaint_items` places the layouts. -/
def placements (x : ℚ) : List ItemLayout → ℚ → List (ℕ × Bounds ℚ)
  | [], _ => []
  | item :: layouts, y =>
    (item.index, ⟨⟨x, y⟩, ⟨item.size.width, item.size.height⟩⟩) ::
      placements x layouts (y + item.size.height)

theorem mem_placements_append {x y : ℚ} {layouts layouts' : List ItemLayout} :
    (ix, rect) ∈ placements x (layouts ++ layouts') y ↔ (ix, rect) ∈ placements x layouts y ∨
      (ix, rect) ∈ placements x layouts' (y + (layouts.map fun item => item.size.height).sum) := by
  induction layouts generalizing y with
  | nil => simp [placements]
  | cons item layouts ih =>
    rw [List.cons_append, placements, List.mem_cons, ih, placements, List.mem_cons, List.map_cons,
      List.sum_cons, or_assoc, add_assoc]

theorem heights_layoutsOf (start count : ℕ) :
    ((layoutsOf elements width start count).map fun item => item.size.height).sum =
      spanHeight elements width start count := by
  rw [layoutsOf, List.map_map]
  rfl

theorem spanHeight_of_lt {start : ℕ} (hlt : start < ix) :
    spanHeight elements width start (ix - start) =
      (elements.size width start).height + spanHeight elements width (start + 1) (ix - (start + 1))
        := by
  have hindex : ix - start = ix - (start + 1) + 1 := by omega
  rw [hindex, spanHeight_succ]

/-- An item of a range is placed below those before it. -/
theorem mem_placements_layoutsOf {x y : ℚ} {start count : ℕ} :
    (ix, rect) ∈ placements x (layoutsOf elements width start count) y ↔
      start ≤ ix ∧ ix < start + count ∧
        rect = ⟨⟨x, y + spanHeight elements width start (ix - start)⟩,
          ⟨(elements.size width ix).width, (elements.size width ix).height⟩⟩ := by
  induction count generalizing start y with
  | zero =>
    refine iff_of_false List.not_mem_nil ?_
    rintro ⟨hstart, hend, -⟩
    omega
  | succ count ih =>
    rw [layoutsOf_succ, placements, List.mem_cons, ih]
    constructor
    · rintro (hhead | ⟨hstart, hend, rfl⟩)
      · obtain ⟨rfl, rfl⟩ := Prod.mk.inj hhead
        rw [Nat.sub_self, spanHeight_zero, add_zero]
        exact ⟨le_rfl, by omega, rfl⟩
      · rw [spanHeight_of_lt hstart, ← add_assoc y]
        exact ⟨by omega, by omega, rfl⟩
    · rintro ⟨hstart, hend, rfl⟩
      obtain rfl | hlt := hstart.eq_or_lt
      · left
        rw [Nat.sub_self, spanHeight_zero, add_zero]
      · right
        rw [spanHeight_of_lt hlt, ← add_assoc y]
        exact ⟨hlt, by omega, rfl⟩

namespace StateInner

variable {s s' : StateInner F}

/-- What the loops of a layout lay out, without the focused item that may be rendered behind the
visible ones. -/
def visibleLayouts (s : StateInner F) (elements : Elements F) (width : Option ℚ)
    (availableHeight : ℚ) (padding : Edges) : List ItemLayout :=
  (LayoutPass.fill elements width availableHeight s.alignment
    (s.items.take s.scrollTop.itemIx).reverse
    (s.topPass elements width availableHeight padding)).2.itemLayouts

/-- The list before the layout that a prepaint keeps. -/
def keptPass (s : StateInner F) (elements : Elements F) (bounds : Bounds ℚ) (padding : Edges) :
    StateInner F :=
  let s := s.beginPrepaint bounds
  let s :=
    match s.prepaintItems elements bounds padding true with
    | (_, .ok _) => s
    | (first, .error position) => { first with logicalScrollTop := some position }
  s.layoutAllItems elements bounds.size.width

/-- The rectangles at which a prepaint places the items of the visible range. -/
def visiblePlacements (s : StateInner F) (elements : Elements F) (bounds : Bounds ℚ)
    (padding : Edges) : List (ℕ × Bounds ℚ) :=
  let s := s.keptPass elements bounds padding
  let (_, layout) := s.layoutItems elements (some bounds.size.width) bounds.size.height padding
  if bounds.size.height > padding.top + padding.bottom then
    placements bounds.origin.x
      (s.visibleLayouts elements (some bounds.size.width) bounds.size.height padding)
      (bounds.origin.y + padding.top - layout.scrollTop.offsetInItem)
  else []

/-- `ListState::bounds_for_item`; `none` is the panic of seeking backward. -/
def boundsForItem (s : StateInner F) (ix : ℕ) : Option (Option (Bounds ℚ)) :=
  let bounds := s.lastLayoutBounds.getD ⟨⟨0, 0⟩, ⟨0, 0⟩⟩
  let position := s.scrollTop
  if ix < position.itemIx then some none
  else do
    let index ← seek s.items (countTarget position.itemIx) .right
    let scrollTop := (startAt s.items index).height + position.offsetInItem
    let index ← seekFrom s.items (countTarget ix) .right index
    let start := startAt s.items index
    match s.items[index]? with
    | some (.measured size _) =>
      if start.count = ix then
        let top := bounds.origin.y + start.height - scrollTop
        some (some (Bounds.fromCorners ⟨bounds.origin.x, top⟩
          ⟨bounds.bottomRight.x, top + size.height⟩))
      else some none
    | _ => some none

/-- A measured item from the scroll top on has bounds. -/
theorem boundsForItem_eq {size : ItemSize} {focusHandle : Option F}
    (hitem : s.items[ix]? = some (.measured size focusHandle)) :
    s.boundsForItem ix = some (if ix < s.scrollTop.itemIx then none else
      let bounds := s.lastLayoutBounds.getD ⟨⟨0, 0⟩, ⟨0, 0⟩⟩
      some ⟨⟨bounds.origin.x, bounds.origin.y + top s.items ix - s.absolute s.scrollTop⟩,
        ⟨bounds.size.width, size.height⟩⟩) := by
  have hlt := (List.getElem?_eq_some_iff.mp hitem).1
  unfold boundsForItem
  dsimp only
  split_ifs with habove
  · rfl
  have hseek : seekFrom s.items (countTarget ix) .right (min s.scrollTop.itemIx s.items.length) =
      some ix := by
    have hforward : (countTarget ix).cmp (startAt s.items
        (min s.scrollTop.itemIx s.items.length)) ≠ .lt := by
      rw [ne_eq, cmp_countTarget_lt, startAt_count]
      omega
    rw [seekFrom, if_neg hforward, Cursor.seekIndex, leading_countTarget]
    congr 1
    omega
  rw [seek_countTarget, Option.bind_eq_bind, Option.bind_some, hseek, Option.bind_some,
    hitem]
  dsimp only
  rw [startAt_count, if_pos (Nat.min_eq_left hlt.le), startAt_height, startAt_height,
    top_min_length, ← absolute_eq]
  simp [Bounds.fromCorners, Bounds.bottomRight]

/-! ## The layout that a prepaint keeps -/

/-- The items of the prepaint are those of the layout that it keeps. -/
theorem prepaintItems_fst (s : StateInner F) (bounds : Bounds ℚ) (padding : Edges)
    (autoscroll : Bool) : (s.prepaintItems elements bounds padding autoscroll).1 =
      ((s.layoutAllItems elements bounds.size.width).layoutItems elements
        (some bounds.size.width) bounds.size.height padding).1 := by
  unfold prepaintItems
  dsimp only
  split_ifs
  all_goals rfl

theorem prepaint_keptPass (h : s.prepaint elements bounds padding = some (s', layout)) :
    s' = { ((s.keptPass elements bounds padding).layoutItems elements (some bounds.size.width)
      bounds.size.height padding).1 with
        lastLayoutBounds := some bounds
        lastPadding := some padding } := by
  have hkept := @prepaintItems_fst _ elements
  unfold StateInner.prepaint at h
  unfold keptPass
  dsimp only
  rcases hfirst : (s.beginPrepaint bounds).prepaintItems elements bounds padding true with
    ⟨before, position | response⟩
  · rw [hfirst] at h
    rcases hsecond : { before with logicalScrollTop := some position }.prepaintItems elements
      bounds padding false with ⟨after, position' | response⟩
    · simp only [hsecond, Option.bind_eq_bind, Option.bind_none] at h
      cases h
    · simp only [hsecond, Option.bind_eq_bind, Option.bind_some] at h
      obtain ⟨rfl, -⟩ := Prod.mk.inj (Option.some.inj h)
      rw [← hkept, hsecond]
  · rw [hfirst] at h
    simp only [Option.bind_eq_bind, Option.bind_some] at h
    obtain ⟨rfl, -⟩ := Prod.mk.inj (Option.some.inj h)
    rw [← hkept _ bounds padding true, hfirst]

theorem Positioned.keptPass (hs : s.Positioned) (elements : Elements F) (bounds : Bounds ℚ)
    (padding : Edges) : (s.keptPass elements bounds padding).Positioned := by
  obtain ⟨-, hfirst, hrequest⟩ :=
    (hs.beginPrepaint bounds).prepaintItems elements bounds padding true
  unfold StateInner.keptPass
  dsimp only
  refine Positioned.layoutAllItems ?_ elements bounds.size.width
  generalize (s.beginPrepaint bounds).prepaintItems elements bounds padding true = prepainted
    at hfirst hrequest ⊢
  obtain ⟨before, position | response⟩ := prepainted
  · exact hfirst.set (hrequest position rfl)
  · exact hs.beginPrepaint bounds

/-! ## Where the items are -/

/-- The height of a hidden top item that is measured without being placed, to the items behind
it. -/
def skippedHeight (s : StateInner F) (elements : Elements F) (width : Option ℚ)
    (availableHeight : ℚ) (padding : Edges) (s' : StateInner F) (ix : ℕ) : ℚ :=
  if s.SkipsTop elements width availableHeight padding ∧ s.scrollTop.itemIx < ix then
    s'.items[s.scrollTop.itemIx]?.elim 0 ListItem.height
  else 0

/-- The top of an item behind a range that is measured with the sizes of its elements. -/
theorem top_add_span {items : List (ListItem F)} {start count : ℕ}
    (hmeasured : ∀ ix, start ≤ ix → ix < start + count → ∃ focusHandle,
      items[ix]? = some (.measured (elements.size width ix) focusHandle)) :
    top items (start + count) = top items start + spanHeight elements width start count := by
  induction count with
  | zero => rw [spanHeight_zero, add_zero, add_zero]
  | succ count ih =>
    obtain ⟨focusHandle, hitem⟩ := hmeasured (start + count) (by omega) (by omega)
    have hbefore := ih fun ix hstart hend => hmeasured ix hstart (by omega)
    rw [← Nat.add_assoc, top_succ hitem, hbefore, ← spanHeight_append, spanHeight_succ,
      spanHeight_zero, add_zero, add_assoc]
    rfl

/-- What a layout has laid out is measured with the size of its layout. -/
theorem Replaces.measured (h : s.Replaces elements width first q s')
    (hlayout : ⟨ix, elements.size width ix⟩ ∈ q.itemLayouts) : first ≤ ix ∧
      ∃ focusHandle, s'.items[ix]? = some (.measured (elements.size width ix) focusHandle) := by
  obtain ⟨hfirst, focusHandle, hget⟩ := h.layouts _ hlayout
  refine ⟨hfirst, focusHandle, ?_⟩
  have hitem := h.items _ (List.getElem?_eq_some_iff.mp hget).1
  rwa [hget, Nat.add_sub_cancel' hfirst] at hitem

/-- Behind the top item lies the first item that is laid out, below a hidden top item that is
skipped. -/
theorem top_firstLaidOut (hlength : s'.items.length = s.items.length)
    (hfirst : s.firstLaidOut elements width availableHeight padding ≤ ix) :
    top s'.items (s.firstLaidOut elements width availableHeight padding) =
      top s'.items s.scrollTop.itemIx +
        s.skippedHeight elements width availableHeight padding s' ix := by
  by_cases hskips : s.SkipsTop elements width availableHeight padding
  · have hlt : s.scrollTop.itemIx < s'.items.length := hskips.1.trans_eq hlength.symm
    have hget : s'.items[s.scrollTop.itemIx]? = some s'.items[s.scrollTop.itemIx] :=
      List.getElem?_eq_getElem hlt
    have hbehind : s.firstLaidOut elements width availableHeight padding =
        s.scrollTop.itemIx + 1 := if_pos hskips
    rw [hbehind] at hfirst ⊢
    rw [skippedHeight, if_pos ⟨hskips, hfirst⟩, top_succ hget, hget, Option.elim_some]
  · have hsame : s.firstLaidOut elements width availableHeight padding = s.scrollTop.itemIx :=
      if_neg hskips
    rw [skippedHeight, if_neg (fun h => hskips h.1), hsame, add_zero]

/-- The loops place an item below those from the scroll top on, but for a skipped one. -/
theorem LayoutOf.placed (hs : s.Positioned)
    (h : s.LayoutOf elements width availableHeight padding first q s' layout)
    (hreplaces : s.Replaces elements width first q s') {x y : ℚ}
    (hplaced : (ix, rect) ∈ placements x q.itemLayouts y) :
    first ≤ ix ∧ (∃ focusHandle,
      s'.items[ix]? = some (.measured (elements.size width ix) focusHandle)) ∧
    rect = ⟨⟨x, y + (top s'.items ix - top s'.items first) -
        s.skippedHeight elements width availableHeight padding s' ix⟩,
      ⟨(elements.size width ix).width, (elements.size width ix).height⟩⟩ := by
  obtain ⟨count, hboth⟩ := h.fills.laysOutBoth hs
  have hle := h.fills.le
  have hsum : first + (s.scrollTop.itemIx - first) = s.scrollTop.itemIx := by omega
  set next := s.firstLaidOut elements width availableHeight padding with hnext
  have habove : ∀ ix, first ≤ ix → ix < first + (s.scrollTop.itemIx - first) →
      ⟨ix, elements.size width ix⟩ ∈ q.itemLayouts := by
    intro ix hfirst hend
    rw [hboth.layouts, List.mem_append, mem_layoutsOf]
    exact .inl ⟨hfirst, hend, rfl⟩
  have hbelow : ∀ ix, next ≤ ix → ix < next + count →
      ⟨ix, elements.size width ix⟩ ∈ q.itemLayouts := by
    intro ix hfirst hend
    rw [hboth.layouts, List.mem_append, mem_layoutsOf, mem_layoutsOf]
    exact .inr ⟨hfirst, hend, rfl⟩
  have htop := top_add_span fun ix hfirst hend => (hreplaces.measured (habove ix hfirst hend)).2
  rw [hboth.layouts, mem_placements_append, mem_placements_layoutsOf, mem_placements_layoutsOf,
    heights_layoutsOf] at hplaced
  rcases hplaced with ⟨hfirst, hend, rfl⟩ | ⟨hfirst, hend, rfl⟩
  · have hskipped : s.skippedHeight elements width availableHeight padding s' ix = 0 :=
      if_neg fun hskips => by omega
    have hspan := @top_add_span _ elements width s'.items first (ix - first)
      fun j hj hlt => (hreplaces.measured (habove j hj (by omega))).2
    refine ⟨hfirst, (hreplaces.measured (habove ix hfirst hend)).2, ?_⟩
    have hy : y + spanHeight elements width first (ix - first) =
        y + (top s'.items ix - top s'.items first) - 0 := by
      rw [← Nat.add_sub_cancel' hfirst, hspan, Nat.add_sub_cancel_left]
      ring
    rw [hskipped, hy]
  · have hspan := @top_add_span _ elements width s'.items next (ix - next)
      fun j hj hlt => (hreplaces.measured (hbelow j hj (by omega))).2
    obtain ⟨hindex, hitem⟩ := hreplaces.measured (hbelow ix hfirst hend)
    rw [hsum] at htop
    rw [Nat.add_sub_cancel' hfirst] at hspan
    have hgap := top_firstLaidOut h.length hfirst
    refine ⟨hindex, hitem, ?_⟩
    have hy : y + spanHeight elements width first (s.scrollTop.itemIx - first) +
        spanHeight elements width next (ix - next) = y + (top s'.items ix - top s'.items first) -
          s.skippedHeight elements width availableHeight padding s' ix := by
      rw [hspan, hnext, hgap, htop]
      ring
    rw [← hnext, hy]

/-- The items of the visible range are laid out before a focused item. -/
theorem visibleLayouts_prefix (hs : s.Positioned) (elements : Elements F) (width : Option ℚ)
    (availableHeight : ℚ) (padding : Edges) :
    s.visibleLayouts elements width availableHeight padding <+:
      (s.layoutItems elements width availableHeight padding).2.itemLayouts := by
  obtain ⟨first, q, hfill, hlayout, -⟩ := exists_replaces hs.scrollTop_le elements width
    availableHeight padding
  rw [hlayout.layouts, visibleLayouts, hfill]
  exact List.prefix_append _ _

/-- The placed items are those of the loops of the layout. -/
theorem mem_visiblePlacements
    (hplaced : (ix, rect) ∈ s.visiblePlacements elements bounds padding)
    (hfill : LayoutPass.fill elements (some bounds.size.width) bounds.size.height
      (s.keptPass elements bounds padding).alignment
      ((s.keptPass elements bounds padding).items.take
        (s.keptPass elements bounds padding).scrollTop.itemIx).reverse
      ((s.keptPass elements bounds padding).topPass elements (some bounds.size.width)
        bounds.size.height padding) =
      (((s.keptPass elements bounds padding).items.take first).reverse, q))
    (hscroll : ((s.keptPass elements bounds padding).layoutItems elements (some bounds.size.width)
      bounds.size.height padding).2.scrollTop = q.scrollTop) :
    (ix, rect) ∈ placements bounds.origin.x q.itemLayouts
      (bounds.origin.y + padding.top - q.scrollTop.offsetInItem) := by
  unfold visiblePlacements visibleLayouts at hplaced
  dsimp only at hplaced
  rw [hfill, hscroll] at hplaced
  split_ifs at hplaced
  · exact hplaced
  · cases hplaced

/-- The bounds of an item of the visible range are the rectangle at which it has been placed,
exactly if the list has a position, the element is as wide as the list, and the padding above the
items is as high as what is skipped, which is nothing but for a hidden top item. -/
theorem boundsForItem_iff (hreachable : Reachable s)
    (hprepaint : s.prepaint elements bounds padding = some (s', layout))
    (hplaced : (ix, rect) ∈ s.visiblePlacements elements bounds padding) :
    s'.boundsForItem ix = some (some rect) ↔
      ¬(s'.alignment = .bottom ∧ s'.logicalScrollTop = none) ∧
      rect.size.width = bounds.size.width ∧
      padding.top = (s.keptPass elements bounds padding).skippedHeight elements
        (some bounds.size.width) bounds.size.height padding s' ix := by
  have hkept := hreachable.positioned.keptPass elements bounds padding
  obtain ⟨first, q, hfill, hlayout, hreplaces⟩ := exists_replaces hkept.scrollTop_le elements
    (some bounds.size.width) bounds.size.height padding
  have hplaced' := mem_visiblePlacements hplaced hfill hlayout.scrollTop
  obtain ⟨hfirst, ⟨focusHandle, hitem⟩, rfl⟩ := hlayout.placed hkept hreplaces hplaced'
  obtain rfl := prepaint_keptPass hprepaint
  set t := s.keptPass elements bounds padding
  set laidOut := t.layoutItems elements (some bounds.size.width) bounds.size.height padding
  have hlt := (List.getElem?_eq_some_iff.mp hitem).1
  have hposition := hlayout.position
  have hsame := hlayout.same.1
  have hbounds := @boundsForItem_eq _ _
    { laidOut.1 with lastLayoutBounds := some bounds, lastPadding := some padding } _ _ hitem
  have hscroll : { laidOut.1 with
      lastLayoutBounds := some bounds
      lastPadding := some padding }.scrollTop = laidOut.1.scrollTop := rfl
  rw [hbounds, hscroll]
  by_cases hend : laidOut.1.alignment = .bottom ∧ laidOut.1.logicalScrollTop = none
  · -- the position is behind the last item
    have hbehind : ix < laidOut.1.scrollTop.itemIx := by
      rw [StateInner.scrollTop, hend.2, hend.1]
      exact hlt
    rw [if_pos hbehind]
    refine iff_of_false (fun h => ?_) fun h => h.1 hend
    cases h
  · have htop : laidOut.1.scrollTop = q.scrollTop := by
      rw [← hlayout.scrollTop]
      refine hposition.resolve_right fun h => hend ⟨?_, h.2⟩
      rw [hsame, h.1]
    have hindex : q.scrollTop.itemIx = first := hlayout.fills.itemIx
    rw [htop, hindex, if_neg (not_lt.mpr hfirst), absolute_eq, hindex]
    simp only [Option.getD_some, Option.some.injEq, Bounds.mk.injEq, Point.mk.injEq, Size.mk.injEq,
      true_and, and_true]
    constructor
    · rintro ⟨hy, hwidth⟩
      refine ⟨hend, hwidth.symm, ?_⟩
      change padding.top = t.skippedHeight elements _ _ padding laidOut.1 ix
      linarith
    · rintro ⟨-, hwidth, hpadding⟩
      change padding.top = t.skippedHeight elements _ _ padding laidOut.1 ix at hpadding
      refine ⟨?_, hwidth.symm⟩
      linarith

/-- The second of three items of ten pixels, in a viewport of fifteen pixels without padding. -/
theorem boundsForItem_second :
    ∃ s' layout, (freshItems .top).prepaint (.uniform _ .ten) ⟨⟨0, 0⟩, ⟨10, 15⟩⟩ ⟨0, 0⟩ =
      some (s', layout) ∧ s'.boundsForItem 1 = some (some ⟨⟨0, 10⟩, ⟨10, 10⟩⟩) := by
  have hprepaint : (freshItems .top).prepaint (.uniform _ .ten) ⟨⟨0, 0⟩, ⟨10, 15⟩⟩ ⟨0, 0⟩ =
      some (laidOutItems .top ⟨0, 0⟩
        [.measured .ten none, .measured .ten none, .unmeasured none] none,
        ⟨10, ⟨0, 0⟩, [⟨0, .ten⟩, ⟨1, .ten⟩]⟩) := by decide +kernel
  refine ⟨_, _, hprepaint, (boundsForItem_iff (reachable_freshItems .top) hprepaint ?_).mpr ?_⟩
  · decide +kernel
  · exact ⟨by decide +kernel, rfl, by decide +kernel⟩

/-- A list that is aligned to the bottom and shows its end has no bounds for its items, and in a
list with a padding they are above where the items are. -/
theorem not_boundsForItem_placed :
    (∃ s' layout, (freshItems .bottom).prepaint (.uniform _ .ten) ⟨⟨0, 0⟩, ⟨10, 15⟩⟩ ⟨0, 0⟩ =
        some (s', layout) ∧
      (2, ⟨⟨0, 5⟩, ⟨10, 10⟩⟩) ∈ (freshItems .bottom).visiblePlacements (.uniform _ .ten)
        ⟨⟨0, 0⟩, ⟨10, 15⟩⟩ ⟨0, 0⟩ ∧ s'.boundsForItem 2 = some none) ∧
    ∃ s' layout, (freshItems .top).prepaint (.uniform _ .ten) ⟨⟨0, 0⟩, ⟨10, 15⟩⟩ ⟨4, 0⟩ =
        some (s', layout) ∧
      (1, ⟨⟨0, 14⟩, ⟨10, 10⟩⟩) ∈ (freshItems .top).visiblePlacements (.uniform _ .ten)
        ⟨⟨0, 0⟩, ⟨10, 15⟩⟩ ⟨4, 0⟩ ∧
      s'.boundsForItem 1 = some (some ⟨⟨0, 10⟩, ⟨10, 10⟩⟩) := by
  have hbottom : (freshItems .bottom).prepaint (.uniform _ .ten) ⟨⟨0, 0⟩, ⟨10, 15⟩⟩ ⟨0, 0⟩ =
      some (laidOutItems .bottom ⟨0, 0⟩
        [.unmeasured none, .measured .ten none, .measured .ten none] none,
        ⟨0, ⟨1, 5⟩, [⟨1, .ten⟩, ⟨2, .ten⟩]⟩) := by decide +kernel
  have hpadded : (freshItems .top).prepaint (.uniform _ .ten) ⟨⟨0, 0⟩, ⟨10, 15⟩⟩ ⟨4, 0⟩ =
      some (laidOutItems .top ⟨4, 0⟩
        [.measured .ten none, .measured .ten none, .unmeasured none] none,
        ⟨10, ⟨0, 0⟩, [⟨0, .ten⟩, ⟨1, .ten⟩]⟩) := by decide +kernel
  exact ⟨⟨_, _, hbottom, by decide +kernel, by decide +kernel⟩,
    _, _, hpadded, by decide +kernel, by decide +kernel⟩

end StateInner

end Lucie.ItemList
