import Lucie.ItemList.ItemBounds

/-!
# Autoscroll requests

An item that is prepainted may ask for a part of it to be shown. If the part is outside the bounds,
`prepaint_items` fails with a position, and the items are laid out again from this position. The
second layout shows the part, unless it takes up a pending fraction that the first one has left.
-/

set_option autoImplicit false

namespace Lucie.ItemList

variable {F : Type} {elements : Elements F} {width : Option ℚ} {bounds : Bounds ℚ}
  {padding : Edges}

/-! ## Requests -/

/-- A request of the item that begins at `itemTop`, to show what is between `top` and `bottom`. -/
structure AutoscrollRequest where
  itemIx : ℕ
  itemTop : ℚ
  top : ℚ
  bottom : ℚ
  deriving DecidableEq

namespace AutoscrollRequest

/-- What is to be shown is inside the item, and no taller than the padded bounds. -/
structure Inside (r : AutoscrollRequest) (elements : Elements F) (bounds : Bounds ℚ)
    (padding : Edges) : Prop where
  top : r.itemTop ≤ r.top
  ordered : r.top ≤ r.bottom
  bottom : r.bottom ≤ r.itemTop + (elements.size (some bounds.size.width) r.itemIx).height
  fits : r.bottom - r.top ≤ bounds.size.height - padding.top - padding.bottom

/-- The first request that is outside the bounds. -/
def honored (elements : Elements F) (bounds : Bounds ℚ) :
    List ItemLayout → ℚ → Option AutoscrollRequest
  | [], _ => none
  | item :: layouts, y =>
    match elements.autoscroll item.index y with
    | none => honored elements bounds layouts (y + item.size.height)
    | some (top, bottom) =>
      if top < bounds.origin.y ∨ bottom > bounds.bottomRight.y then
        some ⟨item.index, y, top, bottom⟩
      else honored elements bounds layouts (y + item.size.height)

/-- The position that answers a request. -/
def answer (r : AutoscrollRequest) (elements : Elements F) (items : List (ListItem F))
    (bounds : Bounds ℚ) (padding : Edges) : ListOffset :=
  if r.top < bounds.origin.y then ⟨r.itemIx, r.top - r.itemTop⟩
  else StateInner.autoscrollAbove elements bounds.size.width (items.take r.itemIx).reverse
    (bounds.size.height - padding.top - padding.bottom - (r.bottom - r.itemTop))

theorem itemIx_of_honored {r : AutoscrollRequest} {layouts : List ItemLayout} {y : ℚ}
    (h : honored elements bounds layouts y = some r) :
    ∃ item ∈ layouts, item.index = r.itemIx := by
  induction layouts generalizing y with
  | nil => cases h
  | cons item layouts ih =>
    have hnext : honored elements bounds layouts (y + item.size.height) = some r →
        ∃ other ∈ item :: layouts, other.index = r.itemIx := by
      intro hrest
      obtain ⟨other, hother, hindex⟩ := ih hrest
      exact ⟨other, List.mem_cons_of_mem _ hother, hindex⟩
    rw [honored] at h
    split at h
    · exact hnext h
    · split_ifs at h
      · obtain rfl := Option.some.inj h
        exact ⟨item, List.mem_cons_self, rfl⟩
      · exact hnext h

/-- The position that a prepaint asks for answers the request that it honors. -/
theorem autoscrollRequest_eq (items : List (ListItem F)) (layouts : List ItemLayout) (y : ℚ) :
    StateInner.autoscrollRequest elements items bounds padding layouts y =
      (honored elements bounds layouts y).map (answer · elements items bounds padding) := by
  induction layouts generalizing y with
  | nil => rfl
  | cons item layouts ih =>
    rw [StateInner.autoscrollRequest, honored]
    cases elements.autoscroll item.index y with
    | none => exact ih _
    | some request =>
      obtain ⟨top, bottom⟩ := request
      dsimp only
      split_ifs with habove houtside hbelow houtside houtside
      · rw [Option.map_some, answer, if_pos habove]
      · exact absurd (Or.inl habove) houtside
      · rw [Option.map_some, answer, if_neg habove]
      · exact absurd (Or.inr hbelow) houtside
      · exact absurd houtside (not_or.mpr ⟨habove, hbelow⟩)
      · exact ih _

end AutoscrollRequest

/-! ## The answers -/

theorem spanHeight_le {start count count' : ℕ} (h : count ≤ count') :
    spanHeight elements width start count ≤ spanHeight elements width start count' := by
  obtain ⟨more, rfl⟩ := Nat.exists_eq_add_of_le h
  rw [← spanHeight_append]
  exact le_add_of_nonneg_right (spanHeight_nonneg _ _)

/-- Two spans that meet at an item. -/
theorem spanHeight_split {start middle stop : ℕ} (hstart : start ≤ middle) (hstop : middle ≤ stop) :
    spanHeight elements width start (stop - start) =
      spanHeight elements width start (middle - start) +
        spanHeight elements width middle (stop - middle) := by
  have hcount : stop - start = middle - start + (stop - middle) := by omega
  rw [hcount, ← spanHeight_append, Nat.add_sub_cancel' hstart]

/-- The walk upward from an item stops at the item whose top is at or before the space, or at the
first one. The induction is on the number of items above. -/
theorem autoscrollAbove_spec {items : List (ListItem F)} {width : ℚ}
    (hexact : ExactHeights elements (some width) items) {start : ℕ} (hstart : start ≤ items.length)
    (height : ℚ) :
    let position := StateInner.autoscrollAbove elements width (items.take start).reverse height
    position.itemIx ≤ start ∧ 0 ≤ position.offsetInItem ∧
      (position.offsetInItem =
          spanHeight elements (some width) position.itemIx (start - position.itemIx) - height ∨
        position.offsetInItem = 0 ∧
          spanHeight elements (some width) position.itemIx (start - position.itemIx) < height) := by
  have hoffset : ∀ {height : ℚ}, ¬0 < height →
      (if height < 0 then -height else 0) = 0 - height := by
    intro height hheight
    split_ifs
    all_goals linarith
  induction start generalizing height with
  | zero =>
    change 0 ≤ 0 ∧ 0 ≤ (if height < 0 then -height else 0) ∧ _
    refine ⟨le_rfl, ?_, ?_⟩
    · split_ifs
      all_goals linarith
    · change (if height < 0 then -height else 0) = 0 - height ∨
        (if height < 0 then -height else 0) = 0 ∧ 0 < height
      by_cases hheight : 0 < height
      · exact .inr ⟨if_neg (not_lt.mpr hheight.le), hheight⟩
      · exact .inl (hoffset hheight)
  | succ start ih =>
    have hitem : items[start]? = some items[start] := List.getElem?_eq_getElem hstart
    rw [LayoutPass.reverse_take_succ hitem, StateInner.autoscrollAbove,
      LayoutPass.length_reverse_take (Nat.le_of_succ_le hstart)]
    split_ifs with hheight hneg
    · have hsize := hexact.getD hitem
      set size := items[start].size.getD (elements.size (some width) start)
      obtain ⟨hle, hnonneg, hcases⟩ := ih (Nat.le_of_succ_le hstart) (height - size.height)
      dsimp only
      set position := StateInner.autoscrollAbove elements width (items.take start).reverse
        (height - size.height)
      have hspan : spanHeight elements (some width) position.itemIx (start + 1 - position.itemIx) =
          spanHeight elements (some width) position.itemIx (start - position.itemIx) +
            size.height := by
        rw [spanHeight_split hle (Nat.le_add_right start 1), Nat.add_sub_cancel_left,
          spanHeight_succ, spanHeight_zero, add_zero, hsize]
      refine ⟨hle.trans (Nat.le_succ start), hnonneg, ?_⟩
      rw [hspan]
      rcases hcases with hoff | ⟨hoff, hless⟩
      · left
        linarith
      · right
        exact ⟨hoff, by linarith⟩
    all_goals
      dsimp only
      rw [Nat.sub_self, spanHeight_zero]
      exact ⟨le_rfl, by linarith, .inl (by linarith)⟩

/-! ## Where a layout has the items -/

/-- Where a layout has an item, from the top of the bounds. -/
def LayoutItemsResponse.topOf (layout : LayoutItemsResponse) (elements : Elements F)
    (width : Option ℚ) (padding : Edges) (ix : ℕ) : ℚ :=
  padding.top - layout.scrollTop.offsetInItem +
    spanHeight elements width layout.scrollTop.itemIx (ix - layout.scrollTop.itemIx)

/-- After the walk upward the rendered items end at the end of the viewport, or all items are shown
below the padding. -/
theorem LayoutPass.adjustScrollTop_offset (p : LayoutPass F) (alignment : ListAlignment)
    {availableHeight : ℚ} {first : ℕ}
    (hfills : availableHeight ≤ p.renderedHeight ∨ first = 0) :
    (p.adjustScrollTop availableHeight alignment first).scrollTop.offsetInItem =
        p.renderedHeight - availableHeight ∨
      first = 0 ∧ p.renderedHeight < availableHeight ∧
        (p.adjustScrollTop availableHeight alignment first).scrollTop.offsetInItem = 0 := by
  cases alignment with
  | bottom => exact .inl rfl
  | top =>
    by_cases hfull : availableHeight ≤ p.renderedHeight
    · exact .inl (max_eq_left (sub_nonneg.mpr hfull))
    · have hless := not_le.mp hfull
      exact .inr ⟨hfills.resolve_left hfull, hless, max_eq_right (sub_neg.mpr hless).le⟩

namespace StateInner

variable {s s' : StateInner F} {availableHeight : ℚ} {first count k : ℕ} {q : LayoutPass F}
  {layout : LayoutItemsResponse}

/-- With exact heights, what the first loop renders is no higher than all items from the scroll top
on. -/
theorem topPass_le (hexact : ExactHeights elements width s.items)
    (hposition : s.scrollTop.itemIx ≤ s.items.length) (availableHeight : ℚ) (padding : Edges) :
    (s.topPass elements width availableHeight padding).renderedHeight ≤ padding.top +
      padding.bottom +
        spanHeight elements width s.scrollTop.itemIx (s.items.length - s.scrollTop.itemIx) := by
  obtain ⟨hmeasures, -⟩ := topPass_spec elements width availableHeight padding hposition
  have hheights := topPass_measuresHeights hexact availableHeight padding
  have hbound := hmeasures.covers.bound
  rw [hmeasures.height, hheights.contentHeight]
  have := @spanHeight_le _ elements width s.scrollTop.itemIx _ _
    (show (s.topPass elements width availableHeight padding).measuredItems.length ≤
      s.items.length - s.scrollTop.itemIx by omega)
  linarith

/-- If the items from a visible top item on do not fill the viewport, all of them are rendered. -/
theorem LaysTop.eq_of_less
    (h : s.LaysTop elements width availableHeight padding count
      (s.topPass elements width availableHeight padding))
    (hskips : ¬s.SkipsTop elements width availableHeight padding) (hoverdraw : 0 ≤ s.overdraw)
    (hpadding : 0 ≤ padding.bottom)
    (hless : (s.topPass elements width availableHeight padding).visibleHeight < availableHeight) :
    s.scrollTop.itemIx + count = s.items.length ∧
      (s.topPass elements width availableHeight padding).renderedHeight = padding.top +
        spanHeight elements width s.scrollTop.itemIx (s.items.length - s.scrollTop.itemIx) +
          padding.bottom := by
  have hfirst : s.firstLaidOut elements width availableHeight padding = s.scrollTop.itemIx :=
    if_neg hskips
  have hbound := h.bound
  have hheight := h.height
  have hfills := h.fills hoverdraw
  have hreaches := h.reaches
  rw [hfirst] at hbound hfills hreaches hheight
  rw [Nat.sub_self, Nat.zero_add] at hfills hreaches hheight
  have hend : s.scrollTop.itemIx + count = s.items.length := by
    by_contra hend
    have hfill := hfills (by omega)
    rw [LayoutPass.visibleHeight, topPass_scrollTop, ← startOffset] at hless
    linarith
  refine ⟨hend, ?_⟩
  rw [hreaches hend, ← hend, Nat.add_sub_cancel_left]

/-- Where a layout has an item from the top item on: at the offset that the layout starts from if
the items fill the viewport, else above the end of the viewport, or below the padding if all items
are shown. -/
theorem LayoutOf.topOf (hs : s.Positioned) (hexact : ExactHeights elements width s.items)
    (hskips : ¬s.SkipsTop elements width availableHeight padding) (hoverdraw : 0 ≤ s.overdraw)
    (hpadding : 0 ≤ padding.bottom)
    (h : s.LayoutOf elements width availableHeight padding first q s' layout)
    (hbegin : s.scrollTop.itemIx ≤ k) (hk : k < s.items.length) :
    let offset := s.startOffset elements width availableHeight padding
    let before := spanHeight elements width s.scrollTop.itemIx (k - s.scrollTop.itemIx)
    let rest := spanHeight elements width k (s.items.length - k) + padding.bottom
    first ≤ k ∧
    ((layout.topOf elements width padding k = padding.top - offset + before ∧
        availableHeight ≤ padding.top - offset + before + rest) ∨
      (padding.top - offset + before + rest < availableHeight ∧
        (layout.topOf elements width padding k = availableHeight - rest ∨
          layout.topOf elements width padding k =
              padding.top + spanHeight elements width 0 k ∧
            padding.top + spanHeight elements width 0 k + rest < availableHeight))) := by
  intro offset before rest
  have hle := h.fills.le
  have hposition := hs.scrollTop_le
  have hsplit := @spanHeight_split _ elements width _ _ _ hbegin hk.le
  refine ⟨hle.trans hbegin, ?_⟩
  have hscroll : layout.scrollTop.itemIx = first := by rw [h.scrollTop, h.fills.itemIx]
  rcases h.fills.cases with ⟨rfl, hq, hfilled⟩ | ⟨hless, q', hup, hq⟩
  · left
    have hoffset : layout.scrollTop.offsetInItem = offset := by
      rw [h.scrollTop, hq, topPass_scrollTop, ← startOffset]
    have hmost := topPass_le hexact hposition availableHeight padding
    rw [LayoutPass.visibleHeight, topPass_scrollTop, ← startOffset] at hfilled
    rw [LayoutItemsResponse.topOf, hoffset, hscroll]
    refine ⟨rfl, ?_⟩
    simp only [rest, before, offset]
    linarith
  · right
    obtain ⟨count, hboth⟩ := h.fills.laysOutBoth hs
    obtain ⟨-, hrendered⟩ := hboth.top.eq_of_less hskips hoverdraw hpadding hless
    rw [LayoutPass.visibleHeight, topPass_scrollTop, ← startOffset, hrendered] at hless
    have hheight := hup.height
    have htotal := @spanHeight_split _ elements width _ _ _ hle hposition
    have habove := @spanHeight_split _ elements width _ _ _ (hle.trans hbegin) hk.le
    rw [hrendered] at hheight
    refine ⟨?_, ?_⟩
    · simp only [rest, before, offset]
      linarith
    rw [LayoutItemsResponse.topOf, hscroll, h.scrollTop, hq]
    rcases q'.adjustScrollTop_offset s.alignment hup.fills with hoffset | ⟨rfl, hless', hoffset⟩
    · left
      rw [hoffset, hheight]
      simp only [rest]
      linarith
    · right
      simp only [Nat.sub_zero] at habove htotal hheight ⊢
      rw [hoffset, sub_zero]
      refine ⟨rfl, ?_⟩
      simp only [rest]
      linarith

/-- An item that a layout has above the end of the viewport is placed there. -/
theorem LayoutOf.exists_placed (hs : s.Positioned) (hexact : ExactHeights elements width s.items)
    (hskips : ¬s.SkipsTop elements width availableHeight padding) (hoverdraw : 0 ≤ s.overdraw)
    (hpadding : 0 ≤ padding.bottom)
    (h : s.LayoutOf elements width availableHeight padding first q s' layout)
    (hbegin : s.scrollTop.itemIx ≤ k) (hk : k < s.items.length)
    (hvisible : layout.topOf elements width padding k < availableHeight) (x y : ℚ) :
    ∃ rect, (k, rect) ∈ placements x layout.itemLayouts
        (y + padding.top - layout.scrollTop.offsetInItem) ∧
      rect.origin.y = y + layout.topOf elements width padding k := by
  obtain ⟨hfirst, hcases⟩ := h.topOf hs hexact hskips hoverdraw hpadding hbegin hk
  obtain ⟨count, hboth⟩ := h.fills.laysOutBoth hs
  have hle := h.fills.le
  have hsum : first + (s.scrollTop.itemIx - first) = s.scrollTop.itemIx := by omega
  have hscroll : layout.scrollTop.itemIx = first := by rw [h.scrollTop, h.fills.itemIx]
  have hnext : s.firstLaidOut elements width availableHeight padding = s.scrollTop.itemIx :=
    if_neg hskips
  have hbound := hboth.top.bound
  have hfills := hboth.top.fills hoverdraw
  have hlayouts := hboth.layouts
  rw [hnext] at hbound hfills hlayouts
  rw [Nat.sub_self, Nat.zero_add] at hfills
  have hlt : k < s.scrollTop.itemIx + count := by
    by_contra hbehind
    have hfill := hfills (by omega)
    have hspan := @spanHeight_le _ elements width s.scrollTop.itemIx count
      (k - s.scrollTop.itemIx) (by omega)
    have hrest := @spanHeight_nonneg _ elements width k (s.items.length - k)
    rcases hcases with ⟨htop, -⟩ | ⟨hless, -⟩
    · linarith
    · linarith
  have hplaced : (k, (⟨⟨x, y + padding.top - layout.scrollTop.offsetInItem +
        spanHeight elements width first (k - first)⟩,
      ⟨(elements.size width k).width, (elements.size width k).height⟩⟩ : Bounds ℚ)) ∈
      placements x layout.itemLayouts (y + padding.top - layout.scrollTop.offsetInItem) := by
    have hrange : q.itemLayouts =
        layoutsOf elements width first (s.scrollTop.itemIx - first + count) := by
      rw [hlayouts, ← layoutsOf_append, hsum]
    rw [h.layouts, hrange, mem_placements_append, mem_placements_layoutsOf]
    exact .inl ⟨hfirst, by omega, rfl⟩
  refine ⟨_, hplaced, ?_⟩
  dsimp only
  rw [LayoutItemsResponse.topOf, hscroll]
  ring

end StateInner

/-! ## What is shown -/

namespace AutoscrollRequest

open StateInner

variable {r : AutoscrollRequest}

/-- A layout shows what a request asks for, moved with its item: it is inside the bounds, and the
item is placed there if it is not empty. -/
structure Shows (r : AutoscrollRequest) (elements : Elements F) (bounds : Bounds ℚ)
    (padding : Edges) (layout : LayoutItemsResponse) : Prop where
  top : 0 ≤ layout.topOf elements (some bounds.size.width) padding r.itemIx + (r.top - r.itemTop)
  bottom : layout.topOf elements (some bounds.size.width) padding r.itemIx +
    (r.bottom - r.itemTop) ≤ bounds.size.height
  placed : r.top < r.bottom → ∃ rect, (r.itemIx, rect) ∈ placements bounds.origin.x
      layout.itemLayouts (bounds.origin.y + padding.top - layout.scrollTop.offsetInItem) ∧
    rect.origin.y = bounds.origin.y +
      layout.topOf elements (some bounds.size.width) padding r.itemIx

/-- A position shows what a request asks for: it is not so far up that the end is below the bounds,
and not so far down that the start is above them, unless the items end before that. -/
structure ShownFrom (r : AutoscrollRequest) (elements : Elements F) (bounds : Bounds ℚ)
    (padding : Edges) (itemCount : ℕ) (position : ListOffset) : Prop where
  bottom : padding.top + spanHeight elements (some bounds.size.width) position.itemIx
    (r.itemIx - position.itemIx) + (r.bottom - r.itemTop) ≤
      bounds.size.height + position.offsetInItem
  top : position.offsetInItem ≤ padding.top + spanHeight elements (some bounds.size.width)
      position.itemIx (r.itemIx - position.itemIx) + (r.top - r.itemTop) ∨
    spanHeight elements (some bounds.size.width) r.itemIx (itemCount - r.itemIx) +
      padding.bottom ≤ bounds.size.height + (r.top - r.itemTop)

/-- The position that answers a request is at or before its item, and it shows what is asked for. -/
theorem shownFrom_answer {items : List (ListItem F)}
    (hexact : ExactHeights elements (some bounds.size.width) items)
    (hpadding : 0 ≤ padding.top ∧ 0 ≤ padding.bottom) (hr : r.Inside elements bounds padding)
    (hindex : r.itemIx < items.length) :
    (r.answer elements items bounds padding).itemIx ≤ r.itemIx ∧
      0 ≤ (r.answer elements items bounds padding).offsetInItem ∧
      r.ShownFrom elements bounds padding items.length
        (r.answer elements items bounds padding) := by
  obtain ⟨htop, hordered, hbottom, hfits⟩ := hr
  unfold answer
  split_ifs with habove
  · refine ⟨le_rfl, sub_nonneg.mpr htop, ?_, .inl ?_⟩
    all_goals
      dsimp only
      rw [Nat.sub_self, spanHeight_zero]
      linarith
  · obtain ⟨hle, hnonneg, hcases⟩ := autoscrollAbove_spec hexact hindex.le
      (bounds.size.height - padding.top - padding.bottom - (r.bottom - r.itemTop))
    set position := autoscrollAbove elements bounds.size.width (items.take r.itemIx).reverse
      (bounds.size.height - padding.top - padding.bottom - (r.bottom - r.itemTop))
    have hspan := @spanHeight_nonneg _ elements (some bounds.size.width) position.itemIx
      (r.itemIx - position.itemIx)
    refine ⟨hle, hnonneg, ?_, .inl ?_⟩
    all_goals
      rcases hcases with hoffset | ⟨hoffset, hless⟩
      all_goals linarith

end AutoscrollRequest

namespace StateInner

variable {s s' : StateInner F} {first count k : ℕ} {q : LayoutPass F}
  {layout : LayoutItemsResponse} {r : AutoscrollRequest}

/-- A layout from the top of an item shows a request exactly if the offset that it starts from
does. -/
theorem LayoutOf.shows_iff (hs : s.Positioned)
    (hexact : ExactHeights elements (some bounds.size.width) s.items) (hoverdraw : 0 ≤ s.overdraw)
    (hpadding : 0 ≤ padding.top ∧ 0 ≤ padding.bottom)
    (hspace : padding.top + padding.bottom < bounds.size.height)
    (hoffset : 0 ≤ s.scrollTop.offsetInItem)
    (h : s.LayoutOf elements (some bounds.size.width) bounds.size.height padding first q s' layout)
    (hr : r.Inside elements bounds padding) (hbegin : s.scrollTop.itemIx ≤ r.itemIx)
    (hindex : r.itemIx < s.items.length) :
    r.Shows elements bounds padding layout ↔
      r.ShownFrom elements bounds padding s.items.length
        ⟨s.scrollTop.itemIx,
          s.startOffset elements (some bounds.size.width) bounds.size.height padding⟩ := by
  have hskips : ¬s.SkipsTop elements (some bounds.size.width) bounds.size.height padding := by
    rintro ⟨-, hhidden, -⟩
    linarith
  obtain ⟨hfirst, hcases⟩ :=
    h.topOf hs hexact hskips hoverdraw hpadding.2 hbegin hindex
  obtain ⟨htop, hordered, hbottom, hfits⟩ := hr
  -- the item is a part of the rest
  have hrest : (elements.size (some bounds.size.width) r.itemIx).height ≤
      spanHeight elements (some bounds.size.width) r.itemIx (s.items.length - r.itemIx) := by
    rw [spanHeight_of_lt hindex]
    exact le_add_of_nonneg_right (spanHeight_nonneg _ _)
  have hbefore := @spanHeight_nonneg _ elements (some bounds.size.width) s.scrollTop.itemIx
    (r.itemIx - s.scrollTop.itemIx)
  have habove := @spanHeight_nonneg _ elements (some bounds.size.width) 0 r.itemIx
  constructor
  · rintro ⟨hfrom, hto, -⟩
    constructor
    · dsimp only
      rcases hcases with ⟨hequal, -⟩ | ⟨hless, -⟩
      · linarith
      · linarith
    · dsimp only
      rcases hcases with ⟨hequal, -⟩ | ⟨hless, hequal | ⟨-, hall⟩⟩
      · exact .inl (by linarith)
      · exact .inr (by linarith)
      · exact .inr (by linarith)
  · rintro ⟨hto, hfrom⟩
    dsimp only at hto hfrom
    have hend : layout.topOf elements (some bounds.size.width) padding r.itemIx +
        (r.bottom - r.itemTop) ≤ bounds.size.height := by
      rcases hcases with ⟨hequal, -⟩ | ⟨-, hequal | ⟨hequal, hall⟩⟩
      all_goals linarith
    refine ⟨?_, hend, fun hnonempty => ?_⟩
    · rcases hcases with ⟨hequal, hfilled⟩ | ⟨hless, hequal | ⟨hequal, -⟩⟩
      · rcases hfrom with hfrom | hfrom
        all_goals linarith
      · rcases hfrom with hfrom | hfrom
        all_goals linarith
      · linarith
    · exact h.exists_placed hs hexact hskips hoverdraw hpadding.2 hbegin hindex (by linarith) _ _

/-! ## The two passes -/

/-- The request that a prepaint of the items honors. -/
def honoredRequest (s : StateInner F) (elements : Elements F) (bounds : Bounds ℚ)
    (padding : Edges) : Option AutoscrollRequest :=
  let s := s.layoutAllItems elements bounds.size.width
  let (_, layout) := s.layoutItems elements (some bounds.size.width) bounds.size.height padding
  if bounds.size.height > padding.top + padding.bottom then
    AutoscrollRequest.honored elements bounds layout.itemLayouts
      (bounds.origin.y + padding.top - layout.scrollTop.offsetInItem)
  else none

/-- A prepaint of the items fails with the answer to the request that it honors. -/
theorem prepaintItems_snd (s : StateInner F) (elements : Elements F) (bounds : Bounds ℚ)
    (padding : Edges) {position : ListOffset}
    (h : s.prepaintItems elements bounds padding true = (s', .error position))
    (hrequest : s.honoredRequest elements bounds padding = some r) :
    padding.top + padding.bottom < bounds.size.height ∧
      position = r.answer elements s'.items bounds padding := by
  unfold StateInner.prepaintItems at h
  unfold honoredRequest at hrequest
  dsimp only at h hrequest
  by_cases hspace : bounds.size.height > padding.top + padding.bottom
  swap
  · rw [if_neg hspace] at hrequest
    cases hrequest
  rw [if_pos hspace] at h hrequest
  obtain ⟨hfirst, hsecond⟩ := Prod.mk.inj h
  rw [if_pos rfl] at hsecond
  refine ⟨hspace, ?_⟩
  rw [AutoscrollRequest.autoscrollRequest_eq, hrequest, hfirst] at hsecond
  exact (Except.error.inj hsecond).symm

theorem layoutAllItems_exact {width : ℚ}
    (h : ExactHeights elements (some width) s.items) :
    ExactHeights elements (some width) (s.layoutAllItems elements width).items := by
  unfold StateInner.layoutAllItems
  split
  · intro ix item size hitem hsize
    dsimp only at hitem
    rw [List.getElem?_mapIdx] at hitem
    obtain ⟨old, hold, rfl⟩ := Option.map_eq_some_iff.mp hitem
    obtain rfl := Option.some.inj hsize
    exact h.getD hold
  · exact h

theorem layoutItems_overdraw (s : StateInner F) (elements : Elements F) (width : Option ℚ)
    (availableHeight : ℚ) (padding : Edges) :
    (s.layoutItems elements width availableHeight padding).1.overdraw = s.overdraw := rfl

theorem layoutAllItems_overdraw (s : StateInner F) (elements : Elements F) (width : ℚ) :
    (s.layoutAllItems elements width).overdraw = s.overdraw := by
  unfold StateInner.layoutAllItems
  split
  all_goals rfl

/-- A visible top item takes up a pending fraction. -/
theorem startOffset_of_visible {availableHeight : ℚ} {width : Option ℚ}
    (hlt : s.scrollTop.itemIx < s.items.length) (hoverdraw : 0 ≤ s.overdraw)
    (hvisible : padding.top - s.scrollTop.offsetInItem < availableHeight) :
    s.startOffset elements width availableHeight padding =
      s.pendingFraction.elim s.scrollTop.offsetInItem
        (· * (elements.size width s.scrollTop.itemIx).height) := by
  have hrenders : s.rendersTop availableHeight padding = true := by
    have hdraws : padding.top - s.scrollTop.offsetInItem < availableHeight + s.overdraw := by
      linarith
    simp [rendersTop, List.getElem?_eq_getElem hlt, hvisible, hdraws]
  unfold startOffset startPosition
  cases s.pendingFraction with
  | none => rfl
  | some fraction =>
    dsimp only
    rw [if_pos hrenders]
    rfl

/-- What a prepaint of the items leaves: the position is one of the items, their heights are exact,
and the item whose request is honored is one of them. -/
theorem Positioned.prepaintItems_keeps (hs : s.Positioned)
    (hexact : ExactHeights elements (some bounds.size.width) s.items) (autoscroll : Bool) :
    (s.prepaintItems elements bounds padding autoscroll).1.Positioned ∧
      ExactHeights elements (some bounds.size.width)
        (s.prepaintItems elements bounds padding autoscroll).1.items ∧
      (s.prepaintItems elements bounds padding autoscroll).1.overdraw = s.overdraw ∧
      ∀ r, s.honoredRequest elements bounds padding = some r →
        r.itemIx < (s.prepaintItems elements bounds padding autoscroll).1.items.length := by
  have hall := hs.layoutAllItems elements bounds.size.width
  obtain ⟨first, q, -, hlayout, hreplaces⟩ := exists_replaces hall.scrollTop_le elements
    (some bounds.size.width) bounds.size.height padding
  rw [prepaintItems_fst]
  refine ⟨hlayout.positioned hall, (hreplaces.heights (layoutAllItems_exact hexact)).2, ?_,
    fun r hrequest => ?_⟩
  · rw [layoutItems_overdraw, layoutAllItems_overdraw]
  · unfold honoredRequest at hrequest
    dsimp only at hrequest
    split_ifs at hrequest
    obtain ⟨item, hitem, hindex⟩ := AutoscrollRequest.itemIx_of_honored hrequest
    rw [hlayout.length, ← hindex]
    exact hlayout.index_lt hall hitem

/-- A prepaint from the top of an item shows a request exactly if the position does, or what a
pending fraction makes of it. -/
theorem prepaintItems_shows_iff {second : StateInner F} {position : ListOffset}
    (hs : s.Positioned) (hexact : ExactHeights elements (some bounds.size.width) s.items)
    (hoverdraw : 0 ≤ s.overdraw) (hpadding : 0 ≤ padding.top ∧ 0 ≤ padding.bottom)
    (hspace : padding.top + padding.bottom < bounds.size.height)
    (hposition : s.logicalScrollTop = some position) (hoffset : 0 ≤ position.offsetInItem)
    (hr : r.Inside elements bounds padding) (hbegin : position.itemIx ≤ r.itemIx)
    (hindex : r.itemIx < s.items.length)
    (hprepaint : s.prepaintItems elements bounds padding false = (second, .ok layout)) :
    r.Shows elements bounds padding layout ↔
      r.ShownFrom elements bounds padding s.items.length
        ⟨position.itemIx, s.pendingFraction.elim position.offsetInItem
          (· * (elements.size (some bounds.size.width) position.itemIx).height)⟩ := by
  obtain ⟨hlength, hsame, hpending⟩ := s.layoutAllItems_same elements bounds.size.width
  have hall := hs.layoutAllItems elements bounds.size.width
  have hscroll : s.scrollTop = position := by rw [scrollTop, hposition, Option.getD_some]
  have htop : (s.layoutAllItems elements bounds.size.width).scrollTop = position := by
    rw [scrollTop, hsame, hposition, Option.getD_some]
  have hfraction : (s.layoutAllItems elements bounds.size.width).pendingFraction =
      s.pendingFraction := by
    rw [pendingFraction, pendingFraction, hpending, htop, hscroll]
  obtain ⟨first, q, hlayout⟩ := layoutItems_spec elements (some bounds.size.width)
    bounds.size.height padding hall.scrollTop_le
  have hresponse : layout = ((s.layoutAllItems elements bounds.size.width).layoutItems elements
      (some bounds.size.width) bounds.size.height padding).2 := by
    unfold StateInner.prepaintItems at hprepaint
    dsimp only at hprepaint
    rw [if_pos hspace, if_neg Bool.false_ne_true] at hprepaint
    exact (Except.ok.inj (Prod.mk.inj hprepaint).2).symm
  have hvisible : padding.top - position.offsetInItem < bounds.size.height := by linarith
  have hshows := hlayout.shows_iff hall (layoutAllItems_exact hexact)
    (hoverdraw.trans_eq (s.layoutAllItems_overdraw elements _).symm) hpadding hspace
    (by rwa [htop]) hr (by rwa [htop]) (by rwa [hlength])
  rw [startOffset_of_visible (by rw [htop, hlength]; omega)
    (hoverdraw.trans_eq (s.layoutAllItems_overdraw elements _).symm) (by rwa [htop]), htop,
    hfraction, hlength] at hshows
  rwa [hresponse]

/-- The second pass of a prepaint shows what is asked for, exactly if no pending fraction is left
for the item that it starts from, or the offset that the fraction gives shows it too. -/
theorem autoscroll_shows_iff {first second : StateInner F} {position : ListOffset}
    (hreachable : Reachable s)
    (hexact : ExactHeights elements (some bounds.size.width) (s.beginPrepaint bounds).items)
    (hoverdraw : 0 ≤ s.overdraw) (hpadding : 0 ≤ padding.top ∧ 0 ≤ padding.bottom)
    (hrequest : (s.beginPrepaint bounds).honoredRequest elements bounds padding = some r)
    (hinside : r.Inside elements bounds padding)
    (hfirst : (s.beginPrepaint bounds).prepaintItems elements bounds padding true =
      (first, .error position))
    (hsecond : { first with logicalScrollTop := some position }.prepaintItems elements bounds
      padding false = (second, .ok layout)) :
    r.Shows elements bounds padding layout ↔
      ∀ fraction, { first with logicalScrollTop := some position }.pendingFraction =
          some fraction →
        r.ShownFrom elements bounds padding first.items.length
          ⟨position.itemIx,
            fraction * (elements.size (some bounds.size.width) position.itemIx).height⟩ := by
  have hs := hreachable.positioned.beginPrepaint bounds
  obtain ⟨hspace, hposition⟩ := prepaintItems_snd _ _ _ _ hfirst hrequest
  obtain ⟨hkept, hexactFirst, hsame, hindex⟩ := hs.prepaintItems_keeps hexact true
  have hle := (hs.prepaintItems elements bounds padding true).2.2 position
  rw [hfirst] at hkept hexactFirst hsame hindex hle
  obtain ⟨hbegin, hoffset, hanswer⟩ :=
    AutoscrollRequest.shownFrom_answer hexactFirst hpadding hinside (hindex r hrequest)
  rw [← hposition] at hbegin hoffset hanswer
  have hkeptOverdraw : (s.beginPrepaint bounds).overdraw = s.overdraw := by
    unfold StateInner.beginPrepaint
    dsimp only
    split_ifs
    all_goals rfl
  rw [prepaintItems_shows_iff (hkept.set (hle rfl)) hexactFirst
    (hoverdraw.trans_eq (hsame.trans hkeptOverdraw).symm) hpadding hspace rfl hoffset hinside
    hbegin (hindex r hrequest) hsecond]
  cases hpending : { first with logicalScrollTop := some position }.pendingFraction with
  | none => exact iff_of_true hanswer (by simp)
  | some fraction => simp

/-- Elements of ten pixels; the second one asks for its upper half. -/
def askingElements : Elements Empty :=
  ⟨fun _ _ => .ten, fun _ => false, fun ix y => if ix = 1 then some (y, y + 5) else none⟩

/-- Three such items in a viewport of fifteen pixels that is to show their end, with a fraction of
the second one. -/
def itemsToEnd (fraction : ℚ) : StateInner Empty :=
  ⟨some ⟨⟨0, 0⟩, ⟨10, 15⟩⟩, some ⟨0, 0⟩, [.unmeasured none, .unmeasured none, .unmeasured none],
    some ⟨3, 0⟩, .top, 0, false, false, none, .visible, some ⟨1, fraction⟩⟩

/-- The calls that lead to these items, from an offset in the second one. -/
def callsToEnd (offset : ℚ) : List (ListCall Empty) :=
  [.prepaint (.uniform _ .ten) ⟨⟨0, 0⟩, ⟨10, 15⟩⟩ ⟨0, 0⟩, .scrollTo ⟨1, offset⟩, .remeasure,
    .scrollTo ⟨3, 0⟩]

/-- The items after a layout at their end. -/
def itemsAtEnd (fraction : ℚ) : StateInner Empty :=
  { itemsToEnd fraction with
    items := [.unmeasured none, .measured .ten none, .measured .ten none]
    logicalScrollTop := some ⟨1, 5⟩ }

theorem exactHeights_beginPrepaint_itemsToEnd (fraction : ℚ) :
    ExactHeights askingElements (some 10)
      ((itemsToEnd fraction).beginPrepaint ⟨⟨0, 0⟩, ⟨10, 15⟩⟩).items := by
  intro ix item size hitem hsize
  have hmem : item ∈ [.unmeasured none, .unmeasured none, .unmeasured none] :=
    List.mem_of_getElem? hitem
  obtain rfl : item = .unmeasured none := by simpa using hmem
  cases hsize

theorem inside_upperHalf :
    (⟨1, -5, -5, 0⟩ : AutoscrollRequest).Inside askingElements ⟨⟨0, 0⟩, ⟨10, 15⟩⟩ ⟨0, 0⟩ := by
  constructor
  all_goals decide +kernel

/-- A fraction of zero leaves the upper half of the second item to be shown. -/
theorem autoscroll_shows_upperHalf :
    ∃ second layout, { itemsAtEnd 0 with logicalScrollTop := some ⟨1, 0⟩ }.prepaintItems
        askingElements ⟨⟨0, 0⟩, ⟨10, 15⟩⟩ ⟨0, 0⟩ false = (second, .ok layout) ∧
      (⟨1, -5, -5, 0⟩ : AutoscrollRequest).Shows askingElements ⟨⟨0, 0⟩, ⟨10, 15⟩⟩ ⟨0, 0⟩
        layout := by
  have hcalls : (new 3 .top 0).bind (Foundation.execute call InRange · (callsToEnd 0)) =
      some (itemsToEnd 0) := by decide +kernel
  have hfirst : ((itemsToEnd 0).beginPrepaint ⟨⟨0, 0⟩, ⟨10, 15⟩⟩).prepaintItems askingElements
      ⟨⟨0, 0⟩, ⟨10, 15⟩⟩ ⟨0, 0⟩ true = (itemsAtEnd 0, .error ⟨1, 0⟩) := by decide +kernel
  have hsecond : { itemsAtEnd 0 with logicalScrollTop := some ⟨1, 0⟩ }.prepaintItems
      askingElements ⟨⟨0, 0⟩, ⟨10, 15⟩⟩ ⟨0, 0⟩ false =
        ({ itemsAtEnd 0 with logicalScrollTop := some ⟨1, 0⟩, pendingScroll := none },
          .ok ⟨10, ⟨1, 0⟩, [⟨1, .ten⟩, ⟨2, .ten⟩]⟩) := by decide +kernel
  refine ⟨_, _, hsecond, (autoscroll_shows_iff (reachable_of_execute hcalls)
    (exactHeights_beginPrepaint_itemsToEnd 0) le_rfl ⟨le_rfl, le_rfl⟩ (by decide +kernel)
    inside_upperHalf hfirst hsecond).mpr fun fraction hfraction => ?_⟩
  obtain rfl := Option.some.inj hfraction
  exact ⟨by decide +kernel, .inl (by decide +kernel)⟩

/-- A fraction of one, which a scroll to the end has left, hides the upper half again. -/
theorem not_autoscroll_shows_upperHalf : Reachable (itemsToEnd 1) ∧
    ExactHeights askingElements (some 10)
      ((itemsToEnd 1).beginPrepaint ⟨⟨0, 0⟩, ⟨10, 15⟩⟩).items ∧
    (⟨1, -5, -5, 0⟩ : AutoscrollRequest).Inside askingElements ⟨⟨0, 0⟩, ⟨10, 15⟩⟩ ⟨0, 0⟩ ∧
    ((itemsToEnd 1).beginPrepaint ⟨⟨0, 0⟩, ⟨10, 15⟩⟩).honoredRequest askingElements
      ⟨⟨0, 0⟩, ⟨10, 15⟩⟩ ⟨0, 0⟩ = some ⟨1, -5, -5, 0⟩ ∧
    ((itemsToEnd 1).beginPrepaint ⟨⟨0, 0⟩, ⟨10, 15⟩⟩).prepaintItems askingElements
      ⟨⟨0, 0⟩, ⟨10, 15⟩⟩ ⟨0, 0⟩ true = (itemsAtEnd 1, .error ⟨1, 0⟩) ∧
    ∃ second layout, { itemsAtEnd 1 with logicalScrollTop := some ⟨1, 0⟩ }.prepaintItems
        askingElements ⟨⟨0, 0⟩, ⟨10, 15⟩⟩ ⟨0, 0⟩ false = (second, .ok layout) ∧
      ¬(⟨1, -5, -5, 0⟩ : AutoscrollRequest).Shows askingElements ⟨⟨0, 0⟩, ⟨10, 15⟩⟩ ⟨0, 0⟩
        layout := by
  have hcalls : (new 3 .top 0).bind (Foundation.execute call InRange · (callsToEnd 10)) =
      some (itemsToEnd 1) := by decide +kernel
  have hsecond : { itemsAtEnd 1 with logicalScrollTop := some ⟨1, 0⟩ }.prepaintItems
      askingElements ⟨⟨0, 0⟩, ⟨10, 15⟩⟩ ⟨0, 0⟩ false =
        ({ itemsAtEnd 1 with logicalScrollTop := some ⟨1, 5⟩, pendingScroll := none },
          .ok ⟨10, ⟨1, 5⟩, [⟨1, .ten⟩, ⟨2, .ten⟩]⟩) := by decide +kernel
  refine ⟨reachable_of_execute hcalls, exactHeights_beginPrepaint_itemsToEnd 1, inside_upperHalf,
    by decide +kernel, by decide +kernel, _, _, hsecond, fun hshows => ?_⟩
  have htop := hshows.top
  revert htop
  decide +kernel

end StateInner

end Lucie.ItemList
