import Lucie.ItemList.Positioned

/-!
# What a layout lays out

A layout keeps the items. It lays out a range of them that begins at its scroll top, and perhaps
a focused item outside this range. The exception is a hidden top item without a size: if a pending
fraction moves it into the viewport, it is measured but not laid out.
-/

set_option autoImplicit false

namespace Lucie.ItemList.StateInner

variable {F : Type} {s s' : StateInner F} {elements : Elements F} {width : Option ℚ}
  {availableHeight : ℚ} {padding : Edges} {first count start : ℕ} {q : LayoutPass F}
  {layout : LayoutItemsResponse}

/-- The layout of an item outside a range that contains the focus. -/
structure FocusedOutside (s : StateInner F) (elements : Elements F) (width : Option ℚ)
    (start count : ℕ) (item : ItemLayout) : Prop where
  outside : item.index < start ∨ start + count ≤ item.index
  size : item.size = elements.size width item.index
  focused : ∃ listItem, s.items[item.index]? = some listItem ∧
    listItem.containsFocused elements = true

/-- A layout keeps the number, the order and the focus handles of the items, and its scroll top is
at one of them or at their end. What it lays out is a range of items, followed by at most one
focused item. If the list is aligned to the top, the range begins at the scroll top and fills the
viewport or reaches the last item. -/
structure LaysOut (s : StateInner F) (elements : Elements F) (width : Option ℚ)
    (availableHeight : ℚ) (padding : Edges) (s' : StateInner F) (layout : LayoutItemsResponse) :
    Prop where
  handles : s'.items.map ListItem.focusHandle = s.items.map ListItem.focusHandle
  scrollTop : layout.scrollTop.itemIx ≤ s'.items.length
  layouts : ∃ (start count : ℕ) (extra : Option ItemLayout),
    layout.itemLayouts = layoutsOf elements width start count ++ extra.toList ∧
    start + count ≤ s'.items.length ∧
    (∀ item, extra = some item → s.FocusedOutside elements width start count item) ∧
    (s.alignment = .top → start = layout.scrollTop.itemIx ∧
      (start + count = s'.items.length ∨
        availableHeight ≤ padding.top + spanHeight elements width start count -
          layout.scrollTop.offsetInItem))

/-- A pending fraction may move the hidden top item into the viewport. If the list is aligned to
the bottom, this matters only if the items around it may be laid out too. -/
def TakesUpBelow (s : StateInner F) (availableHeight : ℚ) (padding : Edges) : Prop :=
  s.rendersTop availableHeight padding = true ∧
    availableHeight ≤ padding.top - s.scrollTop.offsetInItem ∧
    ∃ fraction, s.pendingFraction = some fraction ∧
      match s.alignment with
      | .top => 0 < fraction ∨ padding.top < availableHeight
      | .bottom => 0 < s.scrollTop.itemIx ∧ s.scrollTop.itemIx + 1 < s.items.length ∧
          padding.top < availableHeight ∧ padding.top + padding.bottom < availableHeight

/-! ## Layouts without a gap -/

/-- A layout whose passes lay out a range of items. -/
theorem LayoutOf.laysOut (hs : s.Positioned)
    (h : s.LayoutOf elements width availableHeight padding first q s' layout) (start count : ℕ)
    (hlayouts : q.itemLayouts = layoutsOf elements width start count)
    (hbound : start + count ≤ s.items.length)
    (hfocus : FocusIn elements s.items start count → q.renderedFocusedItem = true)
    (htop : s.alignment = .top → start = first ∧ (start + count = s.items.length ∨
      availableHeight ≤ padding.top + spanHeight elements width start count -
        q.scrollTop.offsetInItem)) :
    s.LaysOut elements width availableHeight padding s' layout := by
  have hscroll : layout.scrollTop.itemIx = first := by rw [h.scrollTop, h.fills.itemIx]
  refine ⟨h.handles, ?_, start, count,
    if q.renderedFocusedItem then none else s.focusedLayout elements width, ?_, ?_, ?_, ?_⟩
  · rw [hscroll, h.length]
    exact h.fills.le.trans hs.scrollTop_le
  · rw [h.layouts, hlayouts]
    split_ifs
    all_goals rfl
  · rwa [h.length]
  · intro item hitem
    split_ifs at hitem with hrendered
    obtain ⟨hsize, listItem, hget, hcontains⟩ := focusedLayout_eq_some hitem
    refine ⟨?_, hsize, listItem, hget, hcontains⟩
    by_contra hinside
    exact hrendered (hfocus ⟨item.index, listItem, by omega, by omega, hget, hcontains⟩)
  · rwa [h.length, hscroll, h.scrollTop]

/-- From a visible top item on, the layouts fill the viewport or reach the last item. -/
theorem Fills.reaches
    (h : s.Fills elements width availableHeight padding first q)
    (hlays : s.LaysTop elements width availableHeight padding count
      (s.topPass elements width availableHeight padding))
    (hfirst : s.firstLaidOut elements width availableHeight padding = s.scrollTop.itemIx)
    (hoverdraw : 0 ≤ s.overdraw) (hpadding : 0 ≤ padding.bottom) :
    s.scrollTop.itemIx + count = s.items.length ∨
      (first = s.scrollTop.itemIx ∧
        availableHeight ≤ padding.top + spanHeight elements width s.scrollTop.itemIx count -
          q.scrollTop.offsetInItem) := by
  have hbound := hlays.bound
  have hspan := hlays.height
  have hfill := hlays.fills hoverdraw
  rw [hfirst] at hbound hfill
  rw [hfirst, Nat.sub_self, Nat.zero_add] at hspan
  rw [Nat.sub_self, Nat.zero_add] at hfill
  have hoffset : (s.topPass elements width availableHeight padding).scrollTop.offsetInItem =
      s.startOffset elements width availableHeight padding := by
    rw [topPass_scrollTop, startOffset]
  by_cases hend : s.scrollTop.itemIx + count = s.items.length
  · exact .inl hend
  right
  have hreach := hfill (by omega)
  rcases h.cases with ⟨hsame, hq, -⟩ | ⟨hless, -⟩
  · exact ⟨hsame, by rwa [hq, hoffset]⟩
  · -- the bottom padding is below the items that fill the viewport
    rw [LayoutPass.visibleHeight, hoffset] at hless
    linarith

/-- A layout from a visible top item on. -/
theorem LayoutOf.laysOut_of_not_skipsTop (hs : s.Positioned)
    (h : s.LayoutOf elements width availableHeight padding first q s' layout)
    (hskips : ¬s.SkipsTop elements width availableHeight padding)
    (hnonneg : s.alignment = .top → 0 ≤ s.overdraw ∧ 0 ≤ padding.bottom) :
    s.LaysOut elements width availableHeight padding s' layout := by
  obtain ⟨count, hboth⟩ := h.fills.laysOutBoth hs
  have hfirst : s.firstLaidOut elements width availableHeight padding = s.scrollTop.itemIx :=
    if_neg hskips
  have hle := h.fills.le
  have hsum : first + (s.scrollTop.itemIx - first) = s.scrollTop.itemIx := by omega
  have hlayouts := hboth.layouts
  have hfocused := hboth.focused
  have hbound := hboth.top.bound
  rw [hfirst] at hlayouts hfocused hbound
  refine h.laysOut hs first (s.scrollTop.itemIx - first + count) ?_ ?_ ?_ ?_
  · rw [hlayouts, ← layoutsOf_append, hsum]
  · omega
  · intro hfocus
    rw [focusIn_append, hsum] at hfocus
    exact hfocused.mpr hfocus
  · intro halignment
    obtain ⟨hoverdraw, hpadding⟩ := hnonneg halignment
    refine ⟨rfl, ?_⟩
    rcases h.fills.reaches hboth.top hfirst hoverdraw hpadding with hend | ⟨hsame, hreach⟩
    · left
      omega
    · right
      rwa [hsame, Nat.sub_self, Nat.zero_add]

/-! ## The hidden top item -/

/-- Only a pending fraction moves a hidden top item into the viewport. -/
theorem SkipsTop.pendingFraction (h : s.SkipsTop elements width availableHeight padding) :
    s.rendersTop availableHeight padding = true ∧ ∃ fraction, s.pendingFraction = some fraction ∧
      s.startOffset elements width availableHeight padding =
        fraction * (elements.size width s.scrollTop.itemIx).height := by
  obtain ⟨-, hhidden, hvisible⟩ := h
  have hmoved : s.startOffset elements width availableHeight padding ≠
      s.scrollTop.offsetInItem := by
    intro hsame
    rw [hsame] at hvisible
    exact absurd hvisible (not_lt.mpr hhidden)
  unfold startOffset startPosition at hmoved ⊢
  cases hfraction : s.pendingFraction with
  | none => simp [hfraction] at hmoved
  | some fraction =>
    rw [hfraction] at hmoved
    dsimp only at hmoved ⊢
    split_ifs at hmoved ⊢ with hrenders
    · exact ⟨hrenders, fraction, rfl, rfl⟩
    · exact absurd rfl hmoved

theorem visible_of_rendersTop (h : s.rendersTop availableHeight padding = true) :
    padding.top - s.scrollTop.offsetInItem < availableHeight + s.overdraw := by
  obtain ⟨item, -, hrenders⟩ := (Option.any_eq_true _ _).mp h
  exact of_decide_eq_true (Bool.and_eq_true_iff.mp hrenders).1

/-- With some heights a pending fraction does so. -/
theorem skipsTop_of_fraction {fraction : ℚ} (hfraction : s.pendingFraction = some fraction)
    (hrenders : s.rendersTop availableHeight padding = true)
    (hhidden : availableHeight ≤ padding.top - s.scrollTop.offsetInItem)
    (hvisible : padding.top - fraction * (elements.size width s.scrollTop.itemIx).height <
      availableHeight) : s.SkipsTop elements width availableHeight padding := by
  refine ⟨?_, hhidden, ?_⟩
  · by_contra hend
    rw [rendersTop, List.getElem?_eq_none_iff.mpr (not_lt.mp hend)] at hrenders
    cases hrenders
  · unfold startOffset startPosition
    rw [hfraction]
    dsimp only
    rwa [if_pos hrenders]

theorem Positioned.pendingFraction (hs : s.Positioned) {fraction : ℚ}
    (h : s.pendingFraction = some fraction) : 0 ≤ fraction ∧ fraction ≤ 1 := by
  obtain ⟨pending, hpending, hfraction⟩ := Option.bind_eq_some_iff.mp h
  split_ifs at hfraction
  obtain rfl := Option.some.inj hfraction
  exact hs.fraction pending hpending

/-- The layouts from the scroll top up and those behind a hidden top item. -/
theorem LaysOutBoth.of_skipsTop
    (h : s.LaysOutBoth elements width availableHeight padding first count q)
    (hskips : s.SkipsTop elements width availableHeight padding) :
    q.itemLayouts = layoutsOf elements width first (s.scrollTop.itemIx - first) ++
        layoutsOf elements width (s.scrollTop.itemIx + 1) count ∧
      s.scrollTop.itemIx + 1 + count ≤ s.items.length ∧
      (q.renderedFocusedItem = true ↔
        FocusIn elements s.items first (s.scrollTop.itemIx - first) ∨
          FocusIn elements s.items (s.scrollTop.itemIx + 1) count) := by
  have hfirst : s.firstLaidOut elements width availableHeight padding = s.scrollTop.itemIx + 1 :=
    if_pos hskips
  have hlayouts := h.layouts
  have hbound := h.top.bound
  have hfocused := h.focused
  rw [hfirst] at hlayouts hbound hfocused
  exact ⟨hlayouts, hbound, hfocused⟩

/-- If the list is aligned to the bottom, layouts on one side of the hidden top item are a
range. -/
theorem LayoutOf.laysOut_of_skipsTop (hs : s.Positioned)
    (h : s.LayoutOf elements width availableHeight padding first q s' layout)
    (hskips : s.SkipsTop elements width availableHeight padding)
    (hboth : s.LaysOutBoth elements width availableHeight padding first count q)
    (hbottom : s.alignment = .bottom) (hside : first = s.scrollTop.itemIx ∨ count = 0) :
    s.LaysOut elements width availableHeight padding s' layout := by
  obtain ⟨hlayouts, hbound, hfocused⟩ := hboth.of_skipsTop hskips
  have hnot : s.alignment ≠ .top := by
    rw [hbottom]
    exact ListAlignment.noConfusion
  have hle := h.fills.le
  rcases hside with hsame | rfl
  · refine h.laysOut hs _ count ?_ hbound (fun hfocus => hfocused.mpr (.inr hfocus))
      fun halignment => absurd halignment hnot
    rw [hlayouts, hsame, Nat.sub_self]
    rfl
  · refine h.laysOut hs first (s.scrollTop.itemIx - first) ?_ (by omega)
      (fun hfocus => hfocused.mpr (.inl hfocus)) fun halignment => absurd halignment hnot
    rw [hlayouts, layoutsOf_zero, List.append_nil]

/-- A layout that goes up and lays out items behind a hidden top item. -/
theorem SkipsTop.takesUpBelow_bottom (hs : s.Positioned)
    (hskips : s.SkipsTop elements width availableHeight padding)
    (h : s.Fills elements width availableHeight padding first q)
    (hboth : s.LaysOutBoth elements width availableHeight padding first count q)
    (hbottom : s.alignment = .bottom) (hfirst : first < s.scrollTop.itemIx) (hcount : 0 < count) :
    s.TakesUpBelow availableHeight padding := by
  obtain ⟨hrenders, fraction, hfraction, hoffset⟩ := hskips.pendingFraction
  obtain ⟨-, hbound, -⟩ := hboth.of_skipsTop hskips
  refine ⟨hrenders, hskips.2.1, fraction, hfraction, ?_⟩
  rw [hbottom]
  refine ⟨by omega, by omega, ?_, ?_⟩
  · -- the fraction leaves the end of the top item at or below the padding
    have hnext := hboth.top.next hskips hcount
    have hnonneg := (elements.size width s.scrollTop.itemIx).nonneg
    have hmul := mul_le_mul_of_nonneg_right (hs.pendingFraction hfraction).2 hnonneg
    rw [hoffset] at hnext
    linarith
  · have hheight := hboth.top.height
    have hspan := @spanHeight_nonneg _ elements width s.scrollTop.itemIx
      (s.firstLaidOut elements width availableHeight padding - s.scrollTop.itemIx + count)
    rcases h.cases with ⟨hsame, -⟩ | ⟨-, q', hup, -⟩
    · omega
    · have := hup.needs hfirst
      linarith

theorem SkipsTop.takesUpBelow_top (hs : s.Positioned)
    (hskips : s.SkipsTop elements width availableHeight padding) (htop : s.alignment = .top) :
    s.TakesUpBelow availableHeight padding := by
  obtain ⟨hrenders, fraction, hfraction, hoffset⟩ := hskips.pendingFraction
  refine ⟨hrenders, hskips.2.1, fraction, hfraction, ?_⟩
  rw [htop]
  by_contra hnot
  obtain ⟨hzero, hhidden⟩ := not_or.mp hnot
  have hfull : fraction = 0 := le_antisymm (not_lt.mp hzero) (hs.pendingFraction hfraction).1
  have hvisible := hskips.2.2
  rw [hoffset, hfull, zero_mul, sub_zero] at hvisible
  exact hhidden hvisible

/-- No item contains the focus if no element does. -/
theorem containsFocused_uniform (item : ListItem F) (size : ItemSize) :
    item.containsFocused (.uniform F size) = false := by
  unfold ListItem.containsFocused
  cases item.focusHandle with
  | none => rfl
  | some handle => rfl

/-- Without a focused item a layout lays out a range. -/
theorem LaysOut.range {size : ItemSize}
    (h : s.LaysOut (.uniform F size) width availableHeight padding s' layout) :
    ∃ start count, layout.itemLayouts = layoutsOf (.uniform F size) width start count ∧
      (s.alignment = .top → start = layout.scrollTop.itemIx ∧
        (start + count = s'.items.length ∨
          availableHeight ≤ padding.top + spanHeight (.uniform F size) width start count -
            layout.scrollTop.offsetInItem)) := by
  obtain ⟨start, count, extra, hlayouts, -, hextra, htop⟩ := h.layouts
  have hnone : extra = none := by
    refine Option.eq_none_iff_forall_ne_some.mpr fun item hitem => ?_
    obtain ⟨-, -, listItem, -, hcontains⟩ := hextra item hitem
    rw [containsFocused_uniform] at hcontains
    cases hcontains
  rw [hnone, Option.toList_none, List.append_nil] at hlayouts
  exact ⟨start, count, hlayouts, htop⟩

theorem LayoutOf.itemLayouts_uniform {size : ItemSize}
    (h : s.LayoutOf (.uniform F size) width availableHeight padding first q s' layout) :
    layout.itemLayouts = q.itemLayouts := by
  have hnone : s.focusedLayout (.uniform F size) width = none := by
    refine Option.eq_none_iff_forall_ne_some.mpr fun item hitem => ?_
    obtain ⟨-, listItem, -, hcontains⟩ := focusedLayout_eq_some hitem
    rw [containsFocused_uniform] at hcontains
    cases hcontains
  rw [h.layouts, hnone, Option.toList_none, ite_self, List.append_nil]

/-- Two ranges with a gap of one index are not a range, unless the first one is empty. -/
theorem layoutsOf_gap {k next total : ℕ} (hcount : 0 < count) (hnext : next = first + k + 1)
    (h : layoutsOf elements width first k ++ layoutsOf elements width next count =
      layoutsOf elements width start total) : start = first + 1 ∧ k = 0 := by
  subst hnext
  have hindices : List.range' first k ++ List.range' (first + k + 1) count =
      List.range' start total := by
    have hmap := congrArg (List.map ItemLayout.index) h
    simpa [layoutsOf, Function.comp_def] using hmap
  have hlength := congrArg List.length hindices
  simp only [List.length_append, List.length_range'] at hlength
  have hget : ∀ i : ℕ, (List.range' first k ++ List.range' (first + k + 1) count)[i]? =
      (List.range' start total)[i]? := fun i => by rw [hindices]
  have hgap := hget k
  rw [List.getElem?_append_right (by simp), List.length_range', Nat.sub_self,
    List.getElem?_range' hcount, List.getElem?_range' (by omega)] at hgap
  have hstart : start = first + 1 := by
    have := Option.some.inj hgap
    omega
  refine ⟨hstart, ?_⟩
  by_contra hk
  have hbegin := hget 0
  rw [List.getElem?_append_left (by simpa using Nat.pos_of_ne_zero hk),
    List.getElem?_range' (Nat.pos_of_ne_zero hk), List.getElem?_range' (by omega)] at hbegin
  have := Option.some.inj hbegin
  omega

/-- A list aligned to the top, with a height that a fraction moves into the viewport. -/
theorem not_laysOut_top (htop : s.alignment = .top) {size : ItemSize}
    (hskips : s.SkipsTop (.uniform F size) width availableHeight padding)
    (hsize : 0 < padding.bottom + size.height)
    (h : s.LayoutOf (.uniform F size) width availableHeight padding first q s' layout)
    (hboth : s.LaysOutBoth (.uniform F size) width availableHeight padding first count q) :
    ¬s.LaysOut (.uniform F size) width availableHeight padding s' layout := by
  intro hlays
  obtain ⟨start, total, hrange, hreaches⟩ := hlays.range
  rw [h.length, h.scrollTop, h.fills.itemIx] at hreaches
  obtain ⟨rfl, hreach⟩ := hreaches htop
  obtain ⟨hlayouts, hbound, -⟩ := hboth.of_skipsTop hskips
  have hle := h.fills.le
  have hsum : start + (s.scrollTop.itemIx - start) = s.scrollTop.itemIx := by omega
  rw [h.itemLayouts_uniform, hlayouts] at hrange
  -- nothing is laid out behind the top item, as the range begins at the scroll top
  obtain rfl : count = 0 := by
    by_contra hcount
    have hgap := layoutsOf_gap (Nat.pos_of_ne_zero hcount) (by omega) hrange
    omega
  have htotal : total = s.scrollTop.itemIx - start := by
    have hlength := congrArg List.length hrange
    simpa [layoutsOf] using hlength.symm
  rcases hreach with hend | hreach
  · omega
  rw [htotal] at hreach
  have hspan := hboth.top.height
  have hfirst : s.firstLaidOut (.uniform F size) width availableHeight padding =
      s.scrollTop.itemIx + 1 := if_pos hskips
  rw [hfirst, Nat.add_zero, Nat.add_sub_cancel_left, spanHeight_succ, spanHeight_zero] at hspan
  change padding.top + (size.height + 0) + padding.bottom ≤ _ at hspan
  rcases h.fills.cases with ⟨hsame, hq, -⟩ | ⟨-, q', hup, hq⟩
  · rw [hq, hsame, Nat.sub_self, spanHeight_zero, topPass_scrollTop] at hreach
    have hvisible := hskips.2.2
    rw [startOffset] at hvisible
    linarith
  · rw [hq, htop] at hreach
    have hheight := hup.height
    have hoffset : q'.renderedHeight - availableHeight ≤
        max (q'.renderedHeight - availableHeight) 0 := le_max_left _ _
    change availableHeight ≤ padding.top + _ - max (q'.renderedHeight - availableHeight) 0 at hreach
    linarith

/-- A list aligned to the bottom, with items without a height. -/
theorem not_laysOut_bottom (hbottom : s.alignment = .bottom) {size : ItemSize}
    (hsize : size.height = 0) (htakes : s.TakesUpBelow availableHeight padding)
    (h : s.LayoutOf (.uniform F size) width availableHeight padding first q s' layout)
    (hboth : s.LaysOutBoth (.uniform F size) width availableHeight padding first count q) :
    ¬s.LaysOut (.uniform F size) width availableHeight padding s' layout := by
  intro hlays
  obtain ⟨hrenders, hhidden, fraction, hfraction, hspace⟩ := htakes
  rw [hbottom] at hspace
  obtain ⟨habove, hbelow, hpadding, hpaddings⟩ := hspace
  have hzero : ∀ start count, spanHeight (.uniform F size) width start count = 0 := fun _ _ => by
    simp [spanHeight, Elements.uniform, hsize]
  have hskips : s.SkipsTop (.uniform F size) width availableHeight padding := by
    refine skipsTop_of_fraction hfraction hrenders hhidden ?_
    change padding.top - fraction * size.height < availableHeight
    rwa [hsize, mul_zero, sub_zero]
  obtain ⟨-, fraction', -, hoffset⟩ := hskips.pendingFraction
  have hstart : s.startOffset (.uniform F size) width availableHeight padding = 0 := by
    rw [hoffset]
    change fraction' * size.height = 0
    rw [hsize, mul_zero]
  obtain ⟨hlayouts, hbound, -⟩ := hboth.of_skipsTop hskips
  have hfirst : s.firstLaidOut (.uniform F size) width availableHeight padding =
      s.scrollTop.itemIx + 1 := if_pos hskips
  -- the items without a height are all laid out, and the layout goes up to the first one
  have hend : s.scrollTop.itemIx + 1 + count = s.items.length := by
    by_contra hend
    have hoverdraw : 0 ≤ s.overdraw := by
      have hvisible := visible_of_rendersTop hrenders
      linarith
    have hfill := hboth.top.fills hoverdraw (by omega)
    rw [hzero, hstart] at hfill
    linarith
  have hheight := hboth.top.reaches (by omega)
  rw [hzero] at hheight
  have hzeroth : first = 0 := by
    rcases h.fills.cases with ⟨-, -, hvisible⟩ | ⟨-, q', hup, -⟩
    · rw [LayoutPass.visibleHeight, topPass_scrollTop, ← startOffset, hheight, hstart] at hvisible
      linarith
    · refine hup.fills.resolve_left fun hfill => ?_
      rw [hup.height, hheight, hzero] at hfill
      linarith
  obtain ⟨start, total, hrange, -⟩ := hlays.range
  rw [h.itemLayouts_uniform, hlayouts, hzeroth, Nat.sub_zero] at hrange
  have hgap := layoutsOf_gap (by omega) (by omega) hrange
  omega

/-- A height with which a fraction moves an item up to an end of the viewport. -/
theorem exists_height {fraction space : ℚ} (hfraction : 0 ≤ fraction)
    (hspace : 0 < fraction ∨ space < 0) (padding : ℚ) :
    ∃ size : ItemSize, 0 < padding + size.height ∧ space - fraction * size.height < 0 := by
  have hnonneg : 0 ≤ |space| / fraction + |padding| + 1 := by positivity
  refine ⟨⟨0, |space| / fraction + |padding| + 1, hnonneg⟩, ?_, ?_⟩
  · have := neg_abs_le padding
    have : 0 ≤ |space| / fraction := by positivity
    dsimp only
    linarith
  · dsimp only
    rcases hfraction.eq_or_lt with rfl | hpos
    · have := hspace.resolve_left (lt_irrefl 0)
      rwa [zero_mul, sub_zero]
    · have hcancel : fraction * (|space| / fraction) = |space| := mul_div_cancel₀ _ hpos.ne'
      have := le_abs_self space
      have : 0 ≤ fraction * |padding| := by positivity
      rw [mul_add, mul_add, hcancel]
      linarith

/-- A layout of a reachable list lays out a range of its items from the scroll top on, whatever
their heights are and wherever the focus is, exactly if no pending fraction moves a hidden top item
into the viewport. -/
theorem laysOut_iff (hreachable : Reachable s) (availableHeight : ℚ) (padding : Edges)
    (hnonneg : s.alignment = .top → 0 ≤ s.overdraw ∧ 0 ≤ padding.bottom) :
    (∀ (elements : Elements F) (width : Option ℚ), s.LaysOut elements width availableHeight padding
      (s.layoutItems elements width availableHeight padding).1
      (s.layoutItems elements width availableHeight padding).2) ↔
    ¬s.TakesUpBelow availableHeight padding := by
  have hs := hreachable.positioned
  constructor
  · intro hall htakes
    obtain ⟨hrenders, hhidden, fraction, hfraction, hspace⟩ := htakes
    cases halignment : s.alignment with
    | top =>
      rw [halignment] at hspace
      obtain ⟨size, hpositive, hvisible⟩ := exists_height (hs.pendingFraction hfraction).1
        (hspace.imp_right sub_neg_of_lt) padding.bottom
      obtain ⟨first, q, hlayout⟩ := layoutItems_spec (.uniform F size) none availableHeight padding
        hs.scrollTop_le
      obtain ⟨count, hboth⟩ := hlayout.fills.laysOutBoth hs
      have hskips : s.SkipsTop (.uniform F size) none availableHeight padding := by
        refine skipsTop_of_fraction hfraction hrenders hhidden ?_
        change padding.top - fraction * size.height < availableHeight
        linarith
      exact not_laysOut_top halignment hskips hpositive hlayout hboth (hall _ _)
    | bottom =>
      obtain ⟨first, q, hlayout⟩ := layoutItems_spec (.uniform F ⟨0, 0, le_rfl⟩) none
        availableHeight padding hs.scrollTop_le
      obtain ⟨count, hboth⟩ := hlayout.fills.laysOutBoth hs
      exact not_laysOut_bottom halignment rfl ⟨hrenders, hhidden, fraction, hfraction, hspace⟩
        hlayout hboth (hall _ _)
  · intro hnot elements width
    obtain ⟨first, q, hlayout⟩ := layoutItems_spec elements width availableHeight padding
      hs.scrollTop_le
    by_cases hskips : s.SkipsTop elements width availableHeight padding
    · cases halignment : s.alignment with
      | top => exact absurd (hskips.takesUpBelow_top hs halignment) hnot
      | bottom =>
        obtain ⟨count, hboth⟩ := hlayout.fills.laysOutBoth hs
        refine hlayout.laysOut_of_skipsTop hs hskips hboth halignment ?_
        by_contra hside
        obtain ⟨hfirst, hcount⟩ := not_or.mp hside
        exact hnot (hskips.takesUpBelow_bottom hs hlayout.fills hboth halignment
          (lt_of_le_of_ne hlayout.fills.le hfirst) (Nat.pos_of_ne_zero hcount))
    · exact hlayout.laysOut_of_not_skipsTop hs hskips hnonneg

/-- Three items whose viewport begins far above the second one, without sizes. -/
def farAbove : StateInner Empty :=
  ⟨some ⟨⟨0, 0⟩, ⟨10, 50⟩⟩, some ⟨0, 0⟩, [.unmeasured none, .unmeasured none, .unmeasured none],
    some ⟨1, -100⟩, .top, 100, false, false, none, .visible, some ⟨1, 0⟩⟩

/-- The calls that lead to `farAbove`. -/
def farAboveCalls : List (ListCall Empty) :=
  [.prepaint (.uniform _ .ten) ⟨⟨0, 0⟩, ⟨10, 50⟩⟩ ⟨0, 0⟩, .scrollTo ⟨1, -100⟩, .remeasure]

theorem reachable_farAbove : Reachable farAbove := by
  have hcalls : (new 3 .top 100).bind (Foundation.execute call InRange · farAboveCalls) =
      some farAbove := by decide +kernel
  exact reachable_of_execute hcalls

/-- In a viewport that shows the second item from the start, all three items are laid out. -/
theorem laysOut_farAbove : farAbove.LaysOut (.uniform Empty .ten) none 200 ⟨0, 0⟩
    (farAbove.layoutItems (.uniform Empty .ten) none 200 ⟨0, 0⟩).1
    (farAbove.layoutItems (.uniform Empty .ten) none 200 ⟨0, 0⟩).2 := by
  refine (laysOut_iff reachable_farAbove 200 ⟨0, 0⟩ fun _ => by decide +kernel).mpr ?_ _ _
  rintro ⟨-, hhidden, -⟩
  exact absurd hhidden (by decide +kernel)

/-- In a viewport of fifty pixels the first and the third item are laid out. -/
theorem not_laysOut_farAbove : Reachable farAbove ∧
    ¬farAbove.LaysOut (.uniform Empty .ten) none 50 ⟨0, 0⟩
      (farAbove.layoutItems (.uniform Empty .ten) none 50 ⟨0, 0⟩).1
      (farAbove.layoutItems (.uniform Empty .ten) none 50 ⟨0, 0⟩).2 := by
  refine ⟨reachable_farAbove, fun hlays => ?_⟩
  have hlayouts : (farAbove.layoutItems (.uniform Empty .ten) none 50 ⟨0, 0⟩).2.itemLayouts =
      layoutsOf (.uniform Empty .ten) none 0 1 ++ layoutsOf (.uniform Empty .ten) none 2 1 := by
    decide +kernel
  obtain ⟨start, count, hrange, -⟩ := hlays.range
  rw [hlayouts] at hrange
  have hgap := layoutsOf_gap one_pos rfl hrange
  omega

end Lucie.ItemList.StateInner
