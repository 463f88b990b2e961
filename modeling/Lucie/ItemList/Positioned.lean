import Lucie.ItemList.LayoutUp

/-!
# The scroll position of a list

A position that a list remembers is at one of its items or at their end. All calls keep this, and
a layout leaves the position at which it has laid out the items, or none if the list is aligned
to the bottom.
-/

set_option autoImplicit false

namespace Lucie.ItemList

variable {F : Type}

namespace LayoutPass

variable {p p' : LayoutPass F}

/-- A pass leaves the position and the scroll top, or remembers its scroll top. It may apply the
pending fraction. -/
structure Remembers (p p' : LayoutPass F) : Prop where
  position : (p'.logicalScrollTop = p.logicalScrollTop ∧ p'.scrollTop = p.scrollTop) ∨
    p'.logicalScrollTop = some p'.scrollTop
  pending : p'.pendingScroll = p.pendingScroll ∨ p'.pendingScroll = none

theorem Remembers.refl (p : LayoutPass F) : Remembers p p := ⟨.inl ⟨rfl, rfl⟩, .inl rfl⟩

theorem Remembers.trans {p'' : LayoutPass F} (h : Remembers p p') (h' : Remembers p' p'') :
    Remembers p p'' := by
  constructor
  · rcases h'.position with ⟨hposition, htop⟩ | hset
    · rcases h.position with ⟨hposition', htop'⟩ | hset
      · exact .inl ⟨hposition.trans hposition', htop.trans htop'⟩
      · exact .inr (by rw [hposition, htop, hset])
    · exact .inr hset
  · rcases h'.pending with hpending | hnone
    · rw [hpending]
      exact h.pending
    · exact .inr hnone

theorem applyPending_remembers (p : LayoutPass F) (height : ℚ) :
    Remembers p (p.applyPending height) := by
  unfold applyPending
  cases p.pendingScroll with
  | none => exact .refl p
  | some pending =>
    dsimp only
    split_ifs
    exacts [⟨.inr rfl, .inr rfl⟩, ⟨.inl ⟨rfl, rfl⟩, .inr rfl⟩]

section Passes

variable (elements : Elements F) (width : Option ℚ) (availableHeight overdraw : ℚ)

theorem render_remembers (p : LayoutPass F) (ix : ℕ) (item : ListItem F) :
    Remembers p (p.render elements width availableHeight ix item) := by
  have hpending : Remembers p (if ix = 0 then
      p.applyPending (elements.size width (p.scrollTop.itemIx + ix)).height else p) := by
    split_ifs
    exacts [p.applyPending_remembers _, .refl p]
  unfold render
  dsimp only
  split_ifs at hpending ⊢
  all_goals exact ⟨hpending.position, hpending.pending⟩

theorem layoutItem_remembers (p : LayoutPass F) (ix : ℕ) (item : ListItem F) :
    Remembers p (p.layoutItem elements width availableHeight ix item) := by
  have hrender := p.render_remembers elements width availableHeight ix item
  unfold layoutItem
  cases item.size with
  | none => exact hrender
  | some size =>
    dsimp only
    split_ifs
    exacts [hrender, ⟨.inl ⟨rfl, rfl⟩, .inl rfl⟩]

theorem layoutBelow_remembers (items : List (ListItem F)) (ix : ℕ) (p : LayoutPass F) :
    Remembers p (layoutBelow elements width availableHeight overdraw items ix p) := by
  induction items generalizing ix p with
  | nil => exact .refl p
  | cons item items ih =>
    rw [layoutBelow]
    split_ifs
    · exact .refl p
    · exact (p.layoutItem_remembers elements width availableHeight ix item).trans (ih _ _)

end Passes

section Adjust

variable (availableHeight : ℚ)

/-- Moving the scroll top leaves the other variables. -/
@[simp] theorem adjustScrollTop_itemLayouts (p : LayoutPass F) (alignment : ListAlignment)
    (itemIx : ℕ) : (p.adjustScrollTop availableHeight alignment itemIx).itemLayouts =
      p.itemLayouts := by
  cases alignment
  all_goals rfl

@[simp] theorem adjustScrollTop_renderedFocusedItem (p : LayoutPass F) (alignment : ListAlignment)
    (itemIx : ℕ) : (p.adjustScrollTop availableHeight alignment itemIx).renderedFocusedItem =
      p.renderedFocusedItem := by
  cases alignment
  all_goals rfl

@[simp] theorem adjustScrollTop_pendingScroll (p : LayoutPass F) (alignment : ListAlignment)
    (itemIx : ℕ) : (p.adjustScrollTop availableHeight alignment itemIx).pendingScroll =
      p.pendingScroll := by
  cases alignment
  all_goals rfl

end Adjust

end LayoutPass

namespace StateInner

variable {s s' : StateInner F} {elements : Elements F} {width : Option ℚ} {availableHeight : ℚ}
  {padding : Edges} {first : ℕ} {q : LayoutPass F} {layout : LayoutItemsResponse}

/-- The position of a list is at one of its items or at their end, and a pending fraction is in
its item. -/
structure Positioned (s : StateInner F) : Prop where
  position : ∀ position, s.logicalScrollTop = some position → position.itemIx ≤ s.items.length
  fraction : ∀ pending, s.pendingScroll = some pending →
    0 ≤ pending.fraction ∧ pending.fraction ≤ 1

theorem Positioned.scrollTop_le (h : s.Positioned) : s.scrollTop.itemIx ≤ s.items.length := by
  unfold scrollTop
  cases hposition : s.logicalScrollTop with
  | none =>
    rw [Option.getD_none]
    cases s.alignment with
    | top => exact Nat.zero_le _
    | bottom => exact le_rfl
  | some position => exact h.position position hposition

/-- A list with as many items and the same position and fraction. -/
theorem Positioned.congr (h : s.Positioned) (hlength : s'.items.length = s.items.length)
    (hposition : s'.logicalScrollTop = s.logicalScrollTop)
    (hpending : s'.pendingScroll = s.pendingScroll) : s'.Positioned := by
  constructor
  · intro position hsome
    rw [hlength]
    exact h.position position (hposition ▸ hsome)
  · intro pending hsome
    exact h.fraction pending (hpending ▸ hsome)

/-- A list that is moved to one of its items or to their end. -/
theorem Positioned.set (h : s.Positioned) {position : ListOffset}
    (hposition : position.itemIx ≤ s.items.length) :
    { s with logicalScrollTop := some position }.Positioned := by
  refine ⟨?_, h.fraction⟩
  rintro _ ⟨⟩
  exact hposition

/-- A list that has lost its position. -/
theorem Positioned.unset (h : s.Positioned) : { s with logicalScrollTop := none }.Positioned := by
  refine ⟨?_, h.fraction⟩
  rintro _ ⟨⟩

/-- A layout moves the top item up. -/
theorem Fills.le (h : s.Fills elements width availableHeight padding first q) :
    first ≤ s.scrollTop.itemIx := by
  rcases h.cases with ⟨rfl, -, -⟩ | ⟨-, q', hup, -⟩
  exacts [le_rfl, hup.le]

theorem LayoutOf.length (h : s.LayoutOf elements width availableHeight padding first q s' layout) :
    s'.items.length = s.items.length := by
  simpa using congrArg List.length h.handles

theorem topPass_remembers (s : StateInner F) (elements : Elements F) (width : Option ℚ)
    (availableHeight : ℚ) (padding : Edges) :
    LayoutPass.Remembers (s.startPass padding)
      (s.topPass elements width availableHeight padding) := by
  have hbelow := LayoutPass.layoutBelow_remembers elements width availableHeight s.overdraw
    (s.items.drop s.scrollTop.itemIx) 0 (s.startPass padding)
  exact ⟨hbelow.position, hbelow.pending⟩

/-- A layout applies the pending fraction or leaves it. -/
theorem Fills.pendingScroll (h : s.Fills elements width availableHeight padding first q) :
    q.pendingScroll = s.pendingScroll ∨ q.pendingScroll = none := by
  have htop : (s.topPass elements width availableHeight padding).pendingScroll =
      s.pendingScroll ∨ (s.topPass elements width availableHeight padding).pendingScroll = none :=
    (s.topPass_remembers elements width availableHeight padding).pending
  rcases h.cases with ⟨-, hq, -⟩ | ⟨-, q', hup, hq⟩
  · rwa [hq]
  · rwa [hq, LayoutPass.adjustScrollTop_pendingScroll, hup.pendingScroll]

/-- After a layout the list is at the scroll top of the layout, or it has no position and is
aligned to the bottom. -/
theorem LayoutOf.position
    (h : s.LayoutOf elements width availableHeight padding first q s' layout) :
    s'.scrollTop = layout.scrollTop ∨ (s.alignment = .bottom ∧ s'.logicalScrollTop = none) := by
  have hset : q.logicalScrollTop = some q.scrollTop → s'.scrollTop = layout.scrollTop := by
    intro hset
    rw [StateInner.scrollTop, h.logicalScrollTop, hset, Option.getD_some, h.scrollTop]
  rcases h.fills.cases with ⟨-, hq, -⟩ | ⟨-, q', -, hq⟩
  · have hremembers : LayoutPass.Remembers (s.startPass padding) q := by
      rw [hq]
      exact topPass_remembers _ _ _ _ _
    rcases hremembers.position with ⟨hposition, htop⟩ | hposition
    · left
      rw [h.scrollTop, htop, StateInner.scrollTop, h.logicalScrollTop, hposition, h.same.1,
        h.length]
      rfl
    · exact .inl (hset hposition)
  · unfold LayoutPass.adjustScrollTop at hq
    cases halignment : s.alignment with
    | top =>
      rw [halignment] at hq
      exact .inl (hset (by rw [hq]))
    | bottom =>
      rw [halignment] at hq
      exact .inr ⟨rfl, by rw [h.logicalScrollTop, hq]⟩

theorem LayoutOf.positioned (hs : s.Positioned)
    (h : s.LayoutOf elements width availableHeight padding first q s' layout) : s'.Positioned := by
  constructor
  · intro position hposition
    rcases h.position with htop | ⟨-, hnone⟩
    · have hsame : position = layout.scrollTop := by
        rw [← htop, StateInner.scrollTop, hposition, Option.getD_some]
      have hle := h.fills.le
      have hitemIx := h.fills.itemIx
      have := hs.scrollTop_le
      rw [hsame, h.length, h.scrollTop, hitemIx]
      omega
    · rw [hnone] at hposition
      cases hposition
  · intro pending hpending
    rw [h.pendingScroll] at hpending
    rcases h.fills.pendingScroll with hkept | hnone
    · exact hs.fraction pending (hkept ▸ hpending)
    · rw [hnone] at hpending
      cases hpending

/-! ## What a layout lays out -/

/-- What the way down and the way up of a layout lay out together. -/
structure LaysOutBoth (s : StateInner F) (elements : Elements F) (width : Option ℚ)
    (availableHeight : ℚ) (padding : Edges) (first count : ℕ) (q : LayoutPass F) : Prop where
  top : s.LaysTop elements width availableHeight padding count
    (s.topPass elements width availableHeight padding)
  layouts : q.itemLayouts = layoutsOf elements width first (s.scrollTop.itemIx - first) ++
    layoutsOf elements width (s.firstLaidOut elements width availableHeight padding) count
  focused : q.renderedFocusedItem = true ↔
    FocusIn elements s.items first (s.scrollTop.itemIx - first) ∨
      FocusIn elements s.items (s.firstLaidOut elements width availableHeight padding) count

theorem Fills.laysOutBoth (hs : s.Positioned)
    (h : s.Fills elements width availableHeight padding first q) :
    ∃ count, s.LaysOutBoth elements width availableHeight padding first count q := by
  obtain ⟨-, count, hlays⟩ := topPass_spec elements width availableHeight padding hs.scrollTop_le
  refine ⟨count, hlays, ?_, ?_⟩
  · rcases h.cases with ⟨hfirst, hq, -⟩ | ⟨-, q', hup, hq⟩
    · rw [hq, hlays.layouts, hfirst, Nat.sub_self]
      rfl
    · rw [hq, LayoutPass.adjustScrollTop_itemLayouts, hup.layouts, hlays.layouts]
  · rcases h.cases with ⟨hfirst, hq, -⟩ | ⟨-, q', hup, hq⟩
    · rw [hq, hlays.focused, hfirst, Nat.sub_self, or_iff_right not_focusIn_zero]
    · rw [hq, LayoutPass.adjustScrollTop_renderedFocusedItem, hup.focused, hlays.focused, or_comm]

theorem mem_layoutsOf {start count : ℕ} {item : ItemLayout} :
    item ∈ layoutsOf elements width start count ↔
      start ≤ item.index ∧ item.index < start + count ∧
        item.size = elements.size width item.index := by
  rw [layoutsOf, List.mem_map]
  constructor
  · rintro ⟨ix, hix, rfl⟩
    rw [List.mem_range'_1] at hix
    exact ⟨hix.1, hix.2, rfl⟩
  · rintro ⟨hstart, hend, hsize⟩
    refine ⟨item.index, List.mem_range'_1.mpr ⟨hstart, hend⟩, ?_⟩
    rw [← hsize]

/-- A focused item that is laid out is one of the items. -/
theorem focusedLayout_eq_some {item : ItemLayout}
    (h : s.focusedLayout elements width = some item) :
    item.size = elements.size width item.index ∧ ∃ listItem, s.items[item.index]? = some listItem ∧
      listItem.containsFocused elements = true := by
  obtain ⟨ix, hix, rfl⟩ := Option.map_eq_some_iff.mp h
  obtain ⟨hlt, hfocus, -⟩ := List.findIdx?_eq_some_iff_getElem.mp hix
  exact ⟨rfl, s.items[ix], List.getElem?_eq_getElem hlt, hfocus⟩

/-- All layouts are of items. -/
theorem LayoutOf.index_lt (hs : s.Positioned)
    (h : s.LayoutOf elements width availableHeight padding first q s' layout) {item : ItemLayout}
    (hitem : item ∈ layout.itemLayouts) : item.index < s.items.length := by
  obtain ⟨count, hboth⟩ := h.fills.laysOutBoth hs
  have hbound := hboth.top.bound
  have hle := h.fills.le
  have htop := hs.scrollTop_le
  rw [h.layouts, hboth.layouts, List.mem_append, List.mem_append, mem_layoutsOf,
    mem_layoutsOf] at hitem
  rcases hitem with (⟨-, hlt, -⟩ | ⟨-, hlt, -⟩) | hfocused
  · omega
  · omega
  · split_ifs at hfocused
    · cases hfocused
    · obtain ⟨-, listItem, hget, -⟩ := focusedLayout_eq_some (Option.mem_toList.mp hfocused)
      exact (List.getElem?_eq_some_iff.mp hget).1

/-! ## Positions that calls leave -/

theorem positionOf_le (items : List (ListItem F)) (offset : ℚ) :
    (positionOf items offset).itemIx ≤ items.length :=
  SeekTarget.leading_le _ _ _

theorem Positioned.scrollToOffset (hs : s.Positioned) (height offset : ℚ) :
    (s.scrollToOffset height offset).Positioned := by
  rw [scrollToOffset_eq]
  split_ifs
  · exact hs.unset
  · exact hs.set (positionOf_le _ _)

/-- The state after a scroll event; the handler does not change it. -/
theorem scroll_state {position : ListOffset} {height deltaY : ℚ} {event : Option ListScrollEvent}
    (h : s.scroll position height deltaY = some (s', event)) :
    s' = if s.reset then s
      else s.scrollToOffset height (s.scrolledOffset position height deltaY) := by
  unfold scroll at h
  split_ifs at h ⊢
  · exact (Prod.mk.inj (Option.some.inj h)).1.symm
  · dsimp only at h
    split_ifs at h
    · obtain ⟨range, -, hrange⟩ := Option.bind_eq_some_iff.mp h
      exact (Prod.mk.inj (Option.some.inj hrange)).1.symm
    · exact (Prod.mk.inj (Option.some.inj h)).1.symm

theorem length_unmeasuredItems (items : List (ListItem F)) :
    (unmeasuredItems items).length = items.length :=
  List.length_map _

/-- Measuring all items keeps them. -/
theorem layoutAllItems_same (s : StateInner F) (elements : Elements F) (availableWidth : ℚ) :
    (s.layoutAllItems elements availableWidth).items.length = s.items.length ∧
      (s.layoutAllItems elements availableWidth).logicalScrollTop = s.logicalScrollTop ∧
      (s.layoutAllItems elements availableWidth).pendingScroll = s.pendingScroll := by
  unfold layoutAllItems
  split
  · exact ⟨List.length_mapIdx, rfl, rfl⟩
  · exact ⟨rfl, rfl, rfl⟩

theorem splicedPosition_le {start stop length : ℕ} (count : ℕ) (hrange : start ≤ stop)
    (hstop : stop ≤ length) {position : ListOffset} (hposition : position.itemIx ≤ length) :
    (splicedPosition start stop count position).itemIx ≤ start + count + (length - stop) := by
  unfold splicedPosition
  split_ifs with hremoved hafter
  · dsimp only
    omega
  · dsimp only
    omega
  · omega

theorem autoscrollAbove_le (elements : Elements F) (width : ℚ) (before : List (ListItem F))
    (height : ℚ) : (autoscrollAbove elements width before height).itemIx ≤ before.length := by
  induction before generalizing height with
  | nil => exact le_rfl
  | cons item before ih =>
    rw [autoscrollAbove]
    split_ifs
    · exact (ih _).trans (Nat.le_succ _)
    all_goals exact le_rfl

/-- An autoscroll asks for a position at an item or at the end. -/
theorem autoscrollRequest_le {items : List (ListItem F)} {bounds : Bounds ℚ} {position : ListOffset}
    {layouts : List ItemLayout} (hlayouts : ∀ item ∈ layouts, item.index < items.length) {y : ℚ}
    (h : autoscrollRequest elements items bounds padding layouts y = some position) :
    position.itemIx ≤ items.length := by
  induction layouts generalizing y with
  | nil => cases h
  | cons item layouts ih =>
    have hitem := hlayouts item List.mem_cons_self
    have hnext := fun y => @ih (fun item h => hlayouts item (List.mem_cons_of_mem _ h)) y
    rw [autoscrollRequest] at h
    split at h
    · exact hnext _ h
    · split_ifs at h
      · obtain rfl := Option.some.inj h
        exact hitem.le
      · obtain rfl := Option.some.inj h
        refine (autoscrollAbove_le _ _ _ _).trans ?_
        rw [List.length_reverse, List.length_take]
        omega
      · exact hnext _ h

theorem Positioned.layoutAllItems (hs : s.Positioned) (elements : Elements F) (width : ℚ) :
    (s.layoutAllItems elements width).Positioned :=
  let ⟨hlength, hposition, hpending⟩ := s.layoutAllItems_same elements width
  hs.congr hlength hposition hpending

/-- The prepaint of the items lays them out, and what it asks for is a position too. -/
theorem Positioned.prepaintItems (hs : s.Positioned) (elements : Elements F) (bounds : Bounds ℚ)
    (padding : Edges) (autoscroll : Bool) :
    (∃ (t : StateInner F) (first : ℕ) (q : LayoutPass F) (layout : LayoutItemsResponse),
      t.LayoutOf elements (some bounds.size.width) bounds.size.height padding first q
        (s.prepaintItems elements bounds padding autoscroll).1 layout) ∧
    (s.prepaintItems elements bounds padding autoscroll).1.Positioned ∧
      ∀ position, (s.prepaintItems elements bounds padding autoscroll).2 = .error position →
        position.itemIx ≤ (s.prepaintItems elements bounds padding autoscroll).1.items.length := by
  have hall := hs.layoutAllItems elements bounds.size.width
  obtain ⟨first, q, hlayout⟩ := layoutItems_spec elements (some bounds.size.width)
    bounds.size.height padding hall.scrollTop_le
  unfold StateInner.prepaintItems
  dsimp only
  generalize (s.layoutAllItems elements bounds.size.width).layoutItems elements
    (some bounds.size.width) bounds.size.height padding = laidOut at hlayout ⊢
  obtain ⟨s', layout⟩ := laidOut
  have hafter := hlayout.positioned hall
  by_cases hspace : bounds.size.height > padding.top + padding.bottom
  · rw [if_pos hspace]
    refine ⟨⟨_, first, q, layout, hlayout⟩, hafter, fun position hrequest => ?_⟩
    dsimp only at hrequest ⊢
    split_ifs at hrequest with hauto
    · rcases hfound : autoscrollRequest elements s'.items bounds padding layout.itemLayouts
        (bounds.origin.y + padding.top - layout.scrollTop.offsetInItem) with _ | found
      · rw [hfound] at hrequest
        cases hrequest
      · rw [hfound] at hrequest
        obtain rfl : found = position := Except.error.inj hrequest
        refine autoscrollRequest_le (fun item hitem => ?_) hfound
        exact (hlayout.index_lt hall hitem).trans_eq hlayout.length.symm
    · cases hrequest
  · rw [if_neg hspace]
    refine ⟨⟨_, first, q, layout, hlayout⟩, hafter, fun position hrequest => ?_⟩
    cases hrequest

theorem Positioned.beginPrepaint (hs : s.Positioned) (bounds : Bounds ℚ) :
    (s.beginPrepaint bounds).Positioned := by
  unfold StateInner.beginPrepaint
  dsimp only
  split_ifs
  · exact hs.congr (length_unmeasuredItems _) rfl rfl
  · exact hs.congr rfl rfl rfl

/-- A prepaint leaves the state of a layout, with the bounds and the padding of the layout. -/
theorem Positioned.exists_layoutOf (hs : s.Positioned) {bounds : Bounds ℚ}
    (h : s.prepaint elements bounds padding = some (s', layout)) :
    ∃ (t t' : StateInner F) (first : ℕ) (q : LayoutPass F) (laidOut : LayoutItemsResponse),
      t.LayoutOf elements (some bounds.size.width) bounds.size.height padding first q t' laidOut ∧
      t'.Positioned ∧
      s' = { t' with lastLayoutBounds := some bounds, lastPadding := some padding } := by
  obtain ⟨⟨t, first, q, laidOut, hlayout⟩, hfirst, hrequest⟩ :=
    (hs.beginPrepaint bounds).prepaintItems elements bounds padding true
  unfold StateInner.prepaint at h
  generalize (s.beginPrepaint bounds).prepaintItems elements bounds padding true = prepainted
    at hlayout hfirst hrequest h
  obtain ⟨before, position | response⟩ := prepainted
  · have hmoved : { before with logicalScrollTop := some position }.Positioned :=
      hfirst.set (hrequest position rfl)
    obtain ⟨⟨t, first, q, laidOut, hlayout⟩, hsecond, -⟩ :=
      hmoved.prepaintItems elements bounds padding false
    dsimp only at h
    generalize { before with logicalScrollTop := some position }.prepaintItems elements bounds
      padding false = prepainted at hlayout hsecond h
    obtain ⟨after, position' | response⟩ := prepainted
    · cases h
    · obtain ⟨rfl, -⟩ := Prod.mk.inj (Option.some.inj h)
      exact ⟨t, after, first, q, laidOut, hlayout, hsecond, rfl⟩
  · obtain ⟨rfl, -⟩ := Prod.mk.inj (Option.some.inj h)
    exact ⟨t, before, first, q, laidOut, hlayout, hfirst, rfl⟩

theorem Positioned.prepaint (hs : s.Positioned) {bounds : Bounds ℚ}
    (h : s.prepaint elements bounds padding = some (s', layout)) : s'.Positioned := by
  obtain ⟨t, t', first, q, laidOut, -, hpositioned, rfl⟩ := hs.exists_layoutOf h
  exact hpositioned.congr rfl rfl rfl

/-- The fraction that `remeasure` remembers is in the top item. -/
theorem topFraction_mem {pending : PendingScrollFraction} (h : s.topFraction = some pending) :
    0 ≤ pending.fraction ∧ pending.fraction ≤ 1 := by
  unfold topFraction at h
  simp only [Option.bind_eq_bind, Option.bind_eq_some_iff] at h
  obtain ⟨position, -, index, -, item, -, size, -, hpending⟩ := h
  obtain rfl := Option.some.inj hpending
  dsimp only
  split_ifs
  · exact ⟨le_max_left _ _, max_le zero_le_one (min_le_right _ _)⟩
  · exact ⟨le_rfl, zero_le_one⟩

/-- Every call keeps the position at one of the items or at their end. -/
theorem positioned_call {c : ListCall F} (hs : s.Positioned) (hrange : s.InRange c)
    (h : s.call c = some s') : s'.Positioned := by
  cases c with
  | reset elementCount =>
    rw [call, resetItems_eq] at h
    obtain rfl := Option.some.inj h
    refine ⟨?_, hs.fraction⟩
    rintro _ ⟨⟩
  | remeasure =>
    obtain rfl := Option.some.inj h
    have hkept : { s.remeasure with pendingScroll := s.pendingScroll }.Positioned :=
      hs.congr (length_unmeasuredItems _) rfl rfl
    refine ⟨hkept.position, fun pending hpending => ?_⟩
    rcases Option.or_eq_some_iff.mp hpending with htop | ⟨-, hold⟩
    · exact topFraction_mem htop
    · exact hs.fraction pending hold
  | splice start stop focusHandles =>
    rw [call, spliceFocusable_eq s hrange.1 hrange.2] at h
    obtain rfl := Option.some.inj h
    refine ⟨fun position hposition => ?_, hs.fraction⟩
    obtain ⟨position', hposition', rfl⟩ := Option.map_eq_some_iff.mp hposition
    have hle := splicedPosition_le focusHandles.length hrange.1 hrange.2
      (hs.position position' hposition')
    have := hrange.1.trans hrange.2
    refine hle.trans_eq ?_
    simp only [splicedItems, List.length_append, List.length_take, List.length_map,
      List.length_drop]
    omega
  | setScrollHandler | scrollbarDragStarted | scrollbarDragEnded =>
    obtain rfl := Option.some.inj h
    exact hs.congr rfl rfl rfl
  | scrollBy distance =>
    rw [call] at h
    by_cases hdistance : distance = 0
    · subst hdistance
      obtain rfl := Option.some.inj (h : some s = some s')
      exact hs
    · rw [scrollBy_eq s hdistance] at h
      split_ifs at h
      obtain rfl := Option.some.inj h
      exact hs.set (positionOf_le _ _)
  | scrollTo position =>
    obtain rfl := Option.some.inj h
    refine hs.set ?_
    split_ifs with hend
    · exact le_rfl
    · exact (not_le.mp hend).le
  | scrollToRevealItem ix =>
    rw [call, scrollToRevealItem_eq] at h
    obtain rfl := Option.some.inj h
    have htop := hs.scrollTop_le
    refine hs.set ?_
    unfold revealedPosition
    split_ifs with habove
    · exact habove.trans htop
    · exact SeekTarget.leading_le _ _ _
    · exact htop
  | setOffsetFromScrollbar y =>
    obtain rfl := Option.some.inj h
    unfold setOffsetFromScrollbar
    split
    · exact hs
    · exact hs.scrollToOffset _ _
  | scroll position height deltaY =>
    obtain ⟨⟨s'', event⟩, hscroll, rfl⟩ := Option.map_eq_some_iff.mp h
    rw [scroll_state hscroll]
    split_ifs
    · exact hs
    · exact hs.scrollToOffset _ _
  | requestLayout elements padding =>
    obtain rfl := Option.some.inj h
    obtain ⟨first, q, hlayout⟩ := layoutItems_spec elements none
      (s.lastLayoutBounds.elim s.overdraw (·.size.height)) padding hs.scrollTop_le
    exact hlayout.positioned hs
  | prepaint elements bounds padding =>
    obtain ⟨⟨s'', layout⟩, hprepaint, rfl⟩ := Option.map_eq_some_iff.mp h
    exact hs.prepaint hprepaint

/-- The position of a list that calls lead to is at one of its items or at their end. -/
theorem Reachable.positioned (h : Reachable s) : s.Positioned := by
  obtain ⟨itemCount, alignment, overdraw, init, calls, hnew, hrun⟩ := h
  have hstart : init.Positioned := by
    unfold new splice at hnew
    rw [spliceFocusable_eq _ (Nat.le_refl 0) (Nat.zero_le _)] at hnew
    obtain rfl := Option.some.inj hnew
    constructor
    all_goals rintro _ ⟨⟩
  rcases hrun with hrun | hrun
  · exact hrun.invariant (fun _ => Positioned) hstart
      fun _ _ _ _ hs hrange hcall => positioned_call hs hrange hcall
  · have hstart' : init.measureAll.Positioned := hstart.congr rfl rfl rfl
    exact hrun.invariant (fun _ => Positioned) hstart'
      fun _ _ _ _ hs hrange hcall => positioned_call hs hrange hcall

end StateInner

end Lucie.ItemList
