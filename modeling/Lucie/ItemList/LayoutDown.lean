import Lucie.ItemList.Pending

/-!
# The way down of a layout

The first loop of a layout goes down from the scroll top. What it has measured covers a range of
the items: it has their focus handles in their order, and its height is the rendered height. What
it lays out is a range of indices with the sizes of the rendered elements. It begins with the top
item, unless a pending fraction moves this item into the viewport after it was judged hidden.
-/

set_option autoImplicit false

namespace Lucie.ItemList

variable {F : Type}

/-! ## Ranges of items -/

/-- The layouts of `count` rendered items from `start` on. -/
def layoutsOf (elements : Elements F) (width : Option ℚ) (start count : ℕ) : List ItemLayout :=
  (List.range' start count).map fun ix => ⟨ix, elements.size width ix⟩

/-- The height of these items. -/
def spanHeight (elements : Elements F) (width : Option ℚ) (start count : ℕ) : ℚ :=
  ((List.range' start count).map fun ix => (elements.size width ix).height).sum

/-- An item of a range contains the focus. -/
def FocusIn (elements : Elements F) (items : List (ListItem F)) (start count : ℕ) : Prop :=
  ∃ (ix : ℕ) (item : ListItem F), start ≤ ix ∧ ix < start + count ∧ items[ix]? = some item ∧
    item.containsFocused elements = true

/-- The measured items have the focus handles of the items from `start` on. -/
structure CoversFrom (items : List (ListItem F)) (start : ℕ) (measured : List (ListItem F)) :
    Prop where
  bound : start + measured.length ≤ items.length
  handles : measured.map ListItem.focusHandle =
    ((items.drop start).take measured.length).map ListItem.focusHandle

section Ranges

variable {elements : Elements F} {width : Option ℚ} {start count : ℕ}
  {items measured : List (ListItem F)}

@[simp] theorem layoutsOf_zero : layoutsOf elements width start 0 = [] := rfl

theorem layoutsOf_succ : layoutsOf elements width start (count + 1) =
    ⟨start, elements.size width start⟩ :: layoutsOf elements width (start + 1) count := rfl

theorem layoutsOf_append (start count count' : ℕ) :
    layoutsOf elements width start count ++ layoutsOf elements width (start + count) count' =
      layoutsOf elements width start (count + count') := by
  rw [layoutsOf, layoutsOf, layoutsOf, ← List.map_append, List.range'_append_1]

@[simp] theorem spanHeight_zero : spanHeight elements width start 0 = 0 := rfl

theorem spanHeight_succ : spanHeight elements width start (count + 1) =
    (elements.size width start).height + spanHeight elements width (start + 1) count := by
  rw [spanHeight, List.range'_succ, List.map_cons, List.sum_cons, spanHeight]

theorem spanHeight_append (start count count' : ℕ) :
    spanHeight elements width start count + spanHeight elements width (start + count) count' =
      spanHeight elements width start (count + count') := by
  rw [spanHeight, spanHeight, spanHeight, ← List.sum_append, ← List.map_append,
    List.range'_append_1]

theorem spanHeight_nonneg (start count : ℕ) : 0 ≤ spanHeight elements width start count := by
  refine List.sum_nonneg fun height hheight => ?_
  obtain ⟨ix, -, rfl⟩ := List.mem_map.mp hheight
  exact (elements.size width ix).nonneg

theorem not_focusIn_zero : ¬FocusIn elements items start 0 := by
  rintro ⟨ix, item, hstart, hend, -⟩
  omega

theorem focusIn_succ {item : ListItem F} (hitem : items[start]? = some item) :
    FocusIn elements items start (count + 1) ↔
      item.containsFocused elements = true ∨ FocusIn elements items (start + 1) count := by
  constructor
  · rintro ⟨ix, other, hstart, hend, hother, hfocus⟩
    obtain rfl | hlt := hstart.eq_or_lt
    · obtain rfl := Option.some.inj (hitem.symm.trans hother)
      exact .inl hfocus
    · exact .inr ⟨ix, other, hlt, by omega, hother, hfocus⟩
  · rintro (hfocus | ⟨ix, other, hstart, hend, hother, hfocus⟩)
    · exact ⟨start, item, le_rfl, by omega, hitem, hfocus⟩
    · exact ⟨ix, other, by omega, by omega, hother, hfocus⟩

theorem focusIn_append (start count count' : ℕ) :
    FocusIn elements items start (count + count') ↔
      FocusIn elements items start count ∨ FocusIn elements items (start + count) count' := by
  constructor
  · rintro ⟨ix, item, hstart, hend, hfocus⟩
    rcases Nat.lt_or_ge ix (start + count) with hlt | hge
    · exact .inl ⟨ix, item, hstart, hlt, hfocus⟩
    · exact .inr ⟨ix, item, hge, by omega, hfocus⟩
  · rintro (⟨ix, item, hstart, hend, hfocus⟩ | ⟨ix, item, hstart, hend, hfocus⟩)
    · exact ⟨ix, item, hstart, by omega, hfocus⟩
    · exact ⟨ix, item, by omega, by omega, hfocus⟩

theorem contentHeight_cons (item : ListItem F) (items : List (ListItem F)) :
    contentHeight (item :: items) = item.height + contentHeight items := by
  rw [contentHeight, List.map_cons, List.sum_cons, contentHeight]

theorem contentHeight_append (items items' : List (ListItem F)) :
    contentHeight (items ++ items') = contentHeight items + contentHeight items' := by
  rw [contentHeight, List.map_append, List.sum_append, contentHeight, contentHeight]

theorem contentHeight_nonneg (items : List (ListItem F)) : 0 ≤ contentHeight items := by
  rw [contentHeight]
  refine List.sum_nonneg fun height hheight => ?_
  obtain ⟨item, -, rfl⟩ := List.mem_map.mp hheight
  exact item.height_nonneg

theorem coversFrom_nil (hstart : start ≤ items.length) : CoversFrom items start [] :=
  ⟨hstart, by simp⟩

/-- One more item is measured behind the others. -/
theorem CoversFrom.concat (h : CoversFrom items start measured) {item : ListItem F}
    (hitem : items[start + measured.length]? = some item) (size : ItemSize) :
    CoversFrom items start (measured ++ [.measured size item.focusHandle]) := by
  have hlt := (List.getElem?_eq_some_iff.mp hitem).1
  constructor
  · rw [List.length_append, List.length_singleton]
    omega
  · rw [List.map_append, h.handles, List.length_append, List.length_singleton, List.take_add_one,
      List.getElem?_drop, hitem, List.map_append]
    rfl

/-- One more item is measured in front of the others. -/
theorem CoversFrom.cons (h : CoversFrom items (start + 1) measured) {item : ListItem F}
    (hitem : items[start]? = some item) (size : ItemSize) :
    CoversFrom items start (.measured size item.focusHandle :: measured) := by
  obtain ⟨hlt, hget⟩ := List.getElem?_eq_some_iff.mp hitem
  have hbound := h.bound
  constructor
  · rw [List.length_cons]
    omega
  · rw [List.map_cons, h.handles, List.length_cons, List.drop_eq_getElem_cons hlt, hget,
      List.take_succ_cons, List.map_cons]
    rfl

/-- Measured items in place of the items that they cover keep the focus handles. -/
theorem CoversFrom.handles_replace (h : CoversFrom items start measured) :
    (items.take start ++ measured ++ items.drop (start + measured.length)).map
      ListItem.focusHandle = items.map ListItem.focusHandle := by
  rw [List.map_append, List.map_append, h.handles, ← List.map_append, ← List.map_append,
    List.append_assoc, ← List.drop_drop, List.take_append_drop, List.take_append_drop]

end Ranges

namespace LayoutPass

variable {elements : Elements F} {width : Option ℚ} {availableHeight overdraw : ℚ}
  {items : List (ListItem F)} {start : ℕ} {space : ℚ} {p : LayoutPass F}

/-- A pass has measured the items from `start` on, and the rendered height is theirs and some
space. -/
structure Measures (p : LayoutPass F) (items : List (ListItem F)) (start : ℕ) (space : ℚ) :
    Prop where
  covers : CoversFrom items start p.measuredItems
  height : p.renderedHeight = space + contentHeight p.measuredItems

/-- The visible height that a pass has reached. -/
def visibleHeight (p : LayoutPass F) : ℚ := p.renderedHeight - p.scrollTop.offsetInItem

/-! ## Down from the scroll top -/

/-- An item is measured behind the others with a size, and some items are laid out. -/
structure Adds (p p' : LayoutPass F) (size : ItemSize) (item : ListItem F)
    (layouts : List ItemLayout) (focused : Bool) : Prop where
  measured : p'.measuredItems = p.measuredItems ++ [.measured size item.focusHandle]
  height : p'.renderedHeight = p.renderedHeight + size.height
  layouts : p'.itemLayouts = p.itemLayouts ++ layouts
  focused : p'.renderedFocusedItem = (p.renderedFocusedItem || focused)

/-- A pending fraction changes nothing but positions. -/
theorem applyPending_eq (p : LayoutPass F) (height : ℚ) :
    ∃ scrollTop position pending, p.applyPending height =
      { p with
        scrollTop := scrollTop
        logicalScrollTop := position
        pendingScroll := pending } := by
  obtain ⟨_, _, _, _, _, _, _, pending⟩ := p
  cases pending with
  | none => exact ⟨_, _, _, rfl⟩
  | some pending =>
    unfold applyPending
    dsimp only
    split_ifs
    all_goals exact ⟨_, _, _, rfl⟩

section Below

variable (elements width availableHeight)

/-- Rendering an item measures it, and lays it out if it begins in the viewport. -/
theorem render_adds (p : LayoutPass F) (ix : ℕ) (item : ListItem F) :
    p.Adds (p.render elements width availableHeight ix item)
      (elements.size width (p.scrollTop.itemIx + ix)) item
      (if p.visibleHeight < availableHeight then
        layoutsOf elements width (p.scrollTop.itemIx + ix) 1 else [])
      (decide (p.visibleHeight < availableHeight) && item.containsFocused elements) := by
  obtain ⟨scrollTop, position, pending, heq⟩ : ∃ scrollTop position pending,
      (if ix = 0 then
        p.applyPending (elements.size width (p.scrollTop.itemIx + ix)).height else p) =
      { p with
        scrollTop := scrollTop
        logicalScrollTop := position
        pendingScroll := pending } := by
    split_ifs
    exacts [p.applyPending_eq _, ⟨_, _, _, rfl⟩]
  unfold render visibleHeight
  dsimp only
  rw [heq]
  split_ifs with hvisible
  · exact ⟨rfl, rfl, rfl, by rw [decide_eq_true hvisible]; rfl⟩
  · exact ⟨rfl, rfl, (List.append_nil _).symm,
      by rw [decide_eq_false hvisible, Bool.false_and, Bool.or_false]; rfl⟩

/-- An item that begins in the viewport is rendered and laid out. -/
theorem layoutItem_visible (hvisible : p.visibleHeight < availableHeight) (ix : ℕ)
    (item : ListItem F) :
    p.Adds (p.layoutItem elements width availableHeight ix item)
      (elements.size width (p.scrollTop.itemIx + ix)) item
      (layoutsOf elements width (p.scrollTop.itemIx + ix) 1) (item.containsFocused elements) := by
  have hrender : p.layoutItem elements width availableHeight ix item =
      p.render elements width availableHeight ix item := by
    unfold layoutItem
    cases item.size with
    | none => rfl
    | some size => exact if_pos hvisible
  have hadds := p.render_adds elements width availableHeight ix item
  rw [if_pos hvisible, decide_eq_true hvisible, Bool.true_and] at hadds
  rwa [hrender]

/-- Other items are measured; without a size from before they are rendered for it. -/
theorem layoutItem_hidden (hhidden : ¬p.visibleHeight < availableHeight) (ix : ℕ)
    (item : ListItem F) :
    p.Adds (p.layoutItem elements width availableHeight ix item)
      (item.size.getD (elements.size width (p.scrollTop.itemIx + ix))) item [] false := by
  have hadds := p.render_adds elements width availableHeight ix item
  rw [if_neg hhidden, decide_eq_false hhidden, Bool.false_and] at hadds
  unfold layoutItem
  cases item.size with
  | none => exact hadds
  | some size =>
    have hhidden' : ¬p.renderedHeight - p.scrollTop.offsetInItem < availableHeight := hhidden
    dsimp only
    rw [if_neg hhidden']
    exact ⟨rfl, rfl, (List.append_nil _).symm, (Bool.or_false _).symm⟩

end Below

theorem Adds.measures {p' : LayoutPass F} {size : ItemSize} {item : ListItem F}
    {layouts : List ItemLayout} {focused : Bool} (h : p.Adds p' size item layouts focused)
    (hp : p.Measures items start space)
    (hitem : items[start + p.measuredItems.length]? = some item) :
    p'.Measures items start space := by
  constructor
  · rw [h.measured]
    exact hp.covers.concat hitem size
  · rw [h.measured, h.height, hp.height, contentHeight_append, contentHeight_cons]
    simp [contentHeight, ListItem.height, ListItem.size]
    ring

/-- A pass goes down from the item at `first`: it lays out `count` items, and it stops when they
fill the viewport or at the last item. -/
structure GoesDown (elements : Elements F) (width : Option ℚ) (availableHeight overdraw : ℚ)
    (items : List (ListItem F)) (first count : ℕ) (p q : LayoutPass F) : Prop where
  bound : first + count ≤ items.length
  layouts : q.itemLayouts = p.itemLayouts ++ layoutsOf elements width first count
  focused : q.renderedFocusedItem = true ↔
    p.renderedFocusedItem = true ∨ FocusIn elements items first count
  begins : 0 < count → p.visibleHeight < availableHeight
  fills : 0 ≤ overdraw → first + count < items.length →
    availableHeight ≤ p.visibleHeight + spanHeight elements width first count
  height : p.renderedHeight + spanHeight elements width first count ≤ q.renderedHeight
  reaches : first + count = items.length →
    q.renderedHeight = p.renderedHeight + spanHeight elements width first count

section GoesDown

variable {first count : ℕ} {p' q : LayoutPass F} {item : ListItem F} {size : ItemSize}

/-- The pass is at its end, or it has filled the viewport. -/
theorem GoesDown.stop (hfirst : first ≤ items.length)
    (hstop : 0 ≤ overdraw → first < items.length → availableHeight ≤ p.visibleHeight) :
    GoesDown elements width availableHeight overdraw items first 0 p p := by
  refine ⟨hfirst, (List.append_nil _).symm, ?_, by simp, fun hoverdraw hend => ?_, ?_, fun _ => ?_⟩
  · exact (or_iff_left not_focusIn_zero).symm
  · rw [spanHeight_zero, add_zero]
    exact hstop hoverdraw hend
  · rw [spanHeight_zero, add_zero]
  · rw [spanHeight_zero, add_zero]

/-- An item in the viewport is laid out before the others. -/
theorem GoesDown.visible
    (h : GoesDown elements width availableHeight overdraw items (first + 1) count p' q)
    (hadds : p.Adds p' (elements.size width first) item (layoutsOf elements width first 1)
      (item.containsFocused elements)) (htop : p'.scrollTop = p.scrollTop)
    (hitem : items[first]? = some item) (hvisible : p.visibleHeight < availableHeight) :
    GoesDown elements width availableHeight overdraw items first (count + 1) p q := by
  refine ⟨?_, ?_, ?_, fun _ => hvisible, fun hoverdraw hend => ?_, ?_, fun hend => ?_⟩
  · have := h.bound
    omega
  · rw [h.layouts, hadds.layouts, List.append_assoc, layoutsOf_succ]
    rfl
  · rw [h.focused, hadds.focused, focusIn_succ hitem, Bool.or_eq_true, or_assoc]
  · have hfills := h.fills hoverdraw (by omega)
    rw [visibleHeight, htop, hadds.height] at hfills
    rw [spanHeight_succ, visibleHeight]
    linarith
  · have hheight := h.height
    rw [hadds.height] at hheight
    rw [spanHeight_succ]
    linarith
  · rw [h.reaches (by omega), hadds.height, spanHeight_succ, add_assoc]

/-- What is behind a hidden item is hidden. -/
theorem GoesDown.hidden
    (h : GoesDown elements width availableHeight overdraw items (first + 1) count p' q)
    (hadds : p.Adds p' size item [] false) (htop : p'.scrollTop = p.scrollTop)
    (hlt : first < items.length) (hhidden : ¬p.visibleHeight < availableHeight) :
    GoesDown elements width availableHeight overdraw items first 0 p q := by
  have hnonneg := size.nonneg
  obtain rfl : count = 0 := by
    by_contra hcount
    have hbegins := h.begins (Nat.pos_of_ne_zero hcount)
    rw [visibleHeight, htop, hadds.height] at hbegins
    rw [visibleHeight] at hhidden
    linarith
  refine ⟨hlt.le, ?_, ?_, by simp, fun _ _ => ?_, ?_, fun hend => by omega⟩
  · rw [h.layouts, hadds.layouts, List.append_nil]
    rfl
  · rw [h.focused, hadds.focused, Bool.or_false, or_iff_left not_focusIn_zero,
      or_iff_left not_focusIn_zero]
  · rw [spanHeight_zero, add_zero]
    exact not_lt.mp hhidden
  · have hheight := h.height
    rw [hadds.height, spanHeight_zero] at hheight
    rw [spanHeight_zero]
    linarith

end GoesDown

/-- The loop behind the top item. The induction is on the items that are left. -/
theorem layoutBelow_spec {rest : List (ListItem F)} {first ix : ℕ} (hix : ix ≠ 0)
    (hfirst : p.scrollTop.itemIx + ix = first) (hrest : items.drop first = rest)
    (hp : p.Measures items start space) (hlength : start + p.measuredItems.length = first)
    (elements : Elements F) (width : Option ℚ) (availableHeight overdraw : ℚ) :
    (layoutBelow elements width availableHeight overdraw rest ix p).Measures items start space ∧
    ∃ count, GoesDown elements width availableHeight overdraw items first count p
      (layoutBelow elements width availableHeight overdraw rest ix p) := by
  induction rest generalizing p first ix with
  | nil =>
    have hend := List.drop_eq_nil_iff.mp hrest
    have hbound := hp.covers.bound
    exact ⟨hp, 0, .stop (by omega) fun _ hlt => by omega⟩
  | cons item rest ih =>
    obtain ⟨hitem, hrest'⟩ := walk_cons hrest
    have hlt : first < items.length := (List.getElem?_eq_some_iff.mp hitem).1
    rw [layoutBelow]
    split_ifs with hstop
    · have hstop' : availableHeight + overdraw ≤ p.visibleHeight := hstop
      exact ⟨hp, 0, .stop hlt.le fun hoverdraw _ => by linarith⟩
    set p' := p.layoutItem elements width availableHeight ix item with hp'
    have htop : p'.scrollTop = p.scrollTop := layoutItem_scrollTop _ _ _ p hix item
    have hnext : p'.scrollTop.itemIx + (ix + 1) = first + 1 := by
      rw [htop]
      omega
    have hdown : ∀ {size : ItemSize} {layouts : List ItemLayout} {focused : Bool},
        p.Adds p' size item layouts focused →
        (layoutBelow elements width availableHeight overdraw rest (ix + 1) p').Measures items start
          space ∧ ∃ count, GoesDown elements width availableHeight overdraw items (first + 1) count
            p' (layoutBelow elements width availableHeight overdraw rest (ix + 1) p') := by
      intro size layouts focused hadds
      refine ih (Nat.succ_ne_zero ix) hnext hrest' (hadds.measures hp (by rwa [hlength])) ?_
      rw [hadds.measured, List.length_append, List.length_singleton]
      omega
    by_cases hvisible : p.visibleHeight < availableHeight
    · have hadds := p.layoutItem_visible elements width availableHeight hvisible ix item
      rw [← hp', hfirst] at hadds
      obtain ⟨hmeasures, count, hgoes⟩ := hdown hadds
      exact ⟨hmeasures, count + 1, hgoes.visible hadds htop hitem hvisible⟩
    · have hadds := p.layoutItem_hidden elements width availableHeight hvisible ix item
      rw [← hp', hfirst] at hadds
      obtain ⟨hmeasures, count, hgoes⟩ := hdown hadds
      exact ⟨hmeasures, 0, hgoes.hidden hadds htop hlt hvisible⟩

end LayoutPass

namespace StateInner

variable (s : StateInner F) (elements : Elements F) (width : Option ℚ) (availableHeight : ℚ)
  (padding : Edges)

/-- The offset in the top item that a layout starts from, with the pending fraction. -/
def startOffset : ℚ :=
  (s.startPosition s.pendingFraction elements width availableHeight padding).offsetInItem

/-- The top item begins below the viewport with the offset that the layout finds, and above its
end with the offset that it starts from. -/
def SkipsTop : Prop :=
  s.scrollTop.itemIx < s.items.length ∧
    availableHeight ≤ padding.top - s.scrollTop.offsetInItem ∧
    padding.top - s.startOffset elements width availableHeight padding < availableHeight

instance : Decidable (s.SkipsTop elements width availableHeight padding) :=
  inferInstanceAs (Decidable (_ ∧ _ ∧ _))

/-- The first item that is laid out. -/
def firstLaidOut : ℕ :=
  if s.SkipsTop elements width availableHeight padding then s.scrollTop.itemIx + 1
  else s.scrollTop.itemIx

/-- What the first loop of a layout lays out. -/
structure LaysTop (count : ℕ) (q : LayoutPass F) : Prop where
  bound : s.firstLaidOut elements width availableHeight padding + count ≤ s.items.length
  layouts : q.itemLayouts =
    layoutsOf elements width (s.firstLaidOut elements width availableHeight padding) count
  focused : q.renderedFocusedItem = true ↔
    FocusIn elements s.items (s.firstLaidOut elements width availableHeight padding) count
  fills : 0 ≤ s.overdraw →
    s.firstLaidOut elements width availableHeight padding + count < s.items.length →
    availableHeight ≤ padding.top + spanHeight elements width s.scrollTop.itemIx
      (s.firstLaidOut elements width availableHeight padding - s.scrollTop.itemIx + count) -
        s.startOffset elements width availableHeight padding
  height : padding.top + spanHeight elements width s.scrollTop.itemIx
    (s.firstLaidOut elements width availableHeight padding - s.scrollTop.itemIx + count) +
      padding.bottom ≤ q.renderedHeight
  reaches : s.firstLaidOut elements width availableHeight padding + count = s.items.length →
    q.renderedHeight = padding.top + spanHeight elements width s.scrollTop.itemIx
      (s.firstLaidOut elements width availableHeight padding - s.scrollTop.itemIx + count) +
        padding.bottom
  next : s.SkipsTop elements width availableHeight padding → 0 < count →
    padding.top + (elements.size width s.scrollTop.itemIx).height -
      s.startOffset elements width availableHeight padding < availableHeight

variable {s}

@[simp] theorem startPosition_itemIx (fraction : Option ℚ) :
    (s.startPosition fraction elements width availableHeight padding).itemIx =
      s.scrollTop.itemIx := by
  unfold startPosition
  cases fraction with
  | none => rfl
  | some fraction =>
    dsimp only
    split_ifs
    all_goals rfl

section Top

variable {elements width availableHeight padding}
  {q : LayoutPass F} {item : ListItem F} {rest : List (ListItem F)} {count : ℕ}

theorem startPass_measures (padding : Edges) (hposition : s.scrollTop.itemIx ≤ s.items.length) :
    (s.startPass padding).Measures s.items s.scrollTop.itemIx padding.top :=
  ⟨coversFrom_nil hposition, by simp [startPass, contentHeight]⟩

/-- The first loop lays out nothing if the top item is hidden and stays so. -/
theorem laysTop_zero (hposition : s.scrollTop.itemIx ≤ s.items.length)
    (hskips : ¬s.SkipsTop elements width availableHeight padding) (hlayouts : q.itemLayouts = [])
    (hfocused : q.renderedFocusedItem = false) (hheight : padding.top ≤ q.renderedHeight)
    (hend : s.scrollTop.itemIx = s.items.length → q.renderedHeight = padding.top)
    (hfills : 0 ≤ s.overdraw → s.scrollTop.itemIx < s.items.length →
      availableHeight ≤ padding.top - s.startOffset elements width availableHeight padding) :
    s.LaysTop elements width availableHeight padding 0
      { q with renderedHeight := q.renderedHeight + padding.bottom } := by
  have hfirst : s.firstLaidOut elements width availableHeight padding = s.scrollTop.itemIx :=
    if_neg hskips
  refine ⟨by rw [hfirst]; exact hposition, hlayouts, ?_, ?_, ?_, ?_, by simp⟩
  · change q.renderedFocusedItem = true ↔ _
    rw [hfocused]
    exact iff_of_false Bool.false_ne_true not_focusIn_zero
  · rw [hfirst, Nat.sub_self, Nat.add_zero, spanHeight_zero, add_zero]
    exact hfills
  · rw [hfirst, Nat.sub_self, spanHeight_zero]
    change _ ≤ q.renderedHeight + padding.bottom
    linarith
  · rw [hfirst, Nat.sub_self, spanHeight_zero, Nat.add_zero, add_zero]
    intro hlast
    change q.renderedHeight + padding.bottom = _
    rw [hend hlast]

/-- What the first loop does behind the top item, from the pass after this item. -/
structure GoesOn (s : StateInner F) (elements : Elements F) (width : Option ℚ)
    (availableHeight : ℚ) (padding : Edges) (count : ℕ) (p' q : LayoutPass F) : Prop where
  down : LayoutPass.GoesDown elements width availableHeight s.overdraw s.items
    (s.scrollTop.itemIx + 1) count p' q
  top : p'.scrollTop.offsetInItem = s.startOffset elements width availableHeight padding

theorem GoesOn.visibleHeight {p' : LayoutPass F}
    (h : s.GoesOn elements width availableHeight padding count p' q) :
    p'.visibleHeight =
      p'.renderedHeight - s.startOffset elements width availableHeight padding := by
  rw [LayoutPass.visibleHeight, h.top]

/-- The top item is visible, and is laid out with those that follow. -/
theorem laysTop_visible (hitem : s.items[s.scrollTop.itemIx]? = some item)
    (hvisible : padding.top - s.scrollTop.offsetInItem < availableHeight)
    (h : s.GoesOn elements width availableHeight padding count
      ((s.startPass padding).layoutItem elements width availableHeight 0 item) q) :
    s.LaysTop elements width availableHeight padding (count + 1)
      { q with renderedHeight := q.renderedHeight + padding.bottom } := by
  have hadds := LayoutPass.layoutItem_visible elements width availableHeight
    (p := s.startPass padding) hvisible 0 item
  have hreached := h.visibleHeight
  set p' := (s.startPass padding).layoutItem elements width availableHeight 0 item
  have hnot : ¬s.SkipsTop elements width availableHeight padding :=
    fun hskips => absurd hskips.2.1 (not_le.mpr hvisible)
  have hfirst : s.firstLaidOut elements width availableHeight padding = s.scrollTop.itemIx :=
    if_neg hnot
  have hheight : p'.renderedHeight =
      padding.top + (elements.size width s.scrollTop.itemIx).height := hadds.height
  refine ⟨?_, ?_, ?_, fun hoverdraw hend => ?_, ?_, fun hend => ?_,
    fun hskips => absurd hskips hnot⟩
  · have := h.down.bound
    omega
  · change q.itemLayouts = _
    rw [h.down.layouts, hadds.layouts, hfirst, layoutsOf_succ]
    rfl
  · change q.renderedFocusedItem = true ↔ _
    rw [h.down.focused, hadds.focused, hfirst, focusIn_succ hitem]
    exact Iff.rfl
  · have hfills := h.down.fills hoverdraw (by omega)
    rw [hreached, hheight] at hfills
    rw [hfirst, Nat.sub_self, Nat.zero_add, spanHeight_succ]
    linarith
  · have hspan := h.down.height
    rw [hheight] at hspan
    rw [hfirst, Nat.sub_self, Nat.zero_add, spanHeight_succ]
    change _ ≤ q.renderedHeight + padding.bottom
    linarith
  · change q.renderedHeight + padding.bottom = _
    rw [h.down.reaches (by omega), hheight, hfirst, Nat.sub_self, Nat.zero_add, spanHeight_succ,
      add_assoc padding.top]

/-- The offset changes while the top item is hidden only if this item has no size. -/
theorem size_eq_none_of_skipsTop (hskips : s.SkipsTop elements width availableHeight padding)
    (h : s.GoesOn elements width availableHeight padding count
      ((s.startPass padding).layoutItem elements width availableHeight 0 item) q) :
    item.size = none := by
  have hposition := s.layoutItem_startPass elements width availableHeight padding item
  have htop := h.top
  obtain ⟨-, hhidden, hvisible⟩ := hskips
  by_contra hsome
  have hkept : ¬(item.size.isNone ∨
      padding.top - s.scrollTop.offsetInItem < availableHeight) := by
    rintro (hnone | hlt)
    · exact hsome (Option.isNone_iff_eq_none.mp hnone)
    · exact absurd hhidden (not_le.mpr hlt)
  rw [if_neg hkept] at hposition
  rw [hposition] at htop
  rw [← htop] at hvisible
  exact absurd hvisible (not_lt.mpr hhidden)

/-- The top item is hidden and those that follow are laid out. -/
theorem laysTop_skips (hskips : s.SkipsTop elements width availableHeight padding)
    (h : s.GoesOn elements width availableHeight padding count
      ((s.startPass padding).layoutItem elements width availableHeight 0 item) q) :
    s.LaysTop elements width availableHeight padding count
      { q with renderedHeight := q.renderedHeight + padding.bottom } := by
  have hadds := LayoutPass.layoutItem_hidden elements width availableHeight
    (p := s.startPass padding) (not_lt.mpr hskips.2.1) 0 item
  rw [size_eq_none_of_skipsTop hskips h, Option.getD_none] at hadds
  have hreached := h.visibleHeight
  set p' := (s.startPass padding).layoutItem elements width availableHeight 0 item
  have hfirst : s.firstLaidOut elements width availableHeight padding = s.scrollTop.itemIx + 1 :=
    if_pos hskips
  have hcount : s.firstLaidOut elements width availableHeight padding - s.scrollTop.itemIx + count =
      count + 1 := by omega
  have hheight : p'.renderedHeight =
      padding.top + (elements.size width s.scrollTop.itemIx).height := hadds.height
  refine ⟨by rw [hfirst]; exact h.down.bound, ?_, ?_, fun hoverdraw hend => ?_, ?_, fun hend => ?_,
    fun _ hcount => ?_⟩
  · change q.itemLayouts = _
    rw [h.down.layouts, hadds.layouts, hfirst]
    rfl
  · change q.renderedFocusedItem = true ↔ _
    rw [h.down.focused, hadds.focused, hfirst, Bool.or_false]
    exact or_iff_right Bool.false_ne_true
  · have hfills := h.down.fills hoverdraw (by omega)
    rw [hreached, hheight] at hfills
    rw [hcount, spanHeight_succ]
    linarith
  · have hspan := h.down.height
    rw [hheight] at hspan
    rw [hcount, spanHeight_succ]
    change _ ≤ q.renderedHeight + padding.bottom
    linarith
  · change q.renderedHeight + padding.bottom = _
    rw [h.down.reaches (by omega), hheight, hcount, spanHeight_succ, add_assoc padding.top]
  · have hbegins := h.down.begins hcount
    rwa [hreached, hheight] at hbegins

/-- The top item is hidden and stays so. -/
theorem laysTop_hidden (hlt : s.scrollTop.itemIx < s.items.length)
    (hhidden : ¬padding.top - s.scrollTop.offsetInItem < availableHeight)
    (hskips : ¬s.SkipsTop elements width availableHeight padding)
    (h : s.GoesOn elements width availableHeight padding count
      ((s.startPass padding).layoutItem elements width availableHeight 0 item) q) :
    s.LaysTop elements width availableHeight padding 0
      { q with renderedHeight := q.renderedHeight + padding.bottom } := by
  have hadds := LayoutPass.layoutItem_hidden elements width availableHeight
    (p := s.startPass padding) hhidden 0 item
  have hnonneg := (item.size.getD (elements.size width s.scrollTop.itemIx)).nonneg
  have hreached := h.visibleHeight
  set p' := (s.startPass padding).layoutItem elements width availableHeight 0 item
  have hheight : p'.renderedHeight =
      padding.top + (item.size.getD (elements.size width s.scrollTop.itemIx)).height := hadds.height
  have hreach : availableHeight ≤ padding.top -
      s.startOffset elements width availableHeight padding := by
    by_contra hless
    exact hskips ⟨hlt, not_lt.mp hhidden, not_le.mp hless⟩
  obtain rfl : count = 0 := by
    by_contra hcount
    have hless := h.down.begins (Nat.pos_of_ne_zero hcount)
    rw [hreached, hheight] at hless
    linarith
  refine laysTop_zero hlt.le hskips ?_ ?_ ?_ (fun hend => by omega) fun _ _ => hreach
  · rw [h.down.layouts, hadds.layouts]
    rfl
  · have hnot : ¬q.renderedFocusedItem = true := by
      rw [h.down.focused, hadds.focused, or_iff_left not_focusIn_zero]
      simp [startPass]
    exact Bool.eq_false_of_not_eq_true hnot
  · have hnext := h.down.height
    rw [hheight, spanHeight_zero] at hnext
    linarith

end Top

/-- The first loop without the bottom padding: it stops at the top item or goes on behind it. -/
theorem layoutBelow_startPass (hposition : s.scrollTop.itemIx ≤ s.items.length) :
    let q := LayoutPass.layoutBelow elements width availableHeight s.overdraw
      (s.items.drop s.scrollTop.itemIx) 0 (s.startPass padding)
    q.Measures s.items s.scrollTop.itemIx padding.top ∧
      ∃ count, s.LaysTop elements width availableHeight padding count
        { q with renderedHeight := q.renderedHeight + padding.bottom } := by
  have hstart := s.startPass_measures padding hposition
  intro q
  have hoffset : q.scrollTop.offsetInItem =
      s.startOffset elements width availableHeight padding := by
    rw [startOffset, ← topPass_scrollTop]
    rfl
  cases hdrop : s.items.drop s.scrollTop.itemIx with
  | nil =>
    have hend := List.drop_eq_nil_iff.mp hdrop
    have hq : q = s.startPass padding := by
      change LayoutPass.layoutBelow _ _ _ _ (s.items.drop s.scrollTop.itemIx) _ _ = _
      rw [hdrop, LayoutPass.layoutBelow]
    rw [hq]
    exact ⟨hstart, 0, laysTop_zero hposition (fun h => absurd h.1 (by omega)) rfl rfl le_rfl
      (fun _ => rfl) fun _ hlt => by omega⟩
  | cons item rest =>
    obtain ⟨hitem, hrest⟩ := walk_cons hdrop
    have hlt : s.scrollTop.itemIx < s.items.length := (List.getElem?_eq_some_iff.mp hitem).1
    by_cases hstop : padding.top - s.scrollTop.offsetInItem ≥ availableHeight + s.overdraw
    · have hq : q = s.startPass padding := by
        change LayoutPass.layoutBelow _ _ _ _ (s.items.drop s.scrollTop.itemIx) _ _ = _
        rw [hdrop, LayoutPass.layoutBelow]
        exact if_pos hstop
      have hsame : s.startOffset elements width availableHeight padding =
          s.scrollTop.offsetInItem := by rw [← hoffset, hq]; rfl
      rw [hq]
      refine ⟨hstart, 0, laysTop_zero hposition (fun h => ?_) rfl rfl le_rfl (fun _ => rfl)
        fun hoverdraw _ => ?_⟩
      · obtain ⟨-, hhidden, hvisible⟩ := h
        rw [hsame] at hvisible
        exact absurd hvisible (not_lt.mpr hhidden)
      · rw [hsame]
        linarith
    have hrun : q = LayoutPass.layoutBelow elements width availableHeight s.overdraw rest 1
        ((s.startPass padding).layoutItem elements width availableHeight 0 item) := by
      change LayoutPass.layoutBelow _ _ _ _ (s.items.drop s.scrollTop.itemIx) _ _ = _
      rw [hdrop, LayoutPass.layoutBelow]
      exact if_neg hstop
    set p' := (s.startPass padding).layoutItem elements width availableHeight 0 item with hp'
    have htop : q.scrollTop = p'.scrollTop := by
      rw [hrun, LayoutPass.layoutBelow_scrollTop _ _ _ _ _ one_ne_zero]
    have hindex : p'.scrollTop.itemIx = s.scrollTop.itemIx := by
      rw [← htop, ← startPosition_itemIx elements width availableHeight padding s.pendingFraction,
        ← topPass_scrollTop]
      rfl
    have hadds : ∃ size layouts focused,
        (s.startPass padding).Adds p' size item layouts focused := by
      by_cases hvisible : (s.startPass padding).visibleHeight < availableHeight
      · exact ⟨_, _, _,
          LayoutPass.layoutItem_visible elements width availableHeight hvisible 0 item⟩
      · exact ⟨_, _, _,
          LayoutPass.layoutItem_hidden elements width availableHeight hvisible 0 item⟩
    obtain ⟨size, layouts, focused, hadds⟩ := hadds
    obtain ⟨hmeasures, count, hdown⟩ := LayoutPass.layoutBelow_spec one_ne_zero (by rw [hindex])
      hrest (hadds.measures hstart hitem) (by rw [hadds.measured]; rfl) elements width
      availableHeight s.overdraw
    rw [← hrun] at hmeasures hdown
    have hgoes : s.GoesOn elements width availableHeight padding count p' q :=
      ⟨hdown, by rw [← htop, hoffset]⟩
    refine ⟨hmeasures, ?_⟩
    by_cases hvisible : padding.top - s.scrollTop.offsetInItem < availableHeight
    · exact ⟨_, laysTop_visible hitem hvisible hgoes⟩
    by_cases hskips : s.SkipsTop elements width availableHeight padding
    · exact ⟨_, laysTop_skips hskips hgoes⟩
    · exact ⟨_, laysTop_hidden hlt hvisible hskips hgoes⟩

/-- The first loop measures the items from the scroll top on and lays out those in the
viewport. -/
theorem topPass_spec (hposition : s.scrollTop.itemIx ≤ s.items.length) :
    (s.topPass elements width availableHeight padding).Measures s.items s.scrollTop.itemIx
        (padding.top + padding.bottom) ∧
      ∃ count, s.LaysTop elements width availableHeight padding count
        (s.topPass elements width availableHeight padding) := by
  obtain ⟨hmeasures, hlays⟩ :=
    layoutBelow_startPass elements width availableHeight padding hposition
  refine ⟨⟨hmeasures.covers, ?_⟩, hlays⟩
  calc (s.topPass elements width availableHeight padding).renderedHeight
      = padding.top + contentHeight _ + padding.bottom := congrArg (· + padding.bottom)
        hmeasures.height
    _ = _ := add_right_comm _ _ _

end StateInner

end Lucie.ItemList
