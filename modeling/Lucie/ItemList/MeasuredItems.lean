import Lucie.ItemList.Positioned

/-!
# The sizes that a layout measures

The loops of a layout measure a range of items. Every item that they lay out is measured with the
size of its element. If the sizes from before are those of the elements too, all of the measured
heights are.
-/

set_option autoImplicit false

namespace Lucie.ItemList

variable {F : Type} {elements : Elements F} {width : Option ℚ} {availableHeight overdraw : ℚ}
  {items : List (ListItem F)} {start first : ℕ}

/-! ## What the loops keep -/

namespace LayoutPass

variable {p p' q : LayoutPass F}

theorem applyPending_itemIx (p : LayoutPass F) (height : ℚ) :
    (p.applyPending height).scrollTop.itemIx = p.scrollTop.itemIx := by
  unfold applyPending
  cases p.pendingScroll with
  | none => rfl
  | some pending =>
    dsimp only
    split_ifs
    all_goals rfl

theorem render_itemIx (p : LayoutPass F) (ix : ℕ) (item : ListItem F) :
    (p.render elements width availableHeight ix item).scrollTop.itemIx = p.scrollTop.itemIx := by
  rw [render_scrollTop]
  split_ifs
  · exact p.applyPending_itemIx _
  · rfl

theorem layoutItem_itemIx (p : LayoutPass F) (ix : ℕ) (item : ListItem F) :
    (p.layoutItem elements width availableHeight ix item).scrollTop.itemIx =
      p.scrollTop.itemIx := by
  unfold layoutItem
  cases item.size with
  | none => exact p.render_itemIx ix item
  | some size =>
    dsimp only
    split_ifs
    · exact p.render_itemIx ix item
    · rfl

/-- An item is measured with the size of its element or the size from before, and it is laid out
with the measured size. -/
theorem layoutItem_adds (elements : Elements F) (width : Option ℚ) (availableHeight : ℚ)
    (p : LayoutPass F) (ix : ℕ) (item : ListItem F) :
    ∃ size layouts focused,
      p.Adds (p.layoutItem elements width availableHeight ix item) size item layouts focused ∧
      (∀ layout ∈ layouts, layout = ⟨p.scrollTop.itemIx + ix, size⟩) ∧
      (size = elements.size width (p.scrollTop.itemIx + ix) ∨ item.size = some size) := by
  by_cases hvisible : p.visibleHeight < availableHeight
  · exact ⟨_, _, _, p.layoutItem_visible elements width availableHeight hvisible ix item,
      fun _ hlayout => List.mem_singleton.mp hlayout, .inl rfl⟩
  · refine ⟨_, _, _, p.layoutItem_hidden elements width availableHeight hvisible ix item,
      by simp, ?_⟩
    cases item.size with
    | none => exact .inl rfl
    | some size => exact .inr rfl

/-- What every round of the first loop keeps holds at its end. The induction is on the items that
are left. -/
theorem layoutBelow_keeps (keeps : LayoutPass F → Prop)
    (hstep : ∀ (p : LayoutPass F) (item : ListItem F), p.scrollTop.itemIx = start →
      items[start + p.measuredItems.length]? = some item → keeps p →
      keeps (p.layoutItem elements width availableHeight p.measuredItems.length item))
    {rest : List (ListItem F)} (hp : keeps p) (htop : p.scrollTop.itemIx = start)
    (hrest : items.drop (start + p.measuredItems.length) = rest) :
    keeps (layoutBelow elements width availableHeight overdraw rest p.measuredItems.length p) := by
  induction rest generalizing p with
  | nil => exact hp
  | cons item rest ih =>
    obtain ⟨hitem, hrest'⟩ := walk_cons hrest
    rw [layoutBelow]
    split_ifs
    · exact hp
    obtain ⟨size, layouts, focused, hadds, -⟩ :=
      p.layoutItem_adds elements width availableHeight p.measuredItems.length item
    have hlength : (p.layoutItem elements width availableHeight p.measuredItems.length
        item).measuredItems.length = p.measuredItems.length + 1 := by
      rw [hadds.measured, List.length_append, List.length_singleton]
    rw [← hlength]
    refine ih (hstep p item htop hitem hp) ((p.layoutItem_itemIx _ _).trans htop) ?_
    rw [hlength, ← Nat.add_assoc, hrest']

/-- What every step of the walk upward keeps holds at its end. The induction is on the number of
items above. -/
theorem layoutAbove_keeps (keeps : ℕ → LayoutPass F → Prop)
    (hstep : ∀ (start : ℕ) (p : LayoutPass F) (item : ListItem F), items[start]? = some item →
      keeps (start + 1) p → keeps start (p.renderAbove elements width start item))
    (hp : keeps start p) (hstart : start ≤ items.length) :
    keeps (layoutAbove elements width availableHeight (items.take start).reverse p).1.length
      (layoutAbove elements width availableHeight (items.take start).reverse p).2 := by
  induction start generalizing p with
  | zero => exact hp
  | succ start ih =>
    have hitem : items[start]? = some items[start] := List.getElem?_eq_getElem hstart
    rw [reverse_take_succ hitem, layoutAbove, length_reverse_take (Nat.le_of_succ_le hstart)]
    split_ifs
    · exact ih (hstep start p _ hitem hp) (Nat.le_of_succ_le hstart)
    · dsimp only
      rwa [← reverse_take_succ hitem, length_reverse_take hstart]

/-- What the passes keep holds of the pass that fills the viewport. -/
theorem fill_keeps (keeps : ℕ → LayoutPass F → Prop) {alignment : ListAlignment}
    (hstep : ∀ (start : ℕ) (p : LayoutPass F) (item : ListItem F), items[start]? = some item →
      keeps (start + 1) p → keeps start (p.renderAbove elements width start item))
    (hadjust : ∀ (start : ℕ) (p : LayoutPass F), keeps start p →
      keeps start (p.adjustScrollTop availableHeight alignment start))
    (hp : keeps start p) (hstart : start ≤ items.length)
    (hfill : fill elements width availableHeight alignment (items.take start).reverse p =
      ((items.take first).reverse, q)) (hfirst : first ≤ items.length) : keeps first q := by
  have habove : keeps (layoutAbove elements width availableHeight (items.take start).reverse
      p).1.length (layoutAbove elements width availableHeight (items.take start).reverse p).2 :=
    layoutAbove_keeps keeps hstep hp hstart
  unfold fill at hfill
  split_ifs at hfill
  · obtain ⟨hbefore, hq⟩ := Prod.mk.inj hfill
    rw [hbefore, length_reverse_take hfirst] at habove hq
    rw [← hq]
    exact hadjust first _ habove
  · obtain ⟨hbefore, rfl⟩ := Prod.mk.inj hfill
    have hsame := congrArg List.length hbefore
    rw [length_reverse_take hstart, length_reverse_take hfirst] at hsame
    rwa [← hsame]

/-! ## Sizes of layouts -/

theorem adjustScrollTop_measuredItems (p : LayoutPass F) (alignment : ListAlignment)
    (start : ℕ) :
    (p.adjustScrollTop availableHeight alignment start).measuredItems = p.measuredItems := by
  cases alignment with
  | top => rfl
  | bottom => rfl

/-- Every item that a pass has laid out is measured with the size of its layout. -/
def MeasuresLayouts (start : ℕ) (p : LayoutPass F) : Prop :=
  ∀ layout ∈ p.itemLayouts, start ≤ layout.index ∧ ∃ focusHandle,
    p.measuredItems[layout.index - start]? = some (.measured layout.size focusHandle)

theorem MeasuresLayouts.layoutItem (h : MeasuresLayouts start p) (htop : p.scrollTop.itemIx = start)
    (item : ListItem F) : MeasuresLayouts start
      (p.layoutItem elements width availableHeight p.measuredItems.length item) := by
  obtain ⟨size, layouts, focused, hadds, hlayouts, -⟩ :=
    p.layoutItem_adds elements width availableHeight p.measuredItems.length item
  intro layout hlayout
  rw [hadds.layouts, List.mem_append] at hlayout
  rw [hadds.measured]
  rcases hlayout with hold | hnew
  · obtain ⟨hle, focusHandle, hget⟩ := h layout hold
    refine ⟨hle, focusHandle, ?_⟩
    rwa [List.getElem?_append_left (List.getElem?_eq_some_iff.mp hget).1]
  · obtain rfl := hlayouts layout hnew
    dsimp only
    rw [htop, Nat.add_sub_cancel_left, List.getElem?_concat_length]
    exact ⟨Nat.le_add_right _ _, item.focusHandle, rfl⟩

theorem MeasuresLayouts.renderAbove (h : MeasuresLayouts (start + 1) p) (item : ListItem F) :
    MeasuresLayouts start (p.renderAbove elements width start item) := by
  intro layout hlayout
  rcases List.mem_cons.mp hlayout with rfl | hold
  · refine ⟨le_rfl, item.focusHandle, ?_⟩
    rw [Nat.sub_self]
    rfl
  · obtain ⟨hle, focusHandle, hget⟩ := h layout hold
    have hindex : layout.index - start = layout.index - (start + 1) + 1 := by omega
    refine ⟨Nat.le_of_succ_le hle, focusHandle, ?_⟩
    rw [hindex]
    exact hget

theorem MeasuresLayouts.adjustScrollTop (h : MeasuresLayouts start p) (alignment : ListAlignment) :
    MeasuresLayouts start (p.adjustScrollTop availableHeight alignment start) := by
  unfold LayoutPass.adjustScrollTop
  cases alignment with
  | top => exact h
  | bottom => exact h

end LayoutPass

/-! ## Exact heights -/

/-- The sizes that are known from before have the heights of the elements. -/
def ExactHeights (elements : Elements F) (width : Option ℚ) (items : List (ListItem F)) : Prop :=
  ∀ (ix : ℕ) (item : ListItem F) (size : ItemSize), items[ix]? = some item →
    item.size = some size → size.height = (elements.size width ix).height

/-- The items are measured, with the heights of the elements from `start` on. -/
def MeasuresHeights (elements : Elements F) (width : Option ℚ) (start : ℕ)
    (measured : List (ListItem F)) : Prop :=
  measured.map ListItem.height =
    (List.range' start measured.length).map fun ix => (elements.size width ix).height

variable {measured : List (ListItem F)} {size : ItemSize} {focusHandle : Option F}

theorem MeasuresHeights.contentHeight (h : MeasuresHeights elements width start measured) :
    contentHeight measured = spanHeight elements width start measured.length :=
  congrArg List.sum h

theorem MeasuresHeights.concat (h : MeasuresHeights elements width start measured)
    (hsize : size.height = (elements.size width (start + measured.length)).height) :
    MeasuresHeights elements width start (measured ++ [.measured size focusHandle]) := by
  unfold MeasuresHeights at h ⊢
  rw [List.map_append, h, List.length_append, List.length_singleton, List.range'_1_concat,
    List.map_append, List.map_singleton, List.map_singleton, ← hsize]
  rfl

theorem MeasuresHeights.cons (h : MeasuresHeights elements width (start + 1) measured)
    (hsize : size.height = (elements.size width start).height) :
    MeasuresHeights elements width start (.measured size focusHandle :: measured) := by
  unfold MeasuresHeights at h ⊢
  rw [List.map_cons, h, List.length_cons, List.range'_succ, List.map_cons, ← hsize]
  rfl

theorem MeasuresHeights.getElem? (h : MeasuresHeights elements width start measured) {i : ℕ}
    {item : ListItem F} (hitem : measured[i]? = some item) :
    item.height = (elements.size width (start + i)).height := by
  have hlt := (List.getElem?_eq_some_iff.mp hitem).1
  have hget := congrArg (·[i]?) h
  simp only [List.getElem?_map, hitem, List.getElem?_range' hlt, Option.map_some] at hget
  rw [Option.some.inj hget, Nat.one_mul]

theorem ExactHeights.getD (h : ExactHeights elements width items) {item : ListItem F}
    (hitem : items[start]? = some item) :
    (item.size.getD (elements.size width start)).height = (elements.size width start).height := by
  cases hsize : item.size with
  | none => rfl
  | some size => exact h start item size hitem hsize

/-- The first loop measures exact heights. -/
theorem ExactHeights.layoutItem (h : ExactHeights elements width items) {p : LayoutPass F}
    (hp : MeasuresHeights elements width start p.measuredItems) (htop : p.scrollTop.itemIx = start)
    {item : ListItem F} (hitem : items[start + p.measuredItems.length]? = some item) :
    MeasuresHeights elements width start
      (p.layoutItem elements width availableHeight p.measuredItems.length item).measuredItems := by
  obtain ⟨size, layouts, focused, hadds, -, hsize⟩ :=
    p.layoutItem_adds elements width availableHeight p.measuredItems.length item
  rw [hadds.measured]
  refine hp.concat ?_
  rcases hsize with hrendered | hbefore
  · rw [hrendered, htop]
  · exact h _ item size hitem hbefore

/-- The leading overdraw measures exact heights. The induction is on the number of items above. -/
theorem ExactHeights.measureAbove (h : ExactHeights elements width items)
    (hmeasured : MeasuresHeights elements width start measured) (hstart : start ≤ items.length)
    (overdraw leading : ℚ) :
    MeasuresHeights elements width
      (LayoutPass.measureAbove elements width overdraw (items.take start).reverse leading
        measured).1.length
      (LayoutPass.measureAbove elements width overdraw (items.take start).reverse leading
        measured).2 := by
  induction start generalizing leading measured with
  | zero => exact hmeasured
  | succ start ih =>
    have hitem : items[start]? = some items[start] := List.getElem?_eq_getElem hstart
    rw [LayoutPass.reverse_take_succ hitem, LayoutPass.measureAbove,
      LayoutPass.length_reverse_take (Nat.le_of_succ_le hstart)]
    split_ifs
    · exact ih (hmeasured.cons (h.getD hitem)) (Nat.le_of_succ_le hstart) _
    · dsimp only
      rwa [← LayoutPass.reverse_take_succ hitem, LayoutPass.length_reverse_take hstart]

/-! ## The items after a layout -/

/-- Items of which a range is replaced by as many others. -/
theorem getElem?_replace (hbound : start + measured.length ≤ items.length) (ix : ℕ) :
    (items.take start ++ measured ++ items.drop (start + measured.length))[ix]? =
      if start ≤ ix ∧ ix < start + measured.length then measured[ix - start]? else items[ix]? := by
  have hlength : (items.take start).length = start := by
    rw [List.length_take]
    omega
  rw [List.append_assoc, List.getElem?_append, hlength, List.getElem?_append, List.getElem?_drop,
    List.getElem?_take]
  split_ifs
  · omega
  · rfl
  · rfl
  · omega
  · omega
  · congr 1
    omega

namespace StateInner

variable {s s' : StateInner F} {padding : Edges} {q : LayoutPass F}

/-- What a layout has measured from `first` on is in the items after it. -/
structure Replaces (s : StateInner F) (elements : Elements F) (width : Option ℚ) (first : ℕ)
    (q : LayoutPass F) (s' : StateInner F) : Prop where
  layouts : q.MeasuresLayouts first
  items : ∀ i < q.measuredItems.length, s'.items[first + i]? = q.measuredItems[i]?
  heights : ExactHeights elements width s.items →
    MeasuresHeights elements width first q.measuredItems ∧ ExactHeights elements width s'.items

theorem topPass_measuresLayouts (elements : Elements F) (width : Option ℚ) (availableHeight : ℚ)
    (padding : Edges) :
    (s.topPass elements width availableHeight padding).MeasuresLayouts s.scrollTop.itemIx := by
  have hbelow : (LayoutPass.layoutBelow elements width availableHeight s.overdraw
      (s.items.drop s.scrollTop.itemIx) 0 (s.startPass padding)).MeasuresLayouts
        s.scrollTop.itemIx := by
    refine LayoutPass.layoutBelow_keeps (LayoutPass.MeasuresLayouts s.scrollTop.itemIx)
      (p := s.startPass padding) (fun p item htop _ hp => ?_) (by rintro _ ⟨⟩) rfl rfl
    exact hp.layoutItem htop item
  exact hbelow

theorem topPass_measuresHeights (h : ExactHeights elements width s.items) (availableHeight : ℚ)
    (padding : Edges) : MeasuresHeights elements width s.scrollTop.itemIx
      (s.topPass elements width availableHeight padding).measuredItems := by
  have hbelow : MeasuresHeights elements width s.scrollTop.itemIx (LayoutPass.layoutBelow elements
      width availableHeight s.overdraw (s.items.drop s.scrollTop.itemIx) 0
        (s.startPass padding)).measuredItems := by
    refine LayoutPass.layoutBelow_keeps
      (fun p => MeasuresHeights elements width s.scrollTop.itemIx p.measuredItems)
      (p := s.startPass padding) (fun p item htop hitem hp => ?_) rfl rfl rfl
    exact h.layoutItem hp htop hitem
  exact hbelow

/-- The passes and the items of a layout. -/
theorem exists_replaces (hposition : s.scrollTop.itemIx ≤ s.items.length) (elements : Elements F)
    (width : Option ℚ) (availableHeight : ℚ) (padding : Edges) :
    ∃ first q, LayoutPass.fill elements width availableHeight s.alignment
        (s.items.take s.scrollTop.itemIx).reverse
        (s.topPass elements width availableHeight padding) = ((s.items.take first).reverse, q) ∧
      s.LayoutOf elements width availableHeight padding first q
        (s.layoutItems elements width availableHeight padding).1
        (s.layoutItems elements width availableHeight padding).2 ∧
      s.Replaces elements width first q
        (s.layoutItems elements width availableHeight padding).1 := by
  obtain ⟨first, q, hfill, hfills⟩ := exists_fills elements width availableHeight padding hposition
  refine ⟨first, q, hfill, layoutOf_of_fills elements width availableHeight padding hfill hfills,
    ?_⟩
  have hfirst : first ≤ s.items.length := hfills.le.trans hposition
  obtain ⟨start, above, hrun, hlength, hle, hcovers, hlayout⟩ :=
    layoutItems_eq elements width availableHeight padding hfill hfills.measures.covers
  have hbound := hcovers.bound
  rw [hlayout]
  refine ⟨?_, fun i hi => ?_, fun hexact => ?_⟩
  · refine LayoutPass.fill_keeps LayoutPass.MeasuresLayouts (fun start p item _ hp => ?_)
      (fun start p hp => ?_) (topPass_measuresLayouts elements width availableHeight padding)
      hposition hfill hfirst
    · exact hp.renderAbove item
    · exact hp.adjustScrollTop _
  · rw [List.length_append] at hbound
    rw [getElem?_replace hcovers.bound, if_pos (by rw [List.length_append]; omega),
      List.getElem?_append_right (by omega)]
    congr 1
    omega
  · have hq : MeasuresHeights elements width first q.measuredItems := by
      refine LayoutPass.fill_keeps (fun start p => MeasuresHeights elements width start
        p.measuredItems) (fun start p item _ hp => ?_) (fun start p hp => ?_)
        (topPass_measuresHeights hexact availableHeight padding) hposition hfill hfirst
      · exact hp.cons rfl
      · rwa [LayoutPass.adjustScrollTop_measuredItems]
    have habove := hexact.measureAbove hq hfirst s.overdraw q.scrollTop.offsetInItem
    rw [hrun, LayoutPass.length_reverse_take (hle.trans hfirst)] at habove
    refine ⟨hq, fun ix item size hitem hsize => ?_⟩
    dsimp only at hitem
    rw [getElem?_replace hcovers.bound] at hitem
    split_ifs at hitem with hinside
    · have hheight := habove.getElem? hitem
      rw [ListItem.height, hsize, Nat.add_sub_cancel' hinside.1] at hheight
      exact hheight
    · exact hexact ix item size hitem hsize

end StateInner

end Lucie.ItemList
