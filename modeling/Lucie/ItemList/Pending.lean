import Lucie.ItemList.Reveal
import Lucie.ItemList.ScrollBy
import Lucie.ItemList.Splice
import Lucie.ItemList.VisibleRange

/-!
# The pending scroll fraction

`remeasure` remembers how far the top item is scrolled, and the next layout applies the
fraction if the top item has the remembered index. Calls in between leave the remembered
index alone. Here a run of such calls is followed together with the fraction that the layout
should apply: one is set by `remeasure`, and lost when a position is set or the item removed.
-/

set_option autoImplicit false

namespace Lucie.ItemList

variable {F : Type}

/-- The item that a walk over the items has come to, and the items behind it. -/
theorem walk_cons {items rest : List (ListItem F)} {first : ℕ} {item : ListItem F}
    (hrest : items.drop first = item :: rest) :
    items[first]? = some item ∧ items.drop (first + 1) = rest := by
  constructor
  · rw [← List.head?_drop, hrest, List.head?_cons]
  · rw [← List.tail_drop, hrest, List.tail_cons]

/-! ## The layout of the top item -/

namespace LayoutPass

variable (elements : Elements F) (width : Option ℚ) (availableHeight overdraw : ℚ)

@[simp] theorem pushMeasured_scrollTop (p : LayoutPass F) (size : ItemSize) (item : ListItem F) :
    (p.pushMeasured size item).scrollTop = p.scrollTop := rfl

/-- The top item takes up a pending fraction when it is rendered. -/
theorem render_scrollTop (p : LayoutPass F) (ix : ℕ) (item : ListItem F) :
    (p.render elements width availableHeight ix item).scrollTop =
      if ix = 0 then
        (p.applyPending (elements.size width (p.scrollTop.itemIx + ix)).height).scrollTop
      else p.scrollTop := by
  simp only [render, pushMeasured_scrollTop]
  split_ifs
  all_goals rfl

/-- No item but the top one changes the scroll top. -/
theorem layoutItem_scrollTop (p : LayoutPass F) {ix : ℕ} (hix : ix ≠ 0) (item : ListItem F) :
    (p.layoutItem elements width availableHeight ix item).scrollTop = p.scrollTop := by
  have hrender := p.render_scrollTop elements width availableHeight ix item
  rw [if_neg hix] at hrender
  unfold layoutItem
  cases item.size with
  | none => exact hrender
  | some size =>
    dsimp only
    split_ifs
    · exact hrender
    · rfl

/-- The items behind the top one do not change the scroll top. The induction is on them. -/
theorem layoutBelow_scrollTop (items : List (ListItem F)) {ix : ℕ} (hix : ix ≠ 0)
    (p : LayoutPass F) :
    (layoutBelow elements width availableHeight overdraw items ix p).scrollTop = p.scrollTop := by
  induction items generalizing ix p with
  | nil => rfl
  | cons item items ih =>
    unfold layoutBelow
    split_ifs
    · rfl
    · rw [ih (Nat.succ_ne_zero ix), layoutItem_scrollTop elements width availableHeight p hix]

end LayoutPass

namespace StateInner

/-- The fraction that a layout would apply to the top item. -/
def pendingFraction (s : StateInner F) : Option ℚ :=
  s.pendingScroll.bind fun pending =>
    if pending.itemIx = s.scrollTop.itemIx then some pending.fraction else none

/-- A layout renders the top item. -/
def rendersTop (s : StateInner F) (availableHeight : ℚ) (padding : Edges) : Bool :=
  let visibleHeight := padding.top - s.scrollTop.offsetInItem
  s.items[s.scrollTop.itemIx]?.any fun item =>
    visibleHeight < availableHeight + s.overdraw &&
      (item.size.isNone || visibleHeight < availableHeight)

/-- The position from which a layout should start if it should apply some fraction. -/
def startPosition (s : StateInner F) (fraction : Option ℚ) (elements : Elements F)
    (width : Option ℚ) (availableHeight : ℚ) (padding : Edges) : ListOffset :=
  match fraction with
  | none => s.scrollTop
  | some fraction =>
    if s.rendersTop availableHeight padding then
      ⟨s.scrollTop.itemIx, fraction * (elements.size width s.scrollTop.itemIx).height⟩
    else s.scrollTop

/-- The scroll top with the pending fraction of some height. -/
theorem applyPending_startPass (s : StateInner F) (padding : Edges) (height : ℚ) :
    ((s.startPass padding).applyPending height).scrollTop =
      (s.pendingFraction.map fun fraction =>
        ⟨s.scrollTop.itemIx, fraction * height⟩).getD s.scrollTop := by
  unfold LayoutPass.applyPending pendingFraction startPass
  cases s.pendingScroll with
  | none => rfl
  | some pending =>
    dsimp only [Option.bind_some]
    split_ifs
    all_goals rfl

/-- The first round of the first loop. -/
theorem layoutItem_startPass (s : StateInner F) (elements : Elements F) (width : Option ℚ)
    (availableHeight : ℚ) (padding : Edges) (item : ListItem F) :
    ((s.startPass padding).layoutItem elements width availableHeight 0 item).scrollTop =
      if item.size.isNone ∨ padding.top - s.scrollTop.offsetInItem < availableHeight then
        (s.pendingFraction.map fun fraction => ListOffset.mk s.scrollTop.itemIx
          (fraction * (elements.size width s.scrollTop.itemIx).height)).getD s.scrollTop
      else s.scrollTop := by
  have hstart : (s.startPass padding).renderedHeight -
      (s.startPass padding).scrollTop.offsetInItem = padding.top - s.scrollTop.offsetInItem := rfl
  have hrender := (s.startPass padding).render_scrollTop elements width availableHeight 0 item
  rw [if_pos rfl, applyPending_startPass, Nat.add_zero] at hrender
  unfold LayoutPass.layoutItem
  cases item.size with
  | none =>
    rw [if_pos (.inl rfl)]
    exact hrender
  | some size =>
    by_cases hvisible : padding.top - s.scrollTop.offsetInItem < availableHeight
    · rw [if_pos (.inr hvisible)]
      dsimp only
      rw [hstart, if_pos hvisible]
      exact hrender
    · have hskip : ¬((some size).isNone = true ∨
          padding.top - s.scrollTop.offsetInItem < availableHeight) := by simp [hvisible]
      rw [if_neg hskip]
      dsimp only
      rw [hstart, if_neg hvisible]
      rfl

/-- The first loop of a layout starts from the position that the pending fraction tells. -/
theorem topPass_scrollTop (s : StateInner F) (elements : Elements F) (width : Option ℚ)
    (availableHeight : ℚ) (padding : Edges) :
    (s.topPass elements width availableHeight padding).scrollTop =
      s.startPosition s.pendingFraction elements width availableHeight padding := by
  cases hdrop : s.items.drop s.scrollTop.itemIx with
  | nil =>
    have hitem : s.items[s.scrollTop.itemIx]? = none :=
      List.getElem?_eq_none_iff.mpr (List.drop_eq_nil_iff.mp hdrop)
    have hrenders : s.rendersTop availableHeight padding = false := by
      simp [rendersTop, hitem]
    unfold topPass startPosition
    rw [hdrop, hrenders]
    cases s.pendingFraction with
    | none => rfl
    | some fraction => rfl
  | cons item items =>
    have hitem := (walk_cons hdrop).1
    have hpass : (s.topPass elements width availableHeight padding).scrollTop =
        (LayoutPass.layoutBelow elements width availableHeight s.overdraw (item :: items) 0
          (s.startPass padding)).scrollTop := by
      rw [← hdrop]
      rfl
    have hrenders : s.rendersTop availableHeight padding = true ↔
        padding.top - s.scrollTop.offsetInItem < availableHeight + s.overdraw ∧
          (item.size.isNone = true ∨
            padding.top - s.scrollTop.offsetInItem < availableHeight) := by
      simp [rendersTop, hitem]
    have hstart : (s.startPass padding).renderedHeight -
        (s.startPass padding).scrollTop.offsetInItem =
        padding.top - s.scrollTop.offsetInItem := rfl
    rw [hpass, LayoutPass.layoutBelow, hstart]
    by_cases hstop : padding.top - s.scrollTop.offsetInItem ≥ availableHeight + s.overdraw
    · rw [if_pos hstop]
      unfold startPosition
      cases s.pendingFraction with
      | none => rfl
      | some fraction =>
        have hnot : ¬s.rendersTop availableHeight padding = true := fun h =>
          not_lt.mpr hstop (hrenders.mp h).1
        exact (if_neg hnot).symm
    · rw [if_neg hstop, LayoutPass.layoutBelow_scrollTop _ _ _ _ _ (Nat.succ_ne_zero 0),
        layoutItem_startPass]
      unfold startPosition
      cases s.pendingFraction with
      | none => simp
      | some fraction =>
        simp only [Option.map_some, Option.getD_some, hrenders, not_le.mp hstop, true_and]

/-! ## Calls between two layouts -/

/-- The calls that change the items or the position between two layouts. -/
def isAdjustment : ListCall F → Bool
  | .reset _ | .remeasure | .splice .. | .scrollBy _ | .scrollTo _ | .scrollToRevealItem _ => true
  | _ => false

/-- A call keeps the position at the top item: it neither sets a position nor removes the
item. -/
def keepsTop (s : StateInner F) : ListCall F → Bool
  | .reset _ | .scrollTo _ | .scrollToRevealItem _ => false
  | .scrollBy distance => distance = 0
  | .splice start stop _ => !(start ≤ s.scrollTop.itemIx && s.scrollTop.itemIx < stop)
  | _ => true

/-- The index of the top item after a call. -/
def topAfter (s : StateInner F) : ListCall F → ℕ
  | .reset elementCount => if s.alignment = .top then 0 else elementCount
  | .scrollTo position => min position.itemIx s.items.length
  | .scrollToRevealItem ix => (s.revealedPosition ix).itemIx
  | .scrollBy distance =>
    if distance = 0 then s.scrollTop.itemIx
    else (positionOf s.items (s.offsetAfter distance)).itemIx
  | .splice start stop focusHandles =>
    match s.logicalScrollTop with
    | some position => (splicedPosition start stop focusHandles.length position).itemIx
    | none =>
      if s.alignment = .top then 0
      else (splicedItems s.items start stop focusHandles).length
  | _ => s.scrollTop.itemIx

/-- The fraction that the next layout should apply to the top item after a call. -/
def fractionAfter (s : StateInner F) (fraction : Option ℚ) (c : ListCall F) : Option ℚ :=
  match c with
  | .remeasure => (s.topFraction.map (·.fraction)).or fraction
  | _ => if s.keepsTop c then fraction else none

/-- A call, with the fraction that the next layout should apply. -/
def adjust (s : StateInner F × Option ℚ) (c : ListCall F) : Option (StateInner F × Option ℚ) :=
  (s.1.call c).map fun s' => (s', s.1.fractionAfter s.2 c)

/-- An index that a fraction is remembered for is that of the top item after a call exactly if
it was before and the call keeps the position at the item. -/
def PendingFollows (s : StateInner F) (c : ListCall F) : Prop :=
  ∀ pending ∈ s.pendingScroll,
    s.topAfter c = pending.itemIx ↔ s.scrollTop.itemIx = pending.itemIx ∧ s.keepsTop c = true

/-- An adjustment of a range of the items after which a pending fraction follows its item. -/
def Adjusts (s : StateInner F × Option ℚ) (c : ListCall F) : Prop :=
  isAdjustment c = true ∧ s.1.InRange c ∧ s.1.PendingFollows c

/-- Every layout starts from the position that a fraction tells; if the items from there on fill
the viewport, this is the scroll top of the layout. -/
def LayoutStarts (s : StateInner F) (fraction : Option ℚ) : Prop :=
  ∀ (elements : Elements F) (width : Option ℚ) (availableHeight : ℚ) (padding : Edges),
    let p := s.topPass elements width availableHeight padding
    let start := s.startPosition fraction elements width availableHeight padding
    p.scrollTop = start ∧
      (availableHeight ≤ p.renderedHeight - start.offsetInItem →
        (s.layoutItems elements width availableHeight padding).2.scrollTop = start)

/-- The next layout starts from the position that a fraction tells, whichever items have been
measured before. -/
def StartsFrom (s : StateInner F) (fraction : Option ℚ) : Prop :=
  ∀ items : List (ListItem F), items.length = s.items.length →
    { s with items := items }.LayoutStarts fraction

/-- The scroll top of a layout whose items fill the viewport. -/
theorem layoutItems_scrollTop (s : StateInner F) (elements : Elements F) (width : Option ℚ)
    {availableHeight : ℚ} {padding : Edges}
    (hfull : availableHeight ≤ (s.topPass elements width availableHeight padding).renderedHeight -
      (s.topPass elements width availableHeight padding).scrollTop.offsetInItem) :
    (s.layoutItems elements width availableHeight padding).2.scrollTop =
      (s.topPass elements width availableHeight padding).scrollTop := by
  have hfill : LayoutPass.fill elements width availableHeight s.alignment
      (s.items.take s.scrollTop.itemIx).reverse
      (s.topPass elements width availableHeight padding) =
      ((s.items.take s.scrollTop.itemIx).reverse,
        s.topPass elements width availableHeight padding) := if_neg (not_lt.mpr hfull)
  unfold layoutItems
  dsimp only
  rw [hfill]

/-- Layouts start from the position that the pending fraction tells. -/
theorem startsFrom_pendingFraction (s : StateInner F) : s.StartsFrom s.pendingFraction := by
  intro items hlength
  have hposition : { s with items := items }.scrollTop = s.scrollTop := by
    unfold scrollTop
    rw [hlength]
  have hfraction : { s with items := items }.pendingFraction = s.pendingFraction := by
    unfold pendingFraction
    rw [hposition]
  intro elements width availableHeight padding
  have hstart := topPass_scrollTop { s with items := items } elements width availableHeight padding
  rw [hfraction] at hstart
  refine ⟨hstart, fun hfull => ?_⟩
  rw [← hstart] at hfull ⊢
  exact layoutItems_scrollTop _ _ _ hfull

/-! ## What calls do to the position and to the pending fraction -/

theorem resetItems_eq (s : StateInner F) (elementCount : ℕ) :
    s.resetItems elementCount =
      some { s with
        reset := true
        measuringBehavior := s.measuringBehavior.reset
        logicalScrollTop := none
        scrollbarDragStartHeight := none
        items := List.replicate elementCount (.unmeasured none) } := by
  unfold resetItems splice
  rw [spliceFocusable_eq _ (Nat.zero_le _) (Nat.le_refl _)]
  simp [splicedItems]

/-- The top item after an adjustment. -/
theorem scrollTop_of_call {s s' : StateInner F} {c : ListCall F} (hadjust : isAdjustment c = true)
    (hrange : s.InRange c) (h : s.call c = some s') : s'.scrollTop.itemIx = s.topAfter c := by
  cases c with
  | reset elementCount =>
    rw [call, resetItems_eq] at h
    obtain rfl := Option.some.inj h
    cases halign : s.alignment
    · simp [scrollTop, topAfter, halign]
    · simp [scrollTop, topAfter, halign]
  | remeasure =>
    obtain rfl := Option.some.inj h
    simp [scrollTop, topAfter, remeasure, unmeasuredItems]
  | splice start stop focusHandles =>
    rw [call, spliceFocusable_eq s hrange.1 hrange.2] at h
    obtain rfl := Option.some.inj h
    cases hposition : s.logicalScrollTop with
    | some position => simp [scrollTop, topAfter, hposition]
    | none =>
      cases halign : s.alignment
      · simp [scrollTop, topAfter, hposition, halign]
      · simp [scrollTop, topAfter, hposition, halign]
  | scrollBy distance =>
    rw [call] at h
    by_cases hdistance : distance = 0
    · subst hdistance
      obtain rfl := Option.some.inj (h : some s = some s')
      simp [topAfter]
    · rw [scrollBy_eq s hdistance] at h
      split_ifs at h with hback
      obtain rfl := Option.some.inj h
      simp [scrollTop, topAfter, hdistance]
  | scrollTo position =>
    obtain rfl := Option.some.inj h
    by_cases hend : position.itemIx ≥ s.items.length
    · simp [scrollTo, scrollTop, topAfter, hend]
    · simp [scrollTo, scrollTop, topAfter, hend]
      omega
  | scrollToRevealItem ix =>
    rw [call, scrollToRevealItem_eq] at h
    obtain rfl := Option.some.inj h
    simp [scrollTop, topAfter]
  | setScrollHandler | scrollbarDragStarted | scrollbarDragEnded | setOffsetFromScrollbar
  | scroll | requestLayout | prepaint => cases hadjust

/-- Only `remeasure` changes the pending fraction. -/
theorem pendingScroll_of_call {s s' : StateInner F} {c : ListCall F}
    (hadjust : isAdjustment c = true) (hremeasure : c ≠ .remeasure) (hrange : s.InRange c)
    (h : s.call c = some s') : s'.pendingScroll = s.pendingScroll := by
  cases c with
  | reset elementCount =>
    rw [call, resetItems_eq] at h
    obtain rfl := Option.some.inj h
    rfl
  | remeasure => exact absurd rfl hremeasure
  | splice start stop focusHandles =>
    rw [call, spliceFocusable_eq s hrange.1 hrange.2] at h
    obtain rfl := Option.some.inj h
    rfl
  | scrollBy distance =>
    rw [call] at h
    by_cases hdistance : distance = 0
    · subst hdistance
      obtain rfl := Option.some.inj (h : some s = some s')
      rfl
    · rw [scrollBy_eq s hdistance] at h
      split_ifs at h with hback
      obtain rfl := Option.some.inj h
      rfl
  | scrollTo position =>
    obtain rfl := Option.some.inj h
    rfl
  | scrollToRevealItem ix =>
    rw [call, scrollToRevealItem_eq] at h
    obtain rfl := Option.some.inj h
    rfl
  | setScrollHandler | scrollbarDragStarted | scrollbarDragEnded | setOffsetFromScrollbar
  | scroll | requestLayout | prepaint => cases hadjust

/-- The fraction that `remeasure` remembers is for the top item. -/
theorem topFraction_itemIx {s : StateInner F} {pending : PendingScrollFraction}
    (h : s.topFraction = some pending) : pending.itemIx = s.scrollTop.itemIx := by
  unfold topFraction at h
  cases hposition : s.logicalScrollTop with
  | none => simp [hposition] at h
  | some position =>
    simp only [hposition, Option.bind_eq_bind, Option.bind_some, Option.bind_eq_some_iff] at h
    obtain ⟨index, -, item, -, size, -, hpending⟩ := h
    obtain rfl := Option.some.inj hpending
    simp [scrollTop, hposition]

/-- An adjustment after which the pending fraction follows its item. -/
theorem pendingFraction_of_call {s s' : StateInner F} {c : ListCall F}
    (hadjust : isAdjustment c = true) (hrange : s.InRange c) (hfollows : s.PendingFollows c)
    (h : s.call c = some s') :
    s'.pendingFraction = s.fractionAfter s.pendingFraction c := by
  have htop := scrollTop_of_call hadjust hrange h
  by_cases hremeasure : c = .remeasure
  · subst hremeasure
    obtain rfl := Option.some.inj h
    unfold pendingFraction fractionAfter
    rw [htop]
    cases hfraction : s.topFraction with
    | none =>
      simp only [remeasure, hfraction, topAfter, Option.none_or, Option.map_none]
      rfl
    | some pending =>
      have hitem := topFraction_itemIx hfraction
      simp [remeasure, hfraction, topAfter, hitem]
  · have hpending := pendingScroll_of_call hadjust hremeasure hrange h
    have hafter : s.fractionAfter s.pendingFraction c =
        if s.keepsTop c then s.pendingFraction else none := by
      cases c
      case remeasure => exact absurd rfl hremeasure
      all_goals rfl
    rw [hafter]
    unfold pendingFraction
    rw [hpending, htop]
    cases hsome : s.pendingScroll with
    | none => simp
    | some pending =>
      have hiff := hfollows pending hsome
      rw [Option.bind_some, Option.bind_some]
      by_cases hafter : pending.itemIx = s.topAfter c
      · obtain ⟨hbefore, hkeeps⟩ := hiff.mp hafter.symm
        rw [if_pos hafter, if_pos hkeeps, if_pos hbefore.symm]
      · rw [if_neg hafter]
        by_cases hkeeps : s.keepsTop c = true
        · have hbefore : pending.itemIx ≠ s.scrollTop.itemIx := fun h =>
            hafter (hiff.mpr ⟨h.symm, hkeeps⟩).symm
          rw [if_pos hkeeps, if_neg hbefore]
        · rw [if_neg hkeeps]

/-- After any adjustments that let a pending fraction follow its item, the next layout starts
from the position that was set last, or from the fraction of it that was remembered. -/
theorem startsFrom_of_run {s₀ s : StateInner F} {fraction : Option ℚ} {calls : List (ListCall F)}
    (run : Foundation.Run adjust Adjusts (s₀, s₀.pendingFraction) calls (s, fraction)) :
    s.StartsFrom fraction := by
  have hinv := run.invariant (fun _ p => p.1.pendingFraction = p.2) rfl <| by
    rintro - ⟨s, fraction⟩ c ⟨s', fraction'⟩ hfraction ⟨hadjust, hrange, hfollows⟩ hstep
    obtain rfl : s.pendingFraction = fraction := hfraction
    rw [adjust, Option.map_eq_some_iff] at hstep
    obtain ⟨next, hcall, hnext⟩ := hstep
    obtain ⟨rfl, rfl⟩ := Prod.mk.inj hnext
    exact pendingFraction_of_call hadjust hrange hfollows hcall
  obtain rfl : s.pendingFraction = fraction := hinv
  exact s.startsFrom_pendingFraction

/-- Three items that are scrolled by one and a half, in a viewport of the height of one. -/
def scrolledDown : StateInner Empty :=
  let item := .measured .ten none
  ⟨some ⟨⟨0, 0⟩, ⟨10, 10⟩⟩, some ⟨0, 0⟩, [item, item, item], some ⟨1, 5⟩, .top, 30, false, false,
    none, .visible, none⟩

/-- The calls that lead to `scrolledDown`. -/
def scrolledDownCalls : List (ListCall Empty) :=
  [.prepaint (.uniform _ .ten) ⟨⟨0, 0⟩, ⟨10, 10⟩⟩ ⟨0, 0⟩, .scrollBy 15]

/-- Half of the second item is remembered while another item replaces the first one. -/
theorem startsFrom_scrolledDown :
    { scrolledDown.remeasure with
      items := splicedItems scrolledDown.remeasure.items 0 1 [none] }.StartsFrom
        (some (1 / 2)) := by
  have hfirst : scrolledDown.PendingFollows .remeasure := by
    intro pending hpending
    cases hpending
  have hsecond : scrolledDown.remeasure.PendingFollows (.splice 0 1 [none]) := by
    intro pending hpending
    have hitem : scrolledDown.remeasure.pendingScroll = some ⟨1, 1 / 2⟩ := by decide +kernel
    obtain rfl := Option.some.inj (hitem.symm.trans hpending)
    decide +kernel
  have hremeasure : Foundation.Run adjust Adjusts (scrolledDown, scrolledDown.pendingFraction)
      [.remeasure] (scrolledDown.remeasure, some (1 / 2)) :=
    @Foundation.Run.snoc _ _ adjust Adjusts _ [] _ _ .remeasure .nil ⟨rfl, trivial, hfirst⟩
      (by decide +kernel)
  exact startsFrom_of_run <| .snoc (.splice 0 1 [none]) hremeasure
    ⟨rfl, by decide +kernel, hsecond⟩ (by decide +kernel)

/-- A position that is set after `remeasure` is replaced by the remembered fraction. -/
theorem not_startsFrom_scrollTo : Reachable scrolledDown ∧
    ∃ s fraction, Foundation.Run adjust (fun s c => isAdjustment c = true ∧ s.1.InRange c)
      (scrolledDown, scrolledDown.pendingFraction) [.remeasure, .scrollTo ⟨1, 0⟩] (s, fraction) ∧
      ¬s.StartsFrom fraction := by
  have hcalls : (new 3 .top 30).bind (Foundation.execute call InRange · scrolledDownCalls) =
      some scrolledDown := by decide +kernel
  have hrun : Foundation.execute adjust (fun s c => isAdjustment c = true ∧ s.1.InRange c)
      (scrolledDown, scrolledDown.pendingFraction) [.remeasure, .scrollTo ⟨1, 0⟩] =
      some (scrolledDown.remeasure.scrollTo ⟨1, 0⟩, none) := by decide +kernel
  refine ⟨reachable_of_execute hcalls, _, _, .of_execute hrun, ?_⟩
  intro hstarts
  obtain ⟨hstart, -⟩ := hstarts _ rfl (.uniform _ .ten) none 10 ⟨0, 0⟩
  revert hstart
  decide +kernel

end StateInner

end Lucie.ItemList
