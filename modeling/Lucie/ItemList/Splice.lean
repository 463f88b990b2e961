import Lucie.ItemList.Calls
import Lucie.SumTree.AppendCorrect

/-!
# Splicing a list

A splice cuts the tree of the items at two counts and puts new items in between. An explicit
scroll position follows its item; a list without one stays at its top or at its bottom.
-/

set_option autoImplicit false

namespace Lucie.ItemList

variable {F : Type}

/-- The tree that `splice_focusable` builds. -/
def spliceTree (root : SumTree (ListItem F) ListItemSummary) (start stop : ℕ)
    (focusHandles : List (Option F)) : Option (SumTree (ListItem F) ListItemSummary) := do
  let oldItems : Cursor (ListItem F) ListItemSummary ListItemSummary := Cursor.new root
  let (oldItems, newItems) ← oldItems.slice (countTarget start) .right
  let (oldItems, _) ← oldItems.seekForward (countTarget stop) .right
  let newItems ← newItems.extend (focusHandles.map .unmeasured)
  let (_, suffix) ← oldItems.suffix
  newItems.append suffix

/-- The items after a splice. -/
def splicedItems (items : List (ListItem F)) (start stop : ℕ) (focusHandles : List (Option F)) :
    List (ListItem F) :=
  items.take start ++ focusHandles.map .unmeasured ++ items.drop stop

section Tree

variable {root : SumTree (ListItem F) ListItemSummary} {height : ℕ}
  {c : Cursor (ListItem F) ListItemSummary ListItemSummary} {place : Place}

/-- A slice is the items that the cursor passes. -/
theorem slice_tree (wf : SumTree.WellFormed height root) (hheight : height ≤ 15)
    (hrep : c.Represents root height place) (hplace : place ≠ .before)
    (target : SeekTarget ListItemSummary) (hmono : target.MonotoneOn root.toList)
    (hforward : target.cmp (startAt root.toList place.index) ≠ .lt) :
    let index := Cursor.seekIndex target .right root.toList place.index
    ∃ c' tree l, c.slice target .right = some (c', tree) ∧
      c'.Represents root height (.at index) ∧ SumTree.WellFormed l tree ∧
      tree.toList = (root.toList.take index).drop place.index := by
  obtain ⟨c', a, k, hcall, hrep', ha, -, hk⟩ := Cursor.seekInternal_spec target .right wf hheight
    (SeekAggregate.slice_gathers _) (lawful_items _) hrep hplace hforward
    SeekAggregate.SliceCollects.new
  obtain rfl := hk hmono
  obtain ⟨l, hwf⟩ := ha.wellFormed
  exact ⟨c', a.tree, l, by simp [Cursor.slice, hcall], hrep', hwf, ha.contents⟩

/-- A slice up to a count. -/
theorem slice_count (wf : SumTree.WellFormed height root) (hheight : height ≤ 15)
    (hrep : c.Represents root height place) (hplace : place ≠ .before) {count : ℕ}
    (hcount : place.index ≤ count) :
    ∃ c' tree l, c.slice (countTarget count) .right = some (c', tree) ∧
      c'.Represents root height (.at (max place.index (min count root.toList.length))) ∧
      SumTree.WellFormed l tree ∧
      tree.toList = (root.toList.take (max place.index (min count root.toList.length))).drop
        place.index := by
  have hforward : (countTarget count).cmp (startAt root.toList place.index) ≠ .lt := by
    rw [ne_eq, cmp_countTarget_lt, startAt_count]
    omega
  have hslice := slice_tree wf hheight hrep hplace _ (monotoneOn_countTarget _ count) hforward
  rwa [Cursor.seekIndex, leading_countTarget] at hslice

/-- The suffix of a cursor is the items from it on. -/
theorem suffix_tree (wf : SumTree.WellFormed height root) (hheight : height ≤ 15)
    (hrep : c.Represents root height place) (hplace : place ≠ .before) :
    ∃ c' tree l, c.suffix = some (c', tree) ∧ SumTree.WellFormed l tree ∧
      tree.toList = root.toList.drop place.index := by
  have hforward : SeekTarget.endTarget.cmp (startAt root.toList place.index) ≠ .lt :=
    Ordering.noConfusion
  obtain ⟨c', tree, l, hcall, -, hwf, htree⟩ := slice_tree wf hheight hrep hplace _
    (SeekTarget.endTarget_monotoneOn _) hforward
  have hend : root.toList.length ≤ Cursor.seekIndex (SeekTarget.endTarget (δ := ListItemSummary))
      .right root.toList place.index := (SeekTarget.leading_endTarget _).ge.trans (le_max_right _ _)
  rw [List.take_of_length_le hend] at htree
  exact ⟨c', tree, l, hcall, hwf, htree⟩

/-- A cursor that is not past a count seeks to it. -/
theorem seekForward_count (wf : SumTree.WellFormed height root) (hheight : height ≤ 15)
    (hrep : c.Represents root height place) (hplace : place ≠ .before) {count : ℕ}
    (hcount : place.index ≤ count) :
    ∃ c' found, c.seekForward (countTarget count) .right = some (c', found) ∧
      c'.Represents root height (.at (max place.index (min count root.toList.length))) := by
  have hseek := seekForward_tree wf hheight hrep hplace rfl (countTarget count) .right
    (monotoneOn_countTarget _ _)
  have hforward : ¬(countTarget count).cmp (startAt root.toList place.index) = .lt := by
    rw [cmp_countTarget_lt, startAt_count]
    omega
  rw [seekFrom, if_neg hforward, Cursor.seekIndex, leading_countTarget] at hseek
  exact hseek

/-- A splice of the tree keeps it well formed and replaces the items of the range. -/
theorem spliceTree_spec (wf : SumTree.WellFormed height root) (hheight : height ≤ 15)
    {start stop : ℕ} (hrange : start ≤ stop) (focusHandles : List (Option F)) :
    ∃ tree l, spliceTree root start stop focusHandles = some tree ∧ SumTree.WellFormed l tree ∧
      tree.toList = splicedItems root.toList start stop focusHandles := by
  obtain ⟨c₁, before, l₁, hbefore, hrep₁, hwf₁, hlist₁⟩ := slice_count wf hheight
    (Cursor.new_represents root height) (by simp) (Nat.zero_le start)
  obtain ⟨c₂, found, hseek, hrep₂⟩ := @seekForward_count _ _ _ _ _ wf hheight hrep₁ (by simp)
    stop (by simp only [Place.index]; omega)
  obtain ⟨c₃, rest, l₃, hrest, hwf₃, hlist₃⟩ := suffix_tree wf hheight hrep₂ (by simp)
  obtain ⟨extended, l₂, hextend, hwf₂, hlist₂⟩ :=
    SumTree.extend_spec hwf₁ (focusHandles.map ListItem.unmeasured)
  obtain ⟨tree, l, happend, hwf, hlist⟩ := SumTree.append_spec hwf₂ hwf₃
  refine ⟨tree, l, ?_, hwf, ?_⟩
  · simp [spliceTree, hbefore, hseek, hextend, hrest, happend]
  · have hstart : root.toList.take (max 0 (min start root.toList.length)) =
        root.toList.take start := by
      rw [Nat.zero_max, ← List.take_eq_take_min]
    have hstop : root.toList.drop (max (max 0 (min start root.toList.length))
        (min stop root.toList.length)) = root.toList.drop stop := by
      by_cases hlast : stop ≤ root.toList.length
      · congr 1
        omega
      · rw [List.drop_of_length_le (by omega), List.drop_of_length_le (by omega)]
    rw [hlist, hlist₂, hlist₁, hlist₃, splicedItems]
    simp only [Place.index, List.drop_zero] at hstart hstop ⊢
    rw [hstart, hstop]

end Tree

namespace StateInner

/-- A position after a splice: the same item with the same offset, at its new index, or the
start of the range if the item was removed. -/
def Follows (items items' : List (ListItem F)) (start stop count : ℕ)
    (position position' : ListOffset) : Prop :=
  if start ≤ position.itemIx ∧ position.itemIx < stop then position' = ⟨start, 0⟩
  else
    position'.itemIx =
        (if stop ≤ position.itemIx then position.itemIx + count - (stop - start)
        else position.itemIx) ∧
      position'.offsetInItem = position.offsetInItem ∧
      items'[position'.itemIx]? = items[position.itemIx]?

instance (items items' : List (ListItem F)) (start stop count : ℕ)
    (position position' : ListOffset) [DecidableEq F] :
    Decidable (Follows items items' start stop count position position') := by
  unfold Follows
  infer_instance

variable {items : List (ListItem F)} {start stop : ℕ} {focusHandles : List (Option F)} {i : ℕ}

theorem getElem?_splicedItems_before (hi : i < start) (hstart : start ≤ items.length) :
    (splicedItems items start stop focusHandles)[i]? = items[i]? := by
  rw [splicedItems, List.append_assoc, List.getElem?_append_left (by simp; omega),
    List.getElem?_take_of_lt hi]

theorem getElem?_splicedItems_after (hrange : start ≤ stop) (hi : stop ≤ i)
    (hstart : start ≤ items.length) :
    (splicedItems items start stop focusHandles)[i - (stop - start) + focusHandles.length]? =
      items[i]? := by
  have hprefix : (items.take start ++ focusHandles.map ListItem.unmeasured).length =
      start + focusHandles.length := by
    rw [List.length_append, List.length_take, List.length_map, min_eq_left hstart]
  rw [splicedItems, List.getElem?_append_right (by omega), hprefix, List.getElem?_drop]
  congr 1
  omega

/-- An explicit position after a splice. -/
def splicedPosition (start stop count : ℕ) (position : ListOffset) : ListOffset :=
  if start ≤ position.itemIx ∧ position.itemIx < stop then ⟨start, 0⟩
  else if stop ≤ position.itemIx then
    { position with itemIx := position.itemIx - (stop - start) + count }
  else position

/-- The state after a splice of a range of the items. -/
theorem spliceFocusable_eq (s : StateInner F) (hrange : start ≤ stop)
    (hstop : stop ≤ s.items.length) (focusHandles : List (Option F)) :
    s.spliceFocusable start stop focusHandles =
      some { s with
        items := splicedItems s.items start stop focusHandles
        logicalScrollTop :=
          s.logicalScrollTop.map (splicedPosition start stop focusHandles.length) } := by
  have hforward : ¬(countTarget stop).cmp (startAt s.items start) = .lt := by
    rw [cmp_countTarget_lt, startAt_count]
    omega
  have hseek : seekFrom s.items (countTarget stop) .right start = some stop := by
    rw [seekFrom, if_neg hforward, Cursor.seekIndex, leading_countTarget, min_eq_left hstop,
      max_eq_right hrange]
  unfold spliceFocusable
  rw [seek_countTarget, min_eq_left (hrange.trans hstop), Option.bind_eq_bind, Option.bind_some,
    hseek, Option.bind_some]
  rfl

/-- An explicit position follows its item. -/
theorem follows_splice (hrange : start ≤ stop) (hstop : stop ≤ items.length)
    (focusHandles : List (Option F)) (position : ListOffset) :
    Follows items (splicedItems items start stop focusHandles) start stop focusHandles.length
      position (splicedPosition start stop focusHandles.length position) := by
  unfold Follows splicedPosition
  by_cases hremoved : start ≤ position.itemIx ∧ position.itemIx < stop
  · rw [if_pos hremoved, if_pos hremoved]
  · rw [if_neg hremoved, if_neg hremoved]
    by_cases hafter : stop ≤ position.itemIx
    · rw [if_pos hafter, if_pos hafter]
      refine ⟨?_, rfl, getElem?_splicedItems_after hrange hafter (hrange.trans hstop)⟩
      dsimp only
      omega
    · rw [if_neg hafter, if_neg hafter]
      exact ⟨rfl, rfl, getElem?_splicedItems_before (by omega) (hrange.trans hstop)⟩

/-- A list without a position that is aligned to the top and gets new items there. -/
def GrowsAtTop (s : StateInner F) (stop : ℕ) : Prop :=
  s.logicalScrollTop = none ∧ s.alignment = .top ∧ stop = 0

instance (s : StateInner F) (stop : ℕ) : Decidable (s.GrowsAtTop stop) :=
  inferInstanceAs (Decidable (_ ∧ _ ∧ _))

/-- A new list of one item. -/
def oneItem : StateInner Empty :=
  ⟨none, none, [.unmeasured none], none, .top, 0, false, false, none, .visible, none⟩

end StateInner

end Lucie.ItemList
