import Mathlib
import Lucie.SumTree.Steps

/-!
# The items of a list element

A list element keeps its items in a sum tree whose summaries count the items and add up
their heights. Pixels are exact numbers. Seen from outside, a cursor over the items is an
index; the walk of a cursor over the tree is proved to be the walk of this index.
-/

set_option autoImplicit false

namespace Lucie.ItemList

/-- The size of a laid out element, whose height is not negative. -/
@[ext] structure ItemSize where
  width : ℚ
  height : ℚ
  nonneg : 0 ≤ height
  deriving DecidableEq

/-- `ListItem`; `F` stands for focus handles. -/
inductive ListItem (F : Type)
  | unmeasured (focusHandle : Option F)
  | measured (size : ItemSize) (focusHandle : Option F)
  deriving DecidableEq

/-- `ListItemSummary`. -/
@[ext] structure ListItemSummary where
  count : ℕ
  renderedCount : ℕ
  unrenderedCount : ℕ
  height : ℚ
  hasFocusHandles : Bool
  deriving DecidableEq

namespace ListItemSummary

instance : Zero ListItemSummary := ⟨⟨0, 0, 0, 0, false⟩⟩

/-- `ListItemSummary::add_summary`. -/
instance : Add ListItemSummary :=
  ⟨fun s t => ⟨s.count + t.count, s.renderedCount + t.renderedCount,
    s.unrenderedCount + t.unrenderedCount, s.height + t.height,
    s.hasFocusHandles || t.hasFocusHandles⟩⟩

variable (s t : ListItemSummary)

@[simp] theorem zero_count : (0 : ListItemSummary).count = 0 := rfl

@[simp] theorem zero_height : (0 : ListItemSummary).height = 0 := rfl

@[simp] theorem add_count : (s + t).count = s.count + t.count := rfl

@[simp] theorem add_height : (s + t).height = s.height + t.height := rfl

instance : AddMonoid ListItemSummary where
  add_assoc s t u := by
    apply ListItemSummary.ext
    · exact Nat.add_assoc _ _ _
    · exact Nat.add_assoc _ _ _
    · exact Nat.add_assoc _ _ _
    · exact add_assoc s.height t.height u.height
    · exact Bool.or_assoc _ _ _
  zero_add s := by
    apply ListItemSummary.ext
    · exact Nat.zero_add _
    · exact Nat.zero_add _
    · exact Nat.zero_add _
    · exact zero_add s.height
    · exact Bool.false_or _
  add_zero s := by
    apply ListItemSummary.ext
    · exact Nat.add_zero _
    · exact Nat.add_zero _
    · exact Nat.add_zero _
    · exact add_zero s.height
    · exact Bool.or_false _
  nsmul := nsmulRec

/-- Summaries as positions of a cursor. -/
instance : Dimension ListItemSummary ListItemSummary := ⟨0, (· + ·)⟩

end ListItemSummary

variable {F : Type}

namespace ListItem

/-- `ListItem::size`. -/
def size : ListItem F → Option ItemSize
  | unmeasured _ => none
  | measured size _ => some size

/-- `ListItem::focus_handle`. -/
def focusHandle : ListItem F → Option F
  | unmeasured focusHandle => focusHandle
  | measured _ focusHandle => focusHandle

/-- The height that an item adds to the summary. -/
def height (item : ListItem F) : ℚ := item.size.elim 0 ItemSize.height

/-- `ListItem::summary`. -/
def summary : ListItem F → ListItemSummary
  | unmeasured focusHandle => ⟨1, 0, 1, 0, focusHandle.isSome⟩
  | measured size focusHandle => ⟨1, 1, 0, size.height, focusHandle.isSome⟩

instance : Item (ListItem F) ListItemSummary := ⟨summary⟩

theorem height_nonneg (item : ListItem F) : 0 ≤ item.height := by
  cases item with
  | unmeasured => exact le_rfl
  | measured size => exact size.nonneg

@[simp] theorem summary_count (item : ListItem F) :
    (Item.summary item : ListItemSummary).count = 1 := by
  cases item <;> rfl

@[simp] theorem summary_height (item : ListItem F) :
    (Item.summary item : ListItemSummary).height = item.height := by
  cases item <;> rfl

end ListItem

/-! ## Positions -/

/-- `Cursor::start` of a cursor at an index. -/
def startAt (items : List (ListItem F)) (index : ℕ) : ListItemSummary :=
  Dimension.extent ListItemSummary (items.take index)

/-- The top of an item: the height of the items before it. -/
def top (items : List (ListItem F)) (index : ℕ) : ℚ := ((items.take index).map ListItem.height).sum

/-- The height of all items. -/
def contentHeight (items : List (ListItem F)) : ℚ := (items.map ListItem.height).sum

variable {items : List (ListItem F)} {i j : ℕ}

theorem extent_eq (items : List (ListItem F)) :
    (Dimension.extent ListItemSummary items).count = items.length ∧
      (Dimension.extent ListItemSummary items).height = (items.map ListItem.height).sum := by
  induction items using List.reverseRecOn with
  | nil => exact ⟨rfl, rfl⟩
  | append_singleton items item ih =>
    have hadd : Dimension.extent ListItemSummary (items ++ [item]) =
        Dimension.extent ListItemSummary items + Item.summary item :=
      Dimension.extent_concat items item
    rw [hadd, ListItemSummary.add_count, ListItemSummary.add_height, ih.1, ih.2]
    simp

@[simp] theorem extent_take_count :
    (Dimension.extent ListItemSummary (items.take i)).count = min i items.length := by
  rw [(extent_eq _).1, List.length_take]

@[simp] theorem extent_take_height :
    (Dimension.extent ListItemSummary (items.take i)).height = top items i := (extent_eq _).2

@[simp] theorem startAt_count : (startAt items i).count = min i items.length :=
  extent_take_count

@[simp] theorem startAt_height : (startAt items i).height = top items i := extent_take_height

@[simp] theorem top_zero : top items 0 = 0 := by simp [top]

theorem top_succ {item : ListItem F} (h : items[i]? = some item) :
    top items (i + 1) = top items i + item.height := by
  simp [top, List.take_add_one, h]

theorem top_of_length_le (h : items.length ≤ i) : top items i = contentHeight items := by
  rw [top, List.take_of_length_le h, contentHeight]

@[simp] theorem top_min_length (i : ℕ) : top items (min i items.length) = top items i := by
  rw [top, top, ← List.take_eq_take_min]

theorem top_le_succ (i : ℕ) : top items i ≤ top items (i + 1) := by
  cases hitem : items[i]? with
  | none =>
    have hle := List.getElem?_eq_none_iff.mp hitem
    rw [top_of_length_le hle, top_of_length_le (hle.trans (Nat.le_succ i))]
  | some item =>
    have := item.height_nonneg
    rw [top_succ hitem]
    linarith

theorem top_mono (h : i ≤ j) : top items i ≤ top items j :=
  monotone_nat_of_le_succ (fun n => top_le_succ n) h

theorem top_nonneg (i : ℕ) : 0 ≤ top items i := @top_zero _ items ▸ top_mono (Nat.zero_le i)

/-! ## Seeks -/

/-- `Count` as a seek target. -/
def countTarget (count : ℕ) : SeekTarget ListItemSummary := ⟨fun s => compare count s.count⟩

/-- `Height` as a seek target. -/
def heightTarget (height : ℚ) : SeekTarget ListItemSummary := ⟨fun s => compare height s.height⟩

/-- A seek of a cursor that is at an index; `none` is the panic of seeking backward. -/
def seekFrom (items : List (ListItem F)) (target : SeekTarget ListItemSummary) (bias : Bias)
    (index : ℕ) : Option ℕ :=
  if target.cmp (startAt items index) = .lt then none
  else some (Cursor.seekIndex target bias items index)

/-- `Cursor::seek`. -/
def seek (items : List (ListItem F)) (target : SeekTarget ListItemSummary) (bias : Bias) :
    Option ℕ := seekFrom items target bias 0

/-- `SumTree::find`, of whose results only the start is used. -/
def find (items : List (ListItem F)) (target : SeekTarget ListItemSummary) (bias : Bias) :
    ListItemSummary := startAt items (target.leading bias items)

/-! ## Where seeks end -/

theorem passes_right_iff {α : Type} [LinearOrder α] {a b : α} :
    (decide (compare a b = .gt) || (decide (compare a b = .eq) && decide (Bias.right = .right))) =
      true ↔ b ≤ a := by
  rw [Bool.or_eq_true, Bool.and_eq_true, decide_eq_true_iff, decide_eq_true_iff,
    compare_gt_iff_gt, compare_eq_iff_eq, le_iff_lt_or_eq]
  simp [eq_comm]

@[simp] theorem passes_countTarget {n : ℕ} {s : ListItemSummary} :
    (countTarget n).passes .right s = true ↔ s.count ≤ n := passes_right_iff

@[simp] theorem passes_heightTarget_right {h : ℚ} {s : ListItemSummary} :
    (heightTarget h).passes .right s = true ↔ s.height ≤ h := passes_right_iff

@[simp] theorem passes_heightTarget_left {h : ℚ} {s : ListItemSummary} :
    (heightTarget h).passes .left s = true ↔ s.height < h := by
  have hbias : decide (Bias.left = .right) = false := rfl
  rw [SeekTarget.passes, hbias, Bool.and_false, Bool.or_false, decide_eq_true_iff]
  exact compare_gt_iff_gt

@[simp] theorem cmp_countTarget_lt {n : ℕ} {s : ListItemSummary} :
    (countTarget n).cmp s = .lt ↔ n < s.count := compare_lt_iff_lt

@[simp] theorem cmp_heightTarget_lt {h : ℚ} {s : ListItemSummary} :
    (heightTarget h).cmp s = .lt ↔ h < s.height := compare_lt_iff_lt

/-- A seek for a count goes past that many items. -/
theorem leading_countTarget (items : List (ListItem F)) (n : ℕ) :
    (countTarget n).leading .right items = min n items.length := by
  apply Nat.le_antisymm
  · apply le_min
    · by_contra hlt
      have hpass := SeekTarget.passes_of_lt_leading (not_le.mp hlt)
      have hle := SeekTarget.leading_le (countTarget n) .right items
      rw [passes_countTarget, extent_take_count] at hpass
      omega
    · exact SeekTarget.leading_le _ _ _
  · apply SeekTarget.le_leading (min_le_right _ _)
    intro i hi
    rw [passes_countTarget, extent_take_count]
    omega

theorem seek_countTarget (items : List (ListItem F)) (n : ℕ) :
    seek items (countTarget n) .right = some (min n items.length) := by
  have hcmp : (countTarget n).cmp (startAt items 0) ≠ .lt := by simp
  rw [seek, seekFrom, if_neg hcmp, Cursor.seekIndex, leading_countTarget, Nat.zero_max]

/-- The item that contains an offset: it begins at or before the offset, and ends behind it. -/
theorem leading_height_right (items : List (ListItem F)) {h : ℚ} (hnonneg : 0 ≤ h) :
    let index := (heightTarget h).leading .right items
    top items index ≤ h ∧ (index < items.length → h < top items (index + 1)) := by
  intro index
  constructor
  · cases hindex : index with
    | zero => simpa using hnonneg
    | succ i =>
      have hpass := SeekTarget.passes_of_lt_leading (show i < index by omega)
      rwa [passes_heightTarget_right, extent_take_height] at hpass
  · intro hlt
    have hpass := SeekTarget.passes_leading hlt
    rw [← Bool.not_eq_true, passes_heightTarget_right, extent_take_height] at hpass
    exact not_le.mp hpass

/-- The first item that ends at or behind an offset. -/
theorem leading_height_left (items : List (ListItem F)) (h : ℚ) :
    let index := (heightTarget h).leading .left items
    (∀ i < index, top items (i + 1) < h) ∧ (index < items.length → h ≤ top items (index + 1)) := by
  intro index
  constructor
  · intro i hi
    have hpass := SeekTarget.passes_of_lt_leading hi
    rwa [passes_heightTarget_left, extent_take_height] at hpass
  · intro hlt
    have hpass := SeekTarget.passes_leading hlt
    rw [← Bool.not_eq_true, passes_heightTarget_left, extent_take_height] at hpass
    exact not_lt.mp hpass

/-- A seek to the left reaches an index exactly if the item before it ends before the
offset. -/
theorem le_leading_height_left_iff {h : ℚ} (hi : i ≤ items.length) :
    i ≤ (heightTarget h).leading .left items ↔ i = 0 ∨ top items i < h := by
  obtain ⟨hpassed, hstop⟩ := leading_height_left items h
  constructor
  · intro hle
    cases i with
    | zero => exact .inl rfl
    | succ i => exact .inr (hpassed i (by omega))
  · rintro (rfl | hlt)
    · exact Nat.zero_le _
    · by_contra hgreater
      have := hstop (by omega)
      have := @top_mono _ items _ _ (show _ + 1 ≤ i from not_le.mp hgreater)
      linarith

/-- A seek down from an index panics exactly if the offset is above the item there; else it
ends where a seek from the top does. -/
theorem seekFrom_height {h : ℚ} (hnonneg : 0 ≤ h) (i : ℕ) :
    seekFrom items (heightTarget h) .right (min i items.length) =
      if h < top items i then none else some ((heightTarget h).leading .right items) := by
  have hpanic : (heightTarget h).cmp (startAt items (min i items.length)) = .lt ↔
      h < top items i := by
    rw [cmp_heightTarget_lt, startAt_height, top_min_length]
  unfold seekFrom
  split_ifs with hcmp hlt hlt
  · rfl
  · exact absurd (hpanic.mp hcmp) hlt
  · exact absurd (hpanic.mpr hlt) hcmp
  · obtain ⟨-, hend⟩ := leading_height_right items hnonneg
    have hreach : min i items.length ≤ (heightTarget h).leading .right items := by
      by_contra hless
      have hlast := hend (by omega)
      have := @top_mono _ items _ _ (Nat.succ_le_of_lt (not_le.mp hless))
      rw [top_min_length] at this
      linarith
    rw [Cursor.seekIndex, max_eq_right hreach]

theorem seek_height {h : ℚ} (hnonneg : 0 ≤ h) :
    seek items (heightTarget h) .right = some ((heightTarget h).leading .right items) := by
  have hfrom := @seekFrom_height F items h hnonneg 0
  rw [top_zero, if_neg (not_lt.mpr hnonneg), Nat.zero_min] at hfrom
  exact hfrom

/-! ## The cursor of the tree -/

theorem lawful_items (items : List (ListItem F)) :
    Dimension.Lawful ListItemSummary items :=
  Dimension.lawful_of_action (fun d => add_zero d) (fun d s t => (add_assoc d s t).symm) items

theorem monotoneOn_countTarget (items : List (ListItem F)) (n : ℕ) :
    (countTarget n).MonotoneOn items := by
  constructor
  · intro i j hij hj
    rw [ne_eq, ne_eq, cmp_countTarget_lt, cmp_countTarget_lt, extent_take_count,
      extent_take_count]
    omega
  · intro i j hij hj
    simp only [countTarget, extent_take_count, compare_gt_iff_gt]
    omega

theorem monotoneOn_heightTarget (items : List (ListItem F)) (h : ℚ) :
    (heightTarget h).MonotoneOn items := by
  constructor
  · intro i j hij hj
    have := @top_mono _ items _ _ hij
    rw [ne_eq, ne_eq, cmp_heightTarget_lt, cmp_heightTarget_lt, extent_take_height,
      extent_take_height]
    intro hle hlt
    exact hle (hlt.trans_le this)
  · intro i j hij hj
    have := @top_mono _ items _ _ hij
    simp only [heightTarget, extent_take_height, compare_gt_iff_gt]
    intro hlt
    exact lt_of_le_of_lt this hlt

/-- A seek of a cursor over the tree is a seek over the items: it panics if that does, and
otherwise it ends at the same index. -/
theorem seekForward_tree {root : SumTree (ListItem F) ListItemSummary} {height index : ℕ}
    {c : Cursor (ListItem F) ListItemSummary ListItemSummary} {place : Place}
    (wf : SumTree.WellFormed height root) (hheight : height ≤ 15)
    (hrep : c.Represents root height place) (hplace : place ≠ .before)
    (hindex : place.index = index) (target : SeekTarget ListItemSummary) (bias : Bias)
    (hmono : target.MonotoneOn root.toList) :
    match seekFrom root.toList target bias index with
    | none => c.seekForward target bias = none
    | some k => ∃ c' found, c.seekForward target bias = some (c', found) ∧
        c'.Represents root height (.at k) := by
  subst hindex
  have hstart : startAt root.toList place.index = c.position := hrep.start_eq.symm
  unfold seekFrom
  split_ifs with hlt
  · simp only [Cursor.seekForward, Cursor.seekInternal]
    rw [← hstart, if_pos hlt]
    rfl
  · obtain ⟨c', ⟨⟩, k, hcall, hrep', -, -, hk⟩ := Cursor.seekInternal_spec target bias wf hheight
      (SeekAggregate.unit_gathers _) (lawful_items _) hrep hplace hlt (a := ()) trivial
    rw [← hk hmono]
    exact ⟨c', Cursor.found target bias root.toList k, by simp [Cursor.seekForward, hcall], hrep'⟩

end Lucie.ItemList
