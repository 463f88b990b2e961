import Lucie.SumTree.InsertOrReplace

/-!
# Finding an item without a cursor

`find` goes down to a leaf by itself, without a stack. For a target that is not before the start
of the tree it ends where the seek of a new cursor ends: both go past the leading items.
-/

set_option autoImplicit false

namespace Lucie

/-- The test by which `find_recurse` enters a child that ends at `childEnd`. -/
def SeekTarget.within {δ : Type} (target : SeekTarget δ) (bias : Bias) (childEnd : δ) : Bool :=
  target.cmp childEnd = .lt || (target.cmp childEnd = .eq && bias = .left)

/-- A target goes past an entry or into it. -/
theorem SeekTarget.within_eq_not_passes {δ : Type} (target : SeekTarget δ) (bias : Bias)
    (childEnd : δ) : target.within bias childEnd = !target.passes bias childEnd := by
  unfold within passes
  cases target.cmp childEnd <;> cases bias <;> rfl

namespace SumTree

section Find

variable {α σ δ : Type} [Dimension δ σ]

/-- The loop of `find_recurse` over the items of a leaf: the position, and the item with the
position behind it. -/
def findItems (target : SeekTarget δ) (bias : Bias) (exact : Bool) :
    List (α × σ) → δ → δ × Option (α × δ)
  | [], position => (position, none)
  | (item, itemSummary) :: rest, position =>
    let childEnd := Dimension.addSummary position itemSummary
    let entryFound :=
      if exact then target.cmp childEnd = .eq else target.within bias childEnd
    if entryFound then (position, some (item, childEnd))
    else findItems target bias exact rest childEnd

mutual

/-- `SumTree::find_recurse`; the flag stands for `EXACT`. -/
def findRecurse (target : SeekTarget δ) (bias : Bias) (exact : Bool) :
    SumTree α σ → δ → δ × Option (α × δ)
  | .internal _ _ childSummaries childTrees, position =>
    findChildren target bias exact childTrees childSummaries position
  | .leaf _ items itemSummaries, position =>
    findItems target bias exact (items.zip itemSummaries) position

/-- The loop of `find_recurse` over the children of an internal node. -/
def findChildren (target : SeekTarget δ) (bias : Bias) (exact : Bool) :
    List (SumTree α σ) → List σ → δ → δ × Option (α × δ)
  | childTree :: childTrees, childSummary :: childSummaries, position =>
    let childEnd := Dimension.addSummary position childSummary
    if target.within bias childEnd then findRecurse target bias exact childTree position
    else findChildren target bias exact childTrees childSummaries childEnd
  | _, _, position => (position, none)

end

/-- `SumTree::find`. -/
def find (tree : SumTree α σ) (target : SeekTarget δ) (bias : Bias) : δ × δ × Option α :=
  let treeEnd : δ := Dimension.addSummary Dimension.zero tree.summary
  if target.passes bias treeEnd then (treeEnd, treeEnd, none)
  else
    match findRecurse target bias false tree Dimension.zero with
    | (position, some (item, childEnd)) => (position, childEnd, some item)
    | (position, none) => (position, position, none)

end Find

variable {α σ δ : Type} [Item α σ] [Dimension δ σ] {items done : List α} {target : SeekTarget δ}
  {bias : Bias}

/-- Whether a monotone target goes past a run of items tells whether they are leading. -/
theorem within_extent_iff (bias : Bias) (hmono : target.MonotoneOn items) (hpre : done <+: items)
    (hne : done ≠ []) : target.within bias (Dimension.extent δ done) = true ↔
      target.leading bias items < done.length := by
  have hpos : 0 < done.length := List.length_pos_iff.mpr hne
  have hle := hpre.length_le
  rw [SeekTarget.within_eq_not_passes, Bool.not_eq_true', ← Bool.not_eq_true, ← not_le,
    not_iff_not, List.prefix_iff_eq_take.mp hpre, List.length_take_of_le hle]
  constructor
  · intro hpass
    refine SeekTarget.le_leading hle fun i hi => ?_
    exact hmono.passes_of_le (by omega) hle hpass
  · intro hlead
    obtain ⟨n, hn⟩ := Nat.exists_eq_succ_of_ne_zero hpos.ne'
    rw [hn] at hlead ⊢
    exact SeekTarget.passes_of_lt_leading hlead

/-- What a search that is through with `done` finds in a run of items that holds the first item
that is not leading. -/
structure Finds (target : SeekTarget δ) (bias : Bias) (items : List α)
    (result : δ × Option (α × δ)) : Prop where
  start : result.1 = Dimension.extent δ (items.take (target.leading bias items))
  item : result.2.map Prod.fst = items[target.leading bias items]?
  stop : ∀ found ∈ result.2,
    found.2 = Dimension.extent δ (items.take (target.leading bias items + 1))

/-- The loop over the items of a leaf finds the first item that is not leading. -/
theorem findItems_spec (hmono : target.MonotoneOn items) {entries : List α}
    (hpre : done ++ entries <+: items) (hdone : done.length ≤ target.leading bias items)
    (hlead : target.leading bias items < done.length + entries.length) :
    Finds target bias items
      (findItems target bias false (entries.zip (entries.map Item.summary))
        (Dimension.extent δ done)) := by
  induction entries generalizing done with
  | nil =>
    rw [List.length_nil] at hlead
    omega
  | cons item entries ih =>
    have hpreItem : done ++ [item] <+: items :=
      ((List.prefix_append_right_inj _).mpr (by simp)).trans hpre
    have hwithin := within_extent_iff bias hmono hpreItem (by simp)
    rw [List.length_append, List.length_singleton] at hwithin
    rw [List.map_cons, List.zip_cons_cons, findItems, ← Dimension.extent_concat]
    simp only [Bool.false_eq_true, if_false]
    split_ifs with hfound
    · have heq : done.length = target.leading bias items := by
        have hlt := hwithin.mp hfound
        omega
      have htake := List.prefix_iff_eq_take.mp hpreItem
      rw [List.length_append, List.length_singleton, heq] at htake
      refine ⟨?_, ?_, ?_⟩
      · rw [← heq, ← List.prefix_iff_eq_take.mp ((List.prefix_append _ _).trans hpreItem)]
      · have hget : (done ++ [item])[done.length]? = some item := List.getElem?_concat_length
        obtain ⟨rest, hrest⟩ := hpreItem
        rw [← heq, ← hrest, List.getElem?_append_left (by simp), hget]
        rfl
      · rintro _ ⟨⟩
        rw [htake]
    · rw [List.length_cons] at hlead
      refine ih (by simpa using hpre) ?_ ?_
      · have hge := mt hwithin.mpr hfound
        rw [List.length_append, List.length_singleton]
        omega
      · rw [List.length_append, List.length_singleton]
        omega

variable [AddMonoid σ]

/-- The loop over the children of a node enters the one that holds the first item that is not
leading. -/
theorem findChildren_spec (hlawful : Dimension.Lawful δ items) (hmono : target.MonotoneOn items)
    {k : ℕ} {trees : List (SumTree α σ)} (hrow : Row k trees)
    (hchild : ∀ tree ∈ trees, ∀ done : List α, done ++ tree.toList <+: items →
      done.length ≤ target.leading bias items →
      target.leading bias items < done.length + tree.toList.length →
      Finds target bias items (findRecurse target bias false tree (Dimension.extent δ done)))
    (hpre : done ++ toLists trees <+: items) (hdone : done.length ≤ target.leading bias items)
    (hlead : target.leading bias items < done.length + (toLists trees).length) :
    Finds target bias items
      (findChildren target bias false trees (trees.map summary) (Dimension.extent δ done)) := by
  induction trees generalizing done with
  | nil =>
    rw [toLists_nil, List.length_nil] at hlead
    omega
  | cons tree trees ih =>
    obtain ⟨⟨wf, hne⟩, hrest⟩ := Row.cons_iff.mp hrow
    rw [toLists_cons, ← List.append_assoc] at hpre
    rw [toLists_cons, List.length_append] at hlead
    have hpreTree : done ++ tree.toList <+: items := (List.prefix_append _ _).trans hpre
    have hend : Dimension.addSummary (Dimension.extent δ done) tree.summary =
        Dimension.extent δ (done ++ tree.toList) := by
      rw [wf.summary_eq, hlawful.add_measure _ _ hpreTree.isInfix hne]
    have hwithin := within_extent_iff bias hmono hpreTree (by simp [hne])
    rw [List.length_append] at hwithin
    rw [List.map_cons, findChildren, hend]
    split_ifs with hin
    · exact hchild tree List.mem_cons_self done hpreTree hdone (hwithin.mp hin)
    · have hge := mt hwithin.mpr hin
      refine ih hrest (fun t ht => hchild t (List.mem_cons_of_mem _ ht)) hpre ?_ ?_
      · rw [List.length_append]
        omega
      · rw [List.length_append]
        omega

/-- Below a well-formed node the search finds the first item that is not leading. The induction is
on the node. -/
theorem findRecurse_spec (hlawful : Dimension.Lawful δ items) (hmono : target.MonotoneOn items)
    {k : ℕ} {tree : SumTree α σ} (wf : WellFormed k tree) (hpre : done ++ tree.toList <+: items)
    (hdone : done.length ≤ target.leading bias items)
    (hlead : target.leading bias items < done.length + tree.toList.length) :
    Finds target bias items (findRecurse target bias false tree (Dimension.extent δ done)) := by
  induction wf generalizing done with
  | leaf =>
    rw [findRecurse]
    exact findItems_spec hmono (by simpa using hpre) hdone (by simpa using hlead)
  | internal _ _ children occupied ih =>
    rw [findRecurse]
    rw [toList_internal] at hpre hlead
    exact findChildren_spec hlawful hmono ⟨children, occupied⟩
      (fun tree ht _ hpre hdone hlead => ih tree ht hpre hdone hlead) hpre hdone hlead

/-- `find` gives the first item that is not leading, with the positions before and behind it. -/
theorem find_spec {h : ℕ} {root : SumTree α σ} (bias : Bias) (wf : WellFormed h root)
    (hlawful : Dimension.Lawful δ root.toList)
    (hempty : root.toList = [] → Dimension.addSummary (Dimension.zero : δ) (0 : σ) = Dimension.zero)
    (hmono : target.MonotoneOn root.toList) :
    root.find target bias =
      (Dimension.extent δ (root.toList.take (target.leading bias root.toList)),
        Dimension.extent δ (root.toList.take (target.leading bias root.toList + 1)),
        root.toList[target.leading bias root.toList]?) := by
  have hend : Dimension.addSummary (Dimension.zero : δ) root.summary =
      Dimension.extent δ root.toList := by
    rw [wf.summary_eq]
    by_cases hne : root.toList = []
    · rw [hne, measure_nil, hempty hne]
      rfl
    · exact hlawful.add_measure [] root.toList (by simp) hne
  by_cases hne : root.toList = []
  · -- an empty tree is a leaf without items
    obtain ⟨summary, itemSummaries, rfl⟩ :
        ∃ summary itemSummaries, root = .leaf summary [] itemSummaries := by
      cases wf with
      | leaf => exact ⟨_, _, by rw [← hne, toList_leaf]⟩
      | internal hnonempty _ _ occupied =>
        exact absurd hne (by simpa using toLists_ne_nil hnonempty occupied)
    rw [find, hend]
    simp [findRecurse, findItems]
  · have hwithin := within_extent_iff bias hmono (List.prefix_refl root.toList) hne
    have hle := SeekTarget.leading_le target bias root.toList
    rw [SeekTarget.within_eq_not_passes] at hwithin
    rw [find, hend]
    split_ifs with hpass
    · have heq : target.leading bias root.toList = root.toList.length := by
        have hge : ¬target.leading bias root.toList < root.toList.length := by
          rw [← hwithin, hpass]
          decide
        omega
      rw [heq, List.take_length, List.take_of_length_le (Nat.le_succ _),
        List.getElem?_eq_none le_rfl]
    · have hlt : target.leading bias root.toList < root.toList.length :=
        hwithin.mp (by simp [hpass])
      have hpre : [] ++ root.toList <+: root.toList := List.prefix_refl _
      obtain ⟨hstart, hitem, hstop⟩ := findRecurse_spec hlawful hmono wf hpre (Nat.zero_le _)
        (by simpa using hlt)
      rw [Dimension.extent_nil] at hstart hitem hstop
      generalize findRecurse target bias false root (Dimension.zero : δ) = result at *
      obtain ⟨position, found⟩ := result
      cases found with
      | none =>
        rw [List.getElem?_eq_getElem hlt] at hitem
        cases hitem
      | some found =>
        obtain ⟨item, childEnd⟩ := found
        obtain rfl : position = _ := hstart
        obtain rfl : childEnd = _ := hstop _ rfl
        rw [← hitem]
        rfl

/-- `find` agrees with a new cursor: its seek returns, and its position, the position behind its
item and the item are what `find` returns. -/
def FindsLikeCursor (root : SumTree α σ) (target : SeekTarget δ) (bias : Bias) : Prop :=
  ∃ cursor found cursorEnd item, (Cursor.new root).seek target bias = some (cursor, found) ∧
    cursor.endPosition .left = some cursorEnd ∧ cursor.item = some item ∧
    root.find target bias = (cursor.start, cursorEnd, item)

omit [AddMonoid σ] in
/-- No item is leading when the target is before the start. -/
theorem leading_eq_zero (hmono : target.MonotoneOn items)
    (htarget : target.cmp (Dimension.zero : δ) = .lt) : target.leading bias items = 0 := by
  by_contra hne
  have hle := SeekTarget.leading_le target bias items
  have hpass := SeekTarget.passes_of_lt_leading (Nat.pos_of_ne_zero hne)
  have hlt : target.cmp (Dimension.extent δ (items.take 1)) = .lt := by
    by_contra hne
    exact hmono.ne_lt 0 1 (Nat.zero_le _) (by omega) hne htarget
  simp [SeekTarget.passes, hlt] at hpass

/-- For a target that is not before the start, `find` agrees with a new cursor. Before the start the
seek panics and `find` gives the first item. -/
theorem find_eq_seek {h : ℕ} {root : SumTree α σ} (bias : Bias) (wf : WellFormed h root)
    (hh : h ≤ 15) (hlawful : Dimension.Lawful δ root.toList)
    (hempty : root.toList = [] → Dimension.addSummary (Dimension.zero : δ) (0 : σ) = Dimension.zero)
    (hmono : target.MonotoneOn root.toList) :
    (target.cmp Dimension.zero ≠ .lt → FindsLikeCursor root target bias) ∧
    (target.cmp Dimension.zero = .lt → (Cursor.new root).seek target bias = none ∧
      root.find target bias = (Dimension.zero, Dimension.extent δ (root.toList.take 1),
        root.toList.head?)) := by
  have hfind := find_spec bias wf hlawful hempty hmono
  constructor
  · intro htarget
    obtain ⟨cursor, found, hseek, hrep⟩ := Cursor.seek_new_spec bias wf hh hlawful hmono htarget
    have hitem := hrep.item_eq wf
    have hsummary := hrep.itemSummary_eq wf
    have hstart := hrep.start_eq
    have hposition : cursor.position = cursor.start := rfl
    simp only [Place.item, Place.index, Option.map_some] at hitem hsummary hstart
    generalize target.leading bias root.toList = k at *
    refine ⟨cursor, found, Dimension.extent δ (root.toList.take (k + 1)), _, hseek, ?_, hitem, ?_⟩
    · rw [Cursor.endPosition, if_pos rfl, hsummary, hposition, hstart]
      cases hget : root.toList[k]? with
      | none =>
        have hle := List.getElem?_eq_none_iff.mp hget
        rw [List.take_of_length_le hle, List.take_of_length_le (hle.trans (Nat.le_succ k))]
        rfl
      | some item =>
        rw [List.take_add_one, hget, Option.toList_some, Dimension.extent_concat]
        rfl
    · rw [hfind, hstart]
  · intro htarget
    refine ⟨?_, ?_⟩
    · have hposition : (Cursor.new root).reset.position = (Dimension.zero : δ) := rfl
      rw [Cursor.seek, Cursor.seekInternal, hposition, if_pos htarget]
      rfl
    · rw [hfind, leading_eq_zero hmono htarget, List.head?_eq_getElem?]
      rfl

/-- Positions in integers: a target can be before the start. -/
instance signedCountDimension : Dimension ℤ ℕ := ⟨0, fun position count => position + count⟩

/-- The third item of five, from either side of its start. -/
theorem find_eq_seek_countTree :
    FindsLikeCursor countTree (SeekTarget.ofOrd (2 : ℕ)) .left ∧
      FindsLikeCursor countTree (SeekTarget.ofOrd (2 : ℕ)) .right :=
  have hfinds (bias : Bias) := (find_eq_seek bias countTree_wellFormed (by decide)
    (countDimension_lawful _) (fun _ => rfl) (ofOrd_count_monotoneOn 2 _)).1 (by decide)
  ⟨hfinds .left, hfinds .right⟩

theorem extent_signedCount (items : List ℕ) : Dimension.extent ℤ items = items.length := by
  induction items using List.reverseRecOn with
  | nil => rfl
  | append_singleton items item ih =>
    rw [Dimension.extent_concat, ih, List.length_append, List.length_singleton, Nat.cast_add]
    rfl

/-- Before the start only `find` returns. -/
theorem not_findsLikeCursor_countTree : WellFormed 1 countTree ∧
    Dimension.Lawful ℤ countTree.toList ∧
    (SeekTarget.ofOrd (-1 : ℤ)).MonotoneOn countTree.toList ∧
    ¬FindsLikeCursor countTree (SeekTarget.ofOrd (-1 : ℤ)) .left := by
  refine ⟨countTree_wellFormed, ?_, ?_, ?_⟩
  · refine Dimension.lawful_of_action (fun position => add_zero position) ?_ _
    intro position count count'
    change position + ((count + count' : ℕ) : ℤ) = position + count + count'
    omega
  · refine SeekTarget.ofOrd_monotoneOn (fun i j hij hj => ?_) (-1)
    rw [extent_signedCount, extent_signedCount, List.length_take, List.length_take]
    omega
  · rintro ⟨cursor, found, cursorEnd, item, hseek, -⟩
    have hnone : (Cursor.new countTree).seek (SeekTarget.ofOrd (-1 : ℤ)) .left = none := by decide
    rw [hnone] at hseek
    cases hseek

end SumTree

end Lucie
