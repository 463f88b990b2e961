import Lucie.Foundation.Cyclic
import Lucie.SumTree.InsertOrReplace

/-!
# Trees that are sorted by key

The key of an item is a dimension, and the location of a cursor in it compares like the key of the
last item before the cursor. On a tree that is sorted by key, `insert_or_replace` then puts an item
between the smaller and the larger keys, in place of an item with the same key.
-/

set_option autoImplicit false

namespace Lucie

open Foundation

variable {α σ κ : Type} [Item α σ] [AddMonoid σ] [Dimension κ σ] [Ord κ]

/-- What a key owes to its dimension, for the items of a tree: the location behind some of the
items compares like the key of the last of them, and no item is before the start. -/
structure KeyDimension (key : α → κ) (items : List α) : Prop where
  lawful : Dimension.Lawful κ items
  extent : ∀ (before : List α) (last : α), before ++ [last] <+: items →
    compare (Dimension.extent κ (before ++ [last])) (key last) = .eq
  zero : ∀ item ∈ items, (compare (Dimension.zero : κ) (key item)).isLE

/-- An item comes before another one by key. -/
def KeyBefore (key : α → κ) (item other : α) : Prop := compare (key item) (key other) = .lt

instance (key : α → κ) : DecidableRel (KeyBefore key) := fun item other =>
  inferInstanceAs (Decidable (compare (key item) (key other) = .lt))

instance [Std.TransOrd κ] (key : α → κ) : IsStrictOrder α (KeyBefore key) where
  irrefl item h := by simp [KeyBefore] at h
  trans _ _ _ h h' := Std.TransCmp.lt_trans h h'

namespace KeyDimension

variable {key : α → κ} {items : List α} {item : α}

/-- The location behind an item compares like its key. -/
theorem compare_extent (hkey : KeyDimension key items) {i : ℕ} (hi : i < items.length) :
    compare (Dimension.extent κ (items.take (i + 1))) (key items[i]) = .eq := by
  have htake : items.take (i + 1) = items.take i ++ [items[i]] := by
    rw [List.take_add_one, List.getElem?_eq_getElem hi, Option.toList_some]
  rw [htake]
  exact hkey.extent _ _ (htake ▸ List.take_prefix _ _)

variable [Std.TransOrd κ]

/-- The location goes up along a sorted list. -/
theorem extent_take_le (hkey : KeyDimension key items) (hsorted : items.Pairwise (KeyBefore key))
    {i j : ℕ} (hij : i ≤ j) (hj : j ≤ items.length) :
    (compare (Dimension.extent κ (items.take i)) (Dimension.extent κ (items.take j))).isLE := by
  obtain rfl | hlt := Nat.eq_or_lt_of_le hij
  · simp
  obtain ⟨j, rfl⟩ : ∃ k, j = k + 1 := Nat.exists_eq_succ_of_ne_zero (by omega)
  rw [Std.TransCmp.congr_right (hkey.compare_extent hj)]
  cases i with
  | zero => exact hkey.zero items[j] (List.getElem_mem _)
  | succ i =>
    rw [Std.TransCmp.congr_left (hkey.compare_extent (show i < items.length by omega))]
    have hbefore : KeyBefore key items[i] items[j] :=
      List.pairwise_iff_getElem.mp hsorted i j (by omega) hj (by omega)
    exact Ordering.isLE_of_eq_lt hbefore

/-- A key is a target for a sorted list. -/
theorem monotoneOn (hkey : KeyDimension key items) (hsorted : items.Pairwise (KeyBefore key))
    (target : κ) : (SeekTarget.ofOrd target).MonotoneOn items := by
  refine ⟨fun i j hij hj hcmp hlt => ?_, fun i j hij hj hcmp => ?_⟩
  · have hlt' : compare target (Dimension.extent κ (items.take i)) = .lt := hlt
    have hafter := Std.TransCmp.lt_of_lt_of_isLE hlt' (hkey.extent_take_le hsorted hij hj)
    exact hcmp hafter
  · have hgt : compare target (Dimension.extent κ (items.take j)) = .gt := hcmp
    have hlt := Std.TransCmp.lt_of_isLE_of_lt (hkey.extent_take_le hsorted hij hj)
      (Std.OrientedCmp.gt_iff_lt.mp hgt)
    have hgt' : compare target (Dimension.extent κ (items.take i)) = .gt :=
      Std.OrientedCmp.gt_iff_lt.mpr hlt
    exact hgt'

/-- A seek for a key goes past the items before it. -/
theorem leading_eq (hkey : KeyDimension key items) (item : α) :
    (SeekTarget.ofOrd (key item)).leading .left items =
      items.findIdx fun other => !decide (KeyBefore key other item) := by
  have hpasses : ∀ i (hi : i < items.length), (SeekTarget.ofOrd (key item)).passes .left
      (Dimension.extent κ (items.take (i + 1))) = true ↔ KeyBefore key items[i] item := by
    intro i hi
    have hcompare : compare (key item) (Dimension.extent κ (items.take (i + 1))) =
        compare (key item) (key items[i]) := Std.TransCmp.congr_right (hkey.compare_extent hi)
    simp only [SeekTarget.passes, SeekTarget.ofOrd, hcompare, KeyBefore,
      Std.OrientedCmp.gt_iff_lt, reduceCtorEq, decide_false, Bool.and_false, Bool.or_false,
      decide_eq_true_eq]
  apply le_antisymm
  · by_contra! hlt
    have hlength := hlt.trans_le (SeekTarget.leading_le _ _ _)
    have hpass := (hpasses _ hlength).mp (SeekTarget.passes_of_lt_leading hlt)
    have hstop := List.findIdx_getElem (w := hlength)
    simp [hpass] at hstop
  · refine SeekTarget.le_leading List.findIdx_le_length fun i hi => ?_
    have hpass := List.not_of_lt_findIdx hi
    exact (hpasses i (hi.trans_le List.findIdx_le_length)).mpr (by simpa using hpass)

end KeyDimension

namespace SumTree

variable [Std.TransOrd κ] [DecidableEq κ] {tree : SumTree α σ} {h : ℕ} {key : α → κ} {item : α}

omit [Item α σ] [AddMonoid σ] [Dimension κ σ] in
/-- In a sorted list without items before the given one, only the first can have its key. -/
theorem behind_eq {items : List α} (hsorted : items.Pairwise (KeyBefore key))
    (hbefore : ∀ other ∈ items, ¬KeyBefore key other item)
    (heq : ∀ other ∈ items, compare (key other) (key item) = .eq ↔ key other = key item) :
    behind key item items = items.filter (fun other => KeyBefore key item other) ∧
      (items.head?.filter fun first => key first = key item) =
        items.find? fun other => key other = key item := by
  cases items with
  | nil => exact ⟨rfl, rfl⟩
  | cons first rest =>
    obtain ⟨hfirst, -⟩ := List.pairwise_cons.mp hsorted
    have hfirstEq := heq first List.mem_cons_self
    by_cases hkeyEq : key first = key item
    · have hsame := hfirstEq.mpr hkeyEq
      have hirrefl : ¬KeyBefore key item first := by
        rw [KeyBefore, Std.OrientedCmp.eq_symm hsame]
        simp
      have hrest : ∀ other ∈ rest, KeyBefore key item other := fun other hother =>
        Std.TransCmp.lt_of_eq_of_lt (Std.OrientedCmp.eq_symm hsame) (hfirst other hother)
      rw [behind, if_pos hkeyEq, List.filter_cons_of_neg (by simpa using hirrefl),
        List.find?_cons_of_pos (by simpa using hkeyEq)]
      exact ⟨(List.filter_eq_self.mpr (by simpa using hrest)).symm, by simp [hkeyEq]⟩
    · have hafter : KeyBefore key item first := by
        have hnotBefore := hbefore first List.mem_cons_self
        have hne : compare (key first) (key item) ≠ .eq := fun h => hkeyEq (hfirstEq.mp h)
        rw [KeyBefore] at hnotBefore ⊢
        rw [← Std.OrientedCmp.gt_iff_lt]
        cases hcompare : compare (key first) (key item) with
        | lt => exact absurd hcompare hnotBefore
        | eq => exact absurd hcompare hne
        | gt => rfl
      have hall : ∀ other ∈ first :: rest, KeyBefore key item other := by
        intro other hother
        obtain rfl | hother := List.mem_cons.mp hother
        · exact hafter
        · exact trans_of (KeyBefore key) hafter (hfirst other hother)
      have hnone : (first :: rest).find? (fun other => key other = key item) = none := by
        refine List.find?_eq_none.mpr fun other hother hsame => ?_
        have hsame' := (heq other hother).mpr (by simpa using hsame)
        have hlt := hall other hother
        rw [KeyBefore, Std.OrientedCmp.eq_symm hsame'] at hlt
        cases hlt
      rw [behind, if_neg hkeyEq, hnone]
      exact ⟨(List.filter_eq_self.mpr (by simpa using hall)).symm, by simp [hkeyEq]⟩

omit [Item α σ] [AddMonoid σ] [Dimension κ σ] [DecidableEq κ] in
/-- Another key is smaller or larger. -/
theorem key_ne_iff {other : α}
    (heq : compare (key other) (key item) = .eq ↔ key other = key item) :
    key other ≠ key item ↔ KeyBefore key other item ∨ KeyBefore key item other := by
  rw [ne_eq, ← heq, KeyBefore, KeyBefore, ← Std.OrientedCmp.gt_iff_lt (a := key other)]
  cases compare (key other) (key item) <;> simp

omit [Item α σ] [AddMonoid σ] [Dimension κ σ] in
/-- The items of smaller keys have other keys. -/
theorem filter_ne_before {items : List α}
    (heq : ∀ other ∈ items, compare (key other) (key item) = .eq ↔ key other = key item) :
    (items.filter fun other => KeyBefore key other item).filter
        (fun other => key other ≠ key item) =
      items.filter fun other => KeyBefore key other item := by
  refine List.filter_eq_self.mpr fun other hother => ?_
  have hbefore : KeyBefore key other item := by simpa using List.of_mem_filter hother
  simpa using (key_ne_iff (heq other (List.mem_of_mem_filter hother))).mpr (.inl hbefore)

omit [Item α σ] [AddMonoid σ] [Dimension κ σ] in
/-- The items of larger keys have other keys. -/
theorem filter_ne_after {items : List α}
    (heq : ∀ other ∈ items, compare (key other) (key item) = .eq ↔ key other = key item) :
    (items.filter fun other => KeyBefore key item other).filter
        (fun other => key other ≠ key item) =
      items.filter fun other => KeyBefore key item other := by
  refine List.filter_eq_self.mpr fun other hother => ?_
  have hafter : KeyBefore key item other := by simpa using List.of_mem_filter hother
  simpa using (key_ne_iff (heq other (List.mem_of_mem_filter hother))).mpr (.inr hafter)

omit [Item α σ] [AddMonoid σ] [Dimension κ σ] in
/-- The items of other keys are the smaller ones and then the larger ones. -/
theorem filter_key_ne {items : List α} (hsorted : items.Pairwise (KeyBefore key))
    (heq : ∀ other ∈ items, compare (key other) (key item) = .eq ↔ key other = key item) :
    items.filter (fun other => key other ≠ key item) =
      items.filter (fun other => KeyBefore key other item) ++
        items.filter fun other => KeyBefore key item other := by
  have hsplit : items = items.filter (fun other => KeyBefore key other item) ++
      items.filter fun other => ¬KeyBefore key other item := by
    rw [← takeWhile_eq_filter hsorted item, ← dropWhile_eq_filter hsorted item,
      List.takeWhile_append_dropWhile]
  have hlarger : (items.filter fun other => ¬KeyBefore key other item).filter
      (fun other => key other ≠ key item) =
        items.filter fun other => KeyBefore key item other := by
    rw [List.filter_filter]
    refine List.filter_congr fun other hother => ?_
    have hne := key_ne_iff (heq other hother)
    by_cases hafter : KeyBefore key item other
    · simpa [hafter, asymm hafter] using hne.mpr (.inr hafter)
    · simpa [hafter, or_iff_not_imp_left] using hne.mp
  calc items.filter (fun other => key other ≠ key item)
      = (items.filter (fun other => KeyBefore key other item) ++
          items.filter fun other => ¬KeyBefore key other item).filter
            (fun other => key other ≠ key item) := by rw [← hsplit]
    _ = _ := by rw [List.filter_append, filter_ne_before heq, hlarger]

/-- An item goes between the smaller and the larger keys of a sorted tree, and an item of the same
key comes out. -/
theorem insertOrReplace_sorted (wf : WellFormed h tree) (hh : h ≤ 15)
    (hkey : KeyDimension key tree.toList) (hsorted : tree.toList.Pairwise (KeyBefore key))
    (hzero : (compare (Dimension.zero : κ) (key item)).isLE)
    (heq : ∀ other ∈ tree.toList, compare (key other) (key item) = .eq ↔ key other = key item) :
    ∃ result replaced k, insertOrReplace key tree item = some (result, replaced) ∧
      WellFormed k result ∧ result.toList.Pairwise (KeyBefore key) ∧
      result.toList = tree.toList.filter (fun other => KeyBefore key other item) ++ item ::
        tree.toList.filter (fun other => KeyBefore key item other) ∧
      replaced = tree.toList.find? fun other => key other = key item := by
  obtain ⟨result, replaced, k, hresult, wf', hitems, hreplaced⟩ :=
    insertOrReplace_spec key wf hh hkey.lawful (hkey.monotoneOn hsorted (key item))
      (fun hlt => absurd hlt (by
        rw [← Std.OrientedCmp.gt_iff_lt]
        intro hgt
        simp [hgt] at hzero))
  rw [hkey.leading_eq, ← List.takeWhile_eq_take_findIdx_not, ← List.dropWhile_eq_drop_findIdx_not,
    takeWhile_eq_filter hsorted item, dropWhile_eq_filter hsorted item] at hitems
  rw [hkey.leading_eq, ← List.dropWhile_eq_drop_findIdx_not,
    dropWhile_eq_filter hsorted item] at hreplaced
  have hbehind := behind_eq (hsorted.filter fun other => ¬KeyBefore key other item)
    (fun other hother => by simpa using List.of_mem_filter hother)
    (fun other hother => heq other (List.mem_of_mem_filter hother))
  have hafter : (tree.toList.filter fun other => ¬KeyBefore key other item).filter
      (fun other => KeyBefore key item other) =
        tree.toList.filter fun other => KeyBefore key item other := by
    rw [List.filter_filter]
    refine List.filter_congr fun other _ => ?_
    by_cases hbefore : KeyBefore key item other
    · simp [hbefore, asymm hbefore]
    · simp [hbefore]
  have hfind : tree.toList.find? (fun other => key other = key item) =
      (tree.toList.filter fun other => ¬KeyBefore key other item).find?
        fun other => key other = key item := by
    rw [List.find?_filter]
    refine List.find?_congr fun other hother => ?_
    by_cases hbefore : KeyBefore key other item
    · have hne : key other ≠ key item := fun hsame => by
        rw [KeyBefore, (heq other hother).mpr hsame] at hbefore
        cases hbefore
      simp [hne]
    · simp [hbefore]
  rw [hbehind.1, hafter] at hitems
  refine ⟨result, replaced, k, hresult, wf', ?_, hitems, by rw [hreplaced, hbehind.2, hfind]⟩
  rw [hitems, List.pairwise_append, List.pairwise_cons]
  refine ⟨hsorted.filter _, ⟨fun other hother => by simpa using List.of_mem_filter hother,
    hsorted.filter _⟩, fun before hbefore other hother => ?_⟩
  have hbefore' : KeyBefore key before item := by simpa using List.of_mem_filter hbefore
  obtain rfl | hother := List.mem_cons.mp hother
  · exact hbefore'
  · exact trans_of (KeyBefore key) hbefore' (by simpa using List.of_mem_filter hother)

/-- On a sorted tree that a cursor can walk, `insert_or_replace` leaves a sorted tree with the new
item and the items of other keys, and returns the item of the same key. -/
theorem insertOrReplace_correct (wf : WellFormed h tree) (hh : h ≤ 15)
    (hkey : KeyDimension key tree.toList) (hsorted : tree.toList.Pairwise (KeyBefore key))
    (hzero : (compare (Dimension.zero : κ) (key item)).isLE)
    (heq : ∀ other ∈ tree.toList, compare (key other) (key item) = .eq ↔ key other = key item) :
    ∃ result replaced, insertOrReplace key tree item = some (result, replaced) ∧
      WellFormed result.height result ∧ result.toList.Pairwise (KeyBefore key) ∧
      item ∈ result.toList ∧
      result.toList.filter (fun other => key other ≠ key item) =
        tree.toList.filter (fun other => key other ≠ key item) ∧
      replaced = tree.toList.find? fun other => key other = key item := by
  obtain ⟨result, replaced, k, hresult, wf', hpairwise, hitems, hreplaced⟩ :=
    insertOrReplace_sorted wf hh hkey hsorted hzero heq
  refine ⟨result, replaced, hresult, wf'.height_eq.symm ▸ wf', hpairwise, ?_, ?_, hreplaced⟩
  · rw [hitems]
    simp
  · rw [filter_key_ne hsorted heq, hitems, List.filter_append, List.filter_cons_of_neg (by simp),
      filter_ne_before heq, filter_ne_after heq]

omit [Std.TransOrd κ] in
/-- On a tree of more than sixteen levels the cursor shows no item to replace. -/
theorem insertOrReplace_deep (wf : WellFormed h tree) (hh : 15 < h) {result : SumTree α σ}
    {replaced : Option α} (hresult : insertOrReplace key tree item = some (result, replaced)) :
    replaced = none := by
  obtain ⟨⟨c, newTree⟩, hslice, hresult⟩ := Option.bind_eq_some_iff.mp hresult
  obtain ⟨⟨c', a', found⟩, hcall, heq⟩ := Option.bind_eq_some_iff.mp hslice
  obtain ⟨rfl, -⟩ := Prod.mk.inj (Option.some.inj heq)
  obtain ⟨hstack, -, hsought⟩ := Cursor.seekInternal_new_deep wf hh hcall
  have hitem : c'.item = some none := by
    rw [Cursor.item, hsought, hstack]
    rfl
  simp only [hitem, Option.bind_eq_bind, Option.bind_some, Option.bind_eq_some_iff,
    Option.some.injEq, Prod.mk.injEq] at hresult
  obtain ⟨_, -, _, -, _, -, -, hreplaced⟩ := hresult
  exact hreplaced.symm

end SumTree

section Count

/-- Numbers that are counted have their place as a key. -/
theorem keyDimension_range (n : ℕ) : KeyDimension Nat.succ (List.range n) where
  lawful := countDimension_lawful _
  extent before last hprefix := by
    have hget : (List.range n)[before.length]? = some last := by
      obtain ⟨rest, heq⟩ := hprefix
      rw [← heq]
      simp
    have hlast : before.length = last := by
      obtain ⟨hlt, heq⟩ := List.getElem?_eq_some_iff.mp hget
      simpa using heq
    rw [extent_count, List.length_append, hlast]
    simp
  zero item _ := by simp [Dimension.zero, Nat.isLE_compare]

theorem pairwise_range (n : ℕ) : (List.range n).Pairwise (KeyBefore Nat.succ) := by
  exact List.pairwise_lt_range.imp fun hlt => Nat.compare_eq_lt.mpr (Nat.succ_lt_succ hlt)

/-- The second of three numbers is inserted again. -/
theorem SumTree.insertOrReplace_correct_range : ∃ tree result : SumTree ℕ ℕ,
    fromIter (List.range 3) = some tree ∧
    insertOrReplace (δ := ℕ) Nat.succ tree 1 = some (result, some 1) ∧
    result.toList.Pairwise (KeyBefore Nat.succ) := by
  obtain ⟨tree, h, htree, wf, hitems, hlevels⟩ := fromIter_levels (σ := ℕ) (List.range 3)
  have hheight : h ≤ 0 := (hlevels 0).mp (by simp [TREE_BASE])
  obtain ⟨result, replaced, hresult, -, hsorted, -, -, hreplaced⟩ :
      ∃ (result : SumTree ℕ ℕ) (replaced : Option ℕ),
        insertOrReplace (δ := ℕ) Nat.succ tree 1 = some (result, replaced) ∧ _ :=
    insertOrReplace_correct wf (by omega) (hitems ▸ keyDimension_range 3)
      (hitems ▸ pairwise_range 3) (by decide) (by simp)
  obtain rfl : replaced = some 1 := by
    rw [hreplaced, hitems]
    decide
  exact ⟨tree, result, htree, hresult, hsorted⟩

/-- On a tree of more than sixteen levels the item of the same key is not returned. If the key does
not go with its dimension, the items of other keys are not behind the new item. -/
theorem SumTree.not_insertOrReplace_correct :
    (∃ tree : SumTree ℕ ℕ, fromIter (List.range ((2 * TREE_BASE) ^ 16 + 1)) = some tree ∧
      KeyDimension Nat.succ tree.toList ∧ tree.toList.Pairwise (KeyBefore Nat.succ) ∧
      0 ∈ tree.toList ∧
      ∀ result, insertOrReplace (δ := ℕ) Nat.succ tree 0 ≠ some (result, some 0)) ∧
    ∃ tree result : SumTree ℕ ℕ, fromIter [5, 7] = some tree ∧
      insertOrReplace (δ := ℕ) id tree 5 = some (result, none) ∧ result.toList = [5, 7, 5] := by
  constructor
  · have hlength : (2 * TREE_BASE) ^ 16 < (List.range ((2 * TREE_BASE) ^ 16 + 1)).length := by
      rw [List.length_range]
      exact Nat.lt_succ_self _
    obtain ⟨tree, h, htree, wf, hitems, hdeep⟩ := fromIter_deep (σ := ℕ) hlength
    refine ⟨tree, htree, hitems ▸ keyDimension_range _, hitems ▸ pairwise_range _, ?_,
      fun result hresult => ?_⟩
    · rw [hitems, List.mem_range]
      exact Nat.succ_pos _
    · cases insertOrReplace_deep wf hdeep hresult
  · obtain ⟨tree, h, htree, wf, hitems, hlevels⟩ := fromIter_levels (σ := ℕ) [5, 7]
    have hheight : h ≤ 0 := (hlevels 0).mp (by simp [TREE_BASE])
    obtain ⟨result, replaced, k, hresult, -, hcontents, hreplaced⟩ :=
      insertOrReplace_spec id wf (by omega) (countDimension_lawful _)
        (ofOrd_count_monotoneOn 5 _) (by decide)
    have hlead : (SeekTarget.ofOrd (id 5)).leading .left tree.toList = 2 := by
      rw [hitems]
      decide
    rw [hlead, hitems] at hcontents hreplaced
    obtain rfl : replaced = none := hreplaced
    exact ⟨tree, result, htree, hresult, hcontents⟩

end Count

end Lucie
