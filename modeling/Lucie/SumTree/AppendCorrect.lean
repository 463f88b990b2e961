import Lucie.SumTree.Append

/-!
# Appending keeps trees well formed

Every routine of concatenation returns one or two sibling trees. A *row* is a
list of well-formed, occupied siblings; the specifications say that the returned
siblings form a row with the expected contents. The claim about whole histories
follows by induction on how a tree was produced.
-/

set_option autoImplicit false

namespace Lucie.SumTree

variable {α σ : Type} [AddMonoid σ] [Item α σ]

/-- Well-formed siblings of one height, none of them empty. -/
structure Row (h : ℕ) (trees : List (SumTree α σ)) : Prop where
  /-- Every sibling is well formed. -/
  wellFormed : ∀ tree ∈ trees, WellFormed h tree
  /-- Every sibling has an item. -/
  occupied : ∀ tree ∈ trees, toList tree ≠ []

namespace Row

variable {h : ℕ} {tree : SumTree α σ} {trees left right : List (SumTree α σ)}

@[simp] theorem nil : Row h ([] : List (SumTree α σ)) := ⟨by simp, by simp⟩

theorem cons_iff :
    Row h (tree :: trees) ↔ (WellFormed h tree ∧ toList tree ≠ []) ∧ Row h trees := by
  constructor
  · rintro ⟨hw, ho⟩
    exact ⟨⟨hw tree (by simp), ho tree (by simp)⟩,
      fun t ht => hw t (by simp [ht]), fun t ht => ho t (by simp [ht])⟩
  · rintro ⟨⟨hw, ho⟩, hrow⟩
    refine ⟨?_, ?_⟩
    · rintro t (_ | ⟨_, ht⟩)
      exacts [hw, hrow.wellFormed t ht]
    · rintro t (_ | ⟨_, ht⟩)
      exacts [ho, hrow.occupied t ht]

theorem singleton_iff : Row h [tree] ↔ WellFormed h tree ∧ toList tree ≠ [] := by
  simp [cons_iff]

theorem append_iff : Row h (left ++ right) ↔ Row h left ∧ Row h right := by
  induction left with
  | nil => simp
  | cons tree trees ih => simp only [List.cons_append, cons_iff, ih, and_assoc]

theorem take (hrow : Row h trees) (n : ℕ) : Row h (trees.take n) := by
  rw [← List.take_append_drop n trees, append_iff] at hrow
  exact hrow.1

theorem drop (hrow : Row h trees) (n : ℕ) : Row h (trees.drop n) := by
  rw [← List.take_append_drop n trees, append_iff] at hrow
  exact hrow.2

/-- The parent of a row of at most `2 * TREE_BASE` siblings is well formed,
whatever routine computed its summary. -/
theorem parent (height : ℕ) (total : σ) (hrow : Row h trees) (hne : trees ≠ [])
    (hlen : trees.length ≤ 2 * TREE_BASE) (hheight : height = h + 1)
    (hsum : total = measure (toLists trees)) :
    WellFormed (h + 1) (.internal height total (trees.map summary) trees) := by
  subst hheight hsum
  exact .internal hne hlen hrow.wellFormed hrow.occupied

/-- The sum of the cached summaries of a row. -/
theorem sum_summary (hrow : Row h trees) :
    sum (trees.map summary) = measure (toLists trees) := by
  rw [sum_eq, sum_map_summary hrow.wellFormed]

end Row

/-- A leaf is well formed as soon as its summary is the sum of its items. -/
theorem WellFormed.ofItems (items : List α) {itemSummaries : List σ} {total : σ}
    (hlen : items.length ≤ 2 * TREE_BASE) (hsummaries : itemSummaries = items.map Item.summary)
    (htotal : total = measure items) : WellFormed 0 (.leaf total items itemSummaries) := by
  subst hsummaries htotal
  exact .leaf hlen

theorem sum_map_item (items : List α) : sum (items.map Item.summary) = measure items := sum_eq _

/-- What a routine that joins two trees returns: one or two siblings of height
`h` that together have the given contents. -/
def JoinsTo (h : ℕ) (contents : List α) (siblings : List (SumTree α σ)) : Prop :=
  Row h siblings ∧ toLists siblings = contents

/-- Two halves of an overfull row of children become two parents. -/
theorem Row.split {h m : ℕ} {trees : List (SumTree α σ)} (hrow : Row h trees) (hm : 0 < m)
    (hlt : m < trees.length) (hleft : m ≤ 2 * TREE_BASE)
    (hright : trees.length - m ≤ 2 * TREE_BASE) :
    JoinsTo (h + 1) (toLists trees)
      [.internal (h + 1) (sum ((trees.take m).map summary)) ((trees.take m).map summary)
          (trees.take m),
        .internal (h + 1) (sum ((trees.drop m).map summary)) ((trees.drop m).map summary)
          (trees.drop m)] := by
  have htake : (trees.take m).length = m := List.length_take_of_le (by omega)
  have htakeNe : trees.take m ≠ [] := List.ne_nil_of_length_pos (by omega)
  have hdropNe : trees.drop m ≠ [] :=
    List.ne_nil_of_length_pos (by rw [List.length_drop]; omega)
  have hL := (hrow.take m).parent _ _ htakeNe (by omega) rfl (hrow.take m).sum_summary
  have hR := (hrow.drop m).parent _ _ hdropNe (by rw [List.length_drop]; omega) rfl
    (hrow.drop m).sum_summary
  refine ⟨?_, ?_⟩
  · rw [Row.cons_iff, Row.singleton_iff]
    exact ⟨⟨hL, toLists_ne_nil htakeNe (hrow.take m).occupied⟩,
      hR, toLists_ne_nil hdropNe (hrow.drop m).occupied⟩
  · simp only [toLists_cons, toList_internal, toLists_nil, List.append_nil, ← toLists_append,
      List.take_append_drop]

/-- Two halves of an overfull run of items become two leaves. -/
theorem splitItems {m : ℕ} {items : List α} (hm : 0 < m) (hlt : m < items.length)
    (hleft : m ≤ 2 * TREE_BASE) (hright : items.length - m ≤ 2 * TREE_BASE) :
    JoinsTo 0 items
      [.leaf (sum ((items.take m).map Item.summary)) (items.take m)
          ((items.take m).map Item.summary),
        .leaf (sum ((items.drop m).map Item.summary)) (items.drop m)
          ((items.drop m).map Item.summary)] := by
  have htake : (items.take m).length = m := List.length_take_of_le (by omega)
  have hdrop : (items.drop m).length = items.length - m := List.length_drop
  refine ⟨?_, ?_⟩
  · rw [Row.cons_iff, Row.singleton_iff, toList_leaf, toList_leaf]
    exact ⟨⟨.ofItems _ (by omega) rfl (sum_map_item _), List.ne_nil_of_length_pos (by omega)⟩,
      .ofItems _ (by omega) rfl (sum_map_item _), List.ne_nil_of_length_pos (by omega)⟩
  · simp

/-- `push_tree_recursive` ends by taking over or splitting off a row of trees. -/
theorem pushChildren_spec {h : ℕ} (total : σ) {trees : List (SumTree α σ)}
    (more : List (SumTree α σ)) (hrow : Row h trees) (hmore : Row h more) (hne : trees ≠ [])
    (hlen : trees.length ≤ 2 * TREE_BASE) (hmoreLen : more.length ≤ 2 * TREE_BASE)
    (htotal : total = measure (toLists trees ++ toLists more)) :
    ∃ tree right, pushChildren (h + 1) total (trees.map summary) trees (more.map summary) more =
        some (tree, right) ∧
      JoinsTo (h + 1) (toLists trees ++ toLists more) (tree :: right.toList) := by
  have hall : Row h (trees ++ more) := Row.append_iff.mpr ⟨hrow, hmore⟩
  have hcount : (trees ++ more).length = trees.length + more.length := List.length_append
  have hpos : 0 < trees.length := List.length_pos_of_ne_nil hne
  have hbase : TREE_BASE = 6 := rfl
  by_cases hover : trees.length + more.length > 2 * TREE_BASE
  · have hjoin := hall.split (m := (trees.length + more.length +
      (trees.length + more.length) % 2) / 2) (by omega) (by omega) (by omega) (by omega)
    rw [toLists_append] at hjoin
    refine ⟨_, some _, ?_, hjoin⟩
    simp only [pushChildren, if_pos hover, ← List.map_append, ← List.map_take, ← List.map_drop]
    rw [arrayVec_eq_some, arrayVec_eq_some, arrayVec_eq_some, arrayVec_eq_some]
    · rfl
    all_goals simp only [List.length_map, List.length_take, List.length_drop, hcount]; omega
  · refine ⟨.internal (h + 1) total ((trees ++ more).map summary) (trees ++ more), none, ?_, ?_⟩
    · simp only [pushChildren, if_neg hover, ← List.map_append]
      rw [arrayVec_eq_some, arrayVec_eq_some]
      · rfl
      all_goals simp only [List.length_map, hcount]; omega
    · have hne' : trees ++ more ≠ [] := by simp [hne]
      refine ⟨?_, by simp⟩
      rw [Option.toList_none, Row.singleton_iff, toList_internal]
      exact ⟨hall.parent _ _ hne' (by omega) rfl (by rw [htotal, toLists_append]),
        toLists_ne_nil hne' hall.occupied⟩

/-- The leaf branch of `push_tree_recursive` concatenates the items. -/
theorem pushItems_spec {items otherItems : List α} (hne : items ≠ [])
    (hlen : items.length ≤ 2 * TREE_BASE) (hotherLen : otherItems.length ≤ 2 * TREE_BASE) :
    ∃ tree right, pushItems (measure items) items (items.map Item.summary)
        (.leaf (measure otherItems) otherItems (otherItems.map Item.summary)) =
        some (tree, right) ∧
      JoinsTo 0 (items ++ otherItems) (tree :: right.toList) := by
  have hcount : (items ++ otherItems).length = items.length + otherItems.length :=
    List.length_append
  have hpos : 0 < items.length := List.length_pos_of_ne_nil hne
  have hbase : TREE_BASE = 6 := rfl
  by_cases hover : items.length + otherItems.length > 2 * TREE_BASE
  · refine ⟨_, some _, ?_, splitItems (m := (items.length + otherItems.length +
      (items.length + otherItems.length) % 2) / 2) (by omega) (by omega) (by omega) (by omega)⟩
    simp only [pushItems, SumTree.items, Option.bind_eq_bind, Option.bind_some, if_pos hover,
      childSummaries, ← List.map_append, ← List.map_take, ← List.map_drop]
    rw [arrayVec_eq_some, arrayVec_eq_some, arrayVec_eq_some, arrayVec_eq_some]
    · rfl
    all_goals simp only [List.length_map, List.length_take, List.length_drop, hcount]; omega
  · refine ⟨.leaf (measure items + measure otherItems) (items ++ otherItems)
      ((items ++ otherItems).map Item.summary), none, ?_, ?_⟩
    · simp only [pushItems, SumTree.items, Option.bind_eq_bind, Option.bind_some, if_neg hover,
        childSummaries, ← List.map_append]
      rw [arrayVec_eq_some, arrayVec_eq_some]
      · rfl
      all_goals simp only [List.length_map, hcount]; omega
    · refine ⟨?_, by simp⟩
      rw [Option.toList_none, Row.singleton_iff, toList_leaf]
      exact ⟨.ofItems _ (by omega) rfl (by simp), by simp [hne]⟩

/-- The children of a well-formed internal node form a row. -/
theorem WellFormed.internal_inv {h : ℕ} {tree : SumTree α σ} (wf : WellFormed (h + 1) tree) :
    ∃ trees, trees ≠ [] ∧ trees.length ≤ 2 * TREE_BASE ∧ Row h trees ∧
      tree = .internal (h + 1) (measure (toLists trees)) (trees.map summary) trees := by
  cases wf with
  | internal nonempty capacity children occupied =>
    exact ⟨_, nonempty, capacity, ⟨children, occupied⟩, rfl⟩

theorem WellFormed.leaf_inv {tree : SumTree α σ} (wf : WellFormed 0 tree) :
    ∃ items, items.length ≤ 2 * TREE_BASE ∧
      tree = .leaf (measure items) items (items.map Item.summary) := by
  cases wf with
  | leaf capacity => exact ⟨_, capacity, rfl⟩

/-- `push_tree_recursive` on an occupied tree and an occupied tree that is not
higher joins their contents. The induction is on the height: either `other` or
its children go next to the children of `tree`, or it goes into the last child. -/
theorem pushTreeRecursive_spec {h k : ℕ} {tree other : SumTree α σ} (hk : k ≤ h)
    (wf : WellFormed h tree) (hne : toList tree ≠ [])
    (wfOther : WellFormed k other) (hneOther : toList other ≠ []) :
    ∃ tree' right, pushTreeRecursive tree other = some (tree', right) ∧
      JoinsTo h (toList tree ++ toList other) (tree' :: right.toList) := by
  induction h generalizing tree with
  | zero =>
    obtain rfl : k = 0 := by omega
    obtain ⟨items, hlen, rfl⟩ := wf.leaf_inv
    obtain ⟨otherItems, hotherLen, rfl⟩ := wfOther.leaf_inv
    rw [pushTreeRecursive]
    simpa using pushItems_spec (by simpa using hne) hlen hotherLen
  | succ h ih =>
    obtain ⟨trees, hnonempty, hlen, hrow, rfl⟩ := wf.internal_inv
    have hheight := wfOther.height_eq
    have hsummary := wfOther.summary_eq
    rw [pushTreeRecursive, if_neg (by omega), toList_internal]
    by_cases hsame : h + 1 - other.height = 0
    · -- the two roots are at the same height: the children of `other` are appended
      obtain rfl : k = h + 1 := by omega
      obtain ⟨more, hmoreNe, hmoreLen, hmore, rfl⟩ := wfOther.internal_inv
      rw [if_pos hsame]
      simp only [SumTree.childTrees, SumTree.childSummaries, Option.bind_eq_bind,
        Option.bind_some]
      rw [arrayVec_eq_some (by simpa using hmoreLen), arrayVec_eq_some hmoreLen]
      simp only [Option.bind_some, toList_internal]
      exact pushChildren_spec _ _ hrow hmore hnonempty hlen hmoreLen (by simp [summary])
    · rw [if_neg hsame]
      by_cases hbelow : h + 1 - other.height = 1 ∧ other.isUnderflowing = false
      · -- `other` becomes a child itself
        obtain rfl : k = h := by omega
        rw [if_pos hbelow]
        have hmore : Row k [other] := Row.singleton_iff.mpr ⟨wfOther, hneOther⟩
        simpa using pushChildren_spec _ _ hrow hmore hnonempty hlen (by simp [TREE_BASE])
          (by simp [hsummary])
      · -- `other` is pushed into the last child
        rw [if_neg hbelow]
        obtain ⟨init, last, rfl⟩ : ∃ init last, trees = init ++ [last] :=
          ⟨_, _, (List.dropLast_append_getLast hnonempty).symm⟩
        obtain ⟨hinit, hlast⟩ := Row.append_iff.mp hrow
        obtain ⟨hlastWf, hlastNe⟩ := Row.singleton_iff.mp hlast
        obtain ⟨last', right, hpush, hjoinRow, hjoin⟩ := ih (by omega) hlastWf hlastNe
        obtain ⟨⟨hwf', hne'⟩, hright⟩ := Row.cons_iff.mp hjoinRow
        have hchildren : Row h (init ++ [last']) :=
          Row.append_iff.mpr ⟨hinit, Row.singleton_iff.mpr ⟨hwf', hne'⟩⟩
        rw [toLists_cons] at hjoin
        have hcontents : toLists (init ++ [last']) ++ toLists right.toList =
            toLists (init ++ [last]) ++ toList other := by
          simp only [toLists_append, toLists_cons, toLists_nil, List.append_nil,
            List.append_assoc, hjoin]
        split
        · rename_i hgetLast
          simp at hgetLast
        · rename_i l hgetLast
          obtain rfl : last = l := by simpa using hgetLast
          simp only [hpush, Option.bind_eq_bind, Option.bind_some]
          rw [if_neg (by simp)]
          have hspec := pushChildren_spec
            (measure (toLists (init ++ [last])) + other.summary) right.toList hchildren hright
            (by simp) (by simpa using hlen)
            (by cases right <;> simp [TREE_BASE]) (by rw [hcontents, measure_append, hsummary])
          rw [hcontents] at hspec
          simpa using hspec

/-- `merge_into_right` on two occupied nodes of one height joins their contents. -/
theorem mergeIntoRight_spec {h : ℕ} {small large : SumTree α σ}
    (wfSmall : WellFormed h small) (hneSmall : toList small ≠ [])
    (wfLarge : WellFormed h large) :
    ∃ large' left, mergeIntoRight small large = some (large', left) ∧
      JoinsTo h (toList small ++ toList large) (left.toList ++ [large']) := by
  have hbase : TREE_BASE = 6 := rfl
  cases h with
  | zero =>
    obtain ⟨smallItems, hsmallLen, rfl⟩ := wfSmall.leaf_inv
    obtain ⟨items, hlen, rfl⟩ := wfLarge.leaf_inv
    have hcount : (smallItems ++ items).length = smallItems.length + items.length :=
      List.length_append
    rw [toList_leaf] at hneSmall
    have hpos : 0 < smallItems.length := List.length_pos_of_ne_nil hneSmall
    simp only [toList_leaf, mergeIntoRight, ← List.map_append, ← List.map_take, ← List.map_drop]
    by_cases hfits : smallItems.length + items.length ≤ 2 * TREE_BASE
    · rw [if_pos hfits, arrayVec_eq_some (by omega),
        arrayVec_eq_some (by rw [List.length_map]; omega)]
      refine ⟨_, none, rfl, ?_, by simp⟩
      simp only [Option.toList_none, List.nil_append, Row.singleton_iff, toList_leaf]
      exact ⟨.ofItems _ (by omega) rfl (by simp), by simp [hneSmall]⟩
    · rw [if_neg hfits, arrayVec_eq_some, arrayVec_eq_some, arrayVec_eq_some, arrayVec_eq_some]
      · exact ⟨_, some _, rfl, splitItems (by omega) (by omega) (by omega) (by omega)⟩
      all_goals simp only [List.length_map, List.length_take, List.length_drop, hcount]; omega
  | succ h =>
    obtain ⟨smallTrees, hsmallNe, hsmallLen, hsmall, rfl⟩ := wfSmall.internal_inv
    obtain ⟨trees, hnonempty, hlen, hrow, rfl⟩ := wfLarge.internal_inv
    have hall : Row h (smallTrees ++ trees) := Row.append_iff.mpr ⟨hsmall, hrow⟩
    have hcount : (smallTrees ++ trees).length = smallTrees.length + trees.length :=
      List.length_append
    have hpos : 0 < smallTrees.length := List.length_pos_of_ne_nil hsmallNe
    simp only [toList_internal, mergeIntoRight, ← List.map_append, ← List.map_take,
      ← List.map_drop, ← toLists_append]
    by_cases hfits : trees.length + smallTrees.length ≤ 2 * TREE_BASE
    · rw [if_pos hfits, arrayVec_eq_some (by omega),
        arrayVec_eq_some (by rw [List.length_map]; omega)]
      refine ⟨_, none, rfl, ?_, by simp⟩
      have hne' : smallTrees ++ trees ≠ [] := by simp [hsmallNe]
      simp only [Option.toList_none, List.nil_append, Row.singleton_iff, toList_internal]
      exact ⟨hall.parent _ _ hne' (by omega) rfl (by simp), toLists_ne_nil hne' hall.occupied⟩
    · rw [if_neg hfits, arrayVec_eq_some, arrayVec_eq_some, arrayVec_eq_some, arrayVec_eq_some]
      · exact ⟨_, some _, rfl, hall.split (by omega) (by omega) (by omega) (by omega)⟩
      all_goals simp only [List.length_map, List.length_take, List.length_drop, hcount]; omega

/-- The end of `append_large` puts a tree in front of a row of children. -/
theorem pushFront_spec {h : ℕ} {total : σ} (tree : SumTree α σ) (trees : List (SumTree α σ))
    (hall : Row h (tree :: trees)) (hlen : trees.length ≤ 2 * TREE_BASE)
    (htotal : total = measure (toLists (tree :: trees))) :
    ∃ large left, pushFront (h + 1) total (trees.map summary) trees tree = some (large, left) ∧
      JoinsTo (h + 1) (toLists (tree :: trees)) (left.toList ++ [large]) := by
  have hbase : TREE_BASE = 6 := rfl
  by_cases hroom : trees.length < 2 * TREE_BASE
  · refine ⟨.internal (h + 1) total ((tree :: trees).map summary) (tree :: trees), none, ?_, ?_⟩
    · simp only [pushFront, if_pos hroom, ← List.map_cons]
      rw [arrayVec_eq_some (by simp only [List.length_map, List.length_cons]; omega),
        arrayVec_eq_some (by rw [List.length_cons]; omega)]
      rfl
    · refine ⟨?_, by simp⟩
      simp only [Option.toList_none, List.nil_append, Row.singleton_iff, toList_internal]
      exact ⟨hall.parent _ _ (by simp) (by rw [List.length_cons]; omega) rfl htotal,
        toLists_ne_nil (by simp) hall.occupied⟩
  · have htake : (trees.take TREE_BASE).length = TREE_BASE :=
      List.length_take_of_le (by omega)
    have hjoin := hall.split (m := TREE_BASE + 1) (by omega) (by rw [List.length_cons]; omega)
      (by omega) (by rw [List.length_cons]; omega)
    refine ⟨_, some _, ?_, hjoin⟩
    simp only [pushFront, if_neg hroom]
    rw [if_neg (by rw [List.length_map]; omega)]
    simp only [← List.map_take, ← List.map_drop, ← List.map_cons, List.take_succ_cons,
      List.drop_succ_cons]
    rw [arrayVec_eq_some (by simp only [List.length_map, List.length_cons, htake]; omega),
      arrayVec_eq_some (by simp only [List.length_cons, htake]; omega)]
    rfl

omit [Item α σ] in
/-- At equal heights `append_large` merges an underflowing tree and returns any
other as a left sibling. -/
theorem appendLarge_of_height_eq {small large : SumTree α σ} (h : small.height = large.height) :
    appendLarge small large =
      if small.isUnderflowing then mergeIntoRight small large else some (large, some small) := by
  cases large with
  | leaf summary items itemSummaries =>
    rw [SumTree.height] at h
    rw [appendLarge, if_pos h]
  | internal height summary childSummaries childTrees =>
    rw [SumTree.height] at h
    cases childTrees <;> cases childSummaries <;> simp [appendLarge, h]

omit [Item α σ] in
/-- Below the root of the large tree, `append_large` continues in the first child. -/
theorem appendLarge_internal {small first : SumTree α σ} {rest : List (SumTree α σ)} {height : ℕ}
    {total firstSummary : σ} {restSummaries : List σ} (h : small.height ≠ height) :
    appendLarge small (.internal height total (firstSummary :: restSummaries) (first :: rest)) =
      (appendLarge small first).bind fun (first, res) =>
        match res with
        | none => some (.internal height (small.summary + total)
            (first.summary :: restSummaries) (first :: rest), none)
        | some tree => pushFront height (small.summary + total)
            (first.summary :: restSummaries) (first :: rest) tree := by
  rw [appendLarge, if_neg h]
  rfl

/-- `append_large` on two occupied trees of one height joins their contents. -/
theorem appendLarge_spec_same {h : ℕ} {small large : SumTree α σ}
    (wfSmall : WellFormed h small) (hneSmall : toList small ≠ [])
    (wf : WellFormed h large) (hne : toList large ≠ []) :
    ∃ large' left, appendLarge small large = some (large', left) ∧
      JoinsTo h (toList small ++ toList large) (left.toList ++ [large']) := by
  rw [appendLarge_of_height_eq (by rw [wfSmall.height_eq, wf.height_eq])]
  by_cases hunder : small.isUnderflowing = true
  · rw [if_pos hunder]
    exact mergeIntoRight_spec wfSmall hneSmall wf
  · rw [if_neg hunder]
    refine ⟨_, some _, rfl, ?_, by simp⟩
    simpa [Row.cons_iff] using ⟨⟨wfSmall, hneSmall⟩, wf, hne⟩

/-- `append_large` on two occupied trees, the small one not higher, joins their
contents. The induction follows the first children of the large tree. -/
theorem appendLarge_spec {h k : ℕ} {small large : SumTree α σ} (hk : k ≤ h)
    (wfSmall : WellFormed k small) (hneSmall : toList small ≠ [])
    (wf : WellFormed h large) (hne : toList large ≠ []) :
    ∃ large' left, appendLarge small large = some (large', left) ∧
      JoinsTo h (toList small ++ toList large) (left.toList ++ [large']) := by
  induction h generalizing large with
  | zero =>
    obtain rfl : k = 0 := by omega
    exact appendLarge_spec_same wfSmall hneSmall wf hne
  | succ h ih =>
    by_cases hsame : k = h + 1
    · subst hsame
      exact appendLarge_spec_same wfSmall hneSmall wf hne
    obtain ⟨trees, hnonempty, hlen, hrow, rfl⟩ := wf.internal_inv
    obtain ⟨first, rest, rfl⟩ := List.exists_cons_of_ne_nil hnonempty
    obtain ⟨⟨hwfFirst, hneFirst⟩, hrest⟩ := Row.cons_iff.mp hrow
    obtain ⟨first', left, happend, hjoinRow, hjoin⟩ :=
      ih (by omega) hwfFirst hneFirst
    obtain ⟨hleft, hfirst'⟩ := Row.append_iff.mp hjoinRow
    have hnew : Row h (first' :: rest) := Row.cons_iff.mpr ⟨Row.singleton_iff.mp hfirst', hrest⟩
    rw [toLists_append, toLists_cons, toLists_nil, List.append_nil] at hjoin
    have hcontents : toLists left.toList ++ toLists (first' :: rest) =
        toList small ++ toLists (first :: rest) := by
      rw [toLists_cons, toLists_cons, ← List.append_assoc, hjoin, List.append_assoc]
    have htotal : small.summary + measure (toLists (first :: rest)) =
        measure (toLists left.toList ++ toLists (first' :: rest)) := by
      rw [hcontents, measure_append, wfSmall.summary_eq]
    rw [List.map_cons, appendLarge_internal (by rw [wfSmall.height_eq]; omega), happend,
      toList_internal]
    cases left with
    | none =>
      refine ⟨_, none, rfl, ?_, by simpa using hcontents⟩
      simp only [Option.toList_none, List.nil_append, Row.singleton_iff, toList_internal]
      exact ⟨hnew.parent _ _ (by simp) (by simpa using hlen) rfl (by simpa using htotal),
        toLists_ne_nil (by simp) hnew.occupied⟩
    | some tree =>
      have hspec := pushFront_spec tree (first' :: rest)
        (Row.cons_iff.mpr ⟨Row.singleton_iff.mp hleft, hnew⟩) (by simpa using hlen)
        (by simpa using htotal)
      rw [← hcontents]
      simpa using hspec

/-- Two siblings get a common parent. -/
theorem fromChildTrees_spec {h : ℕ} {left right : SumTree α σ} (hrow : Row h [left, right]) :
    WellFormed (h + 1) (fromChildTrees left right) := by
  have hparent := hrow.parent (h + 1) (sum [left.summary, right.summary])
    (by simp) (by simp [TREE_BASE]) rfl (by simpa using hrow.sum_summary)
  rw [fromChildTrees, (hrow.wellFormed left (by simp)).height_eq]
  simpa using hparent

/-- Appending two well-formed trees never panics, and gives a well-formed tree
with the concatenated contents. -/
theorem append_spec {h k : ℕ} {tree other : SumTree α σ} (wf : WellFormed h tree)
    (wfOther : WellFormed k other) :
    ∃ result l, append tree other = some result ∧ WellFormed l result ∧
      toList result = toList tree ++ toList other := by
  unfold append
  by_cases hempty : tree.isEmpty = true
  · rw [if_pos hempty]
    exact ⟨other, k, rfl, wfOther, by rw [wf.isEmpty_iff.mp hempty, List.nil_append]⟩
  have hne : toList tree ≠ [] := fun hnil => hempty (wf.isEmpty_iff.mpr hnil)
  rw [if_neg hempty]
  by_cases hother : toList other = []
  · have hleaf : other.isLeaf = true ∧ other.isEmpty = true := by
      have hotherEmpty := wfOther.isEmpty_iff.mpr hother
      cases wfOther with
      | leaf => exact ⟨rfl, hotherEmpty⟩
      | internal => simp [isEmpty] at hotherEmpty
    rw [if_neg (by simp [hleaf])]
    exact ⟨tree, h, rfl, wf, by rw [hother, List.append_nil]⟩
  have hotherEmpty : other.isEmpty = false := by
    rw [← Bool.not_eq_true, wfOther.isEmpty_iff]
    exact hother
  rw [if_pos (by simp [hotherEmpty]), wf.height_eq, wfOther.height_eq]
  by_cases hlt : h < k
  · rw [if_pos hlt]
    obtain ⟨large, left, happend, hrow, hcontents⟩ :=
      appendLarge_spec (by omega) wf hne wfOther hother
    rw [happend]
    cases left with
    | none => exact ⟨large, k, rfl, (Row.singleton_iff.mp hrow).1, by simpa using hcontents⟩
    | some left =>
      exact ⟨_, k + 1, rfl, fromChildTrees_spec hrow, by simpa [fromChildTrees] using hcontents⟩
  · rw [if_neg hlt]
    obtain ⟨tree', right, hpush, hrow, hcontents⟩ :=
      pushTreeRecursive_spec (by omega) wf hne wfOther hother
    rw [hpush]
    cases right with
    | none => exact ⟨tree', h, rfl, (Row.singleton_iff.mp hrow).1, by simpa using hcontents⟩
    | some right =>
      exact ⟨_, h + 1, rfl, fromChildTrees_spec hrow, by simpa [fromChildTrees] using hcontents⟩

/-- A run of one to `2 * TREE_BASE` items becomes a leaf. -/
theorem chunkLeaf_spec {items : List α} (hne : items ≠ []) (hlen : items.length ≤ 2 * TREE_BASE) :
    chunkLeaf items = some (.leaf (measure items) items (items.map Item.summary)) := by
  obtain ⟨first, rest, rfl⟩ := List.exists_cons_of_ne_nil hne
  have hsum : (rest.map Item.summary).foldl (fun acc value => acc + value) (Item.summary first) =
      measure (first :: rest) := by
    rw [measure, List.map_cons, ← sum_eq, sum, List.foldl_cons, zero_add]
  simp only [chunkLeaf, Option.bind_eq_bind]
  rw [arrayVec_eq_some hlen, Option.bind_some,
    arrayVec_eq_some (by rw [List.length_map]; exact hlen), Option.bind_some, List.map_cons]
  simp only [hsum]

/-- The leaves cut by `from_iter` form a row with all the items, and there are as many as it takes
to hold them. -/
theorem chunkLeaves_spec {fuel : ℕ} (items : List α) (hfuel : items.length ≤ fuel) :
    ∃ nodes : List (SumTree α σ), chunkLeaves fuel items = some nodes ∧ JoinsTo 0 items nodes ∧
      nodes.length = (items.length + (2 * TREE_BASE - 1)) / (2 * TREE_BASE) := by
  have hbase : TREE_BASE = 6 := rfl
  induction fuel generalizing items with
  | zero =>
    obtain rfl : items = [] := List.eq_nil_of_length_eq_zero (by omega)
    exact ⟨[], rfl, ⟨Row.nil, rfl⟩, by simp [TREE_BASE]⟩
  | succ fuel ih =>
    cases items with
    | nil => exact ⟨[], rfl, ⟨Row.nil, rfl⟩, by simp [TREE_BASE]⟩
    | cons item rest =>
      have hdrop : ((item :: rest).drop (2 * TREE_BASE)).length ≤ rest.length := by
        rw [List.length_drop, List.length_cons]
        omega
      obtain ⟨nodes, hnodes, ⟨hrow, hcontents⟩, hlen⟩ :=
        ih ((item :: rest).drop (2 * TREE_BASE)) (by rw [List.length_cons] at hfuel; omega)
      have htakeNe : (item :: rest).take (2 * TREE_BASE) ≠ [] := by simp [TREE_BASE]
      have htakeLen : ((item :: rest).take (2 * TREE_BASE)).length ≤ 2 * TREE_BASE :=
        List.length_take_le _ _
      refine ⟨.leaf (measure ((item :: rest).take (2 * TREE_BASE)))
        ((item :: rest).take (2 * TREE_BASE))
        (((item :: rest).take (2 * TREE_BASE)).map Item.summary) :: nodes, ?_, ⟨?_, ?_⟩, ?_⟩
      · rw [chunkLeaves, chunkLeaf_spec htakeNe htakeLen, hnodes]
        · rfl
        · exact List.cons_ne_nil _ _
      · exact Row.cons_iff.mpr ⟨⟨.leaf htakeLen, by simpa using htakeNe⟩, hrow⟩
      · rw [toLists_cons, toList_leaf, hcontents, List.take_append_drop]
      · rw [List.length_cons, hlen, List.length_drop, List.length_cons, hbase]
        omega

/-- The parent under construction in `from_iter`, given by its children so far. -/
def parentUnderConstruction (children : List (SumTree α σ)) :
    Option (σ × List σ × List (SumTree α σ)) :=
  if children = [] then none
  else some (measure (toLists children), children.map summary, children)

theorem parentUnderConstruction_getD (children : List (SumTree α σ)) :
    (parentUnderConstruction children).getD (0, [], []) =
      (measure (toLists children), children.map summary, children) := by
  unfold parentUnderConstruction
  split
  · rename_i hnil
    subst hnil
    rfl
  · rfl

/-- One level of `from_iter`: the parents form a row with the same contents, and
there are as many as it takes to hold all children. -/
theorem groupNodes_spec {h : ℕ} (children : List (SumTree α σ)) {nodes : List (SumTree α σ)}
    (hchildren : Row h children)
    (hnodes : Row h nodes) (hlen : children.length < 2 * TREE_BASE) :
    ∃ parents, groupNodes (h + 1) (parentUnderConstruction children) nodes = some parents ∧
      JoinsTo (h + 1) (toLists children ++ toLists nodes) parents ∧
      parents.length =
        (children.length + nodes.length + (2 * TREE_BASE - 1)) / (2 * TREE_BASE) := by
  have hbase : TREE_BASE = 6 := rfl
  induction nodes generalizing children with
  | nil =>
    by_cases hnil : children = []
    · subst hnil
      exact ⟨[], by simp [parentUnderConstruction, groupNodes], ⟨Row.nil, by simp⟩,
        by simp [TREE_BASE]⟩
    · have hpos : 0 < children.length := List.length_pos_of_ne_nil hnil
      refine ⟨[_], by rw [parentUnderConstruction, if_neg hnil, groupNodes], ⟨?_, by simp⟩, ?_⟩
      · exact Row.singleton_iff.mpr ⟨hchildren.parent _ _ hnil (by omega) rfl rfl,
          by simpa using toLists_ne_nil hnil hchildren.occupied⟩
      · rw [List.length_singleton, List.length_nil, hbase] at *
        omega
  | cons node nodes ih =>
    obtain ⟨hnode, hrest⟩ := Row.cons_iff.mp hnodes
    have hmore : Row h (children ++ [node]) :=
      Row.append_iff.mpr ⟨hchildren, Row.singleton_iff.mpr hnode⟩
    have hmoreLen : (children ++ [node]).length = children.length + 1 := by simp
    have hmoreNe : children ++ [node] ≠ [] := by simp
    have htotal : measure (toLists children) + node.summary =
        measure (toLists (children ++ [node])) := by
      simp [hnode.1.summary_eq]
    have hstep : groupNodes (h + 1) (parentUnderConstruction children) (node :: nodes) =
        if (children ++ [node]).length = 2 * TREE_BASE then
          (groupNodes (h + 1) none nodes).bind fun parents =>
            some (.internal (h + 1) (measure (toLists (children ++ [node])))
              ((children ++ [node]).map summary) (children ++ [node]) :: parents)
        else groupNodes (h + 1) (parentUnderConstruction (children ++ [node])) nodes := by
      rw [groupNodes, parentUnderConstruction_getD]
      simp only [htotal, ← List.map_singleton (f := summary), ← List.map_append,
        Option.bind_eq_bind]
      rw [arrayVec_eq_some (by rw [List.length_map]; omega), Option.bind_some,
        arrayVec_eq_some (by omega), Option.bind_some, parentUnderConstruction, if_neg hmoreNe]
    rw [hstep]
    by_cases hfull : (children ++ [node]).length = 2 * TREE_BASE
    · obtain ⟨parents, hparents, ⟨hrow, hcontents⟩, hcount⟩ :=
        ih [] Row.nil hrest (by simp [TREE_BASE])
      rw [if_pos hfull, show none = parentUnderConstruction ([] : List (SumTree α σ)) by
        simp [parentUnderConstruction], hparents]
      refine ⟨_, rfl, ⟨?_, ?_⟩, ?_⟩
      · exact Row.cons_iff.mpr ⟨⟨hmore.parent _ _ hmoreNe (by omega) rfl rfl,
          by simpa using toLists_ne_nil hmoreNe hmore.occupied⟩, hrow⟩
      · simpa using hcontents
      · simp only [List.length_cons, List.length_nil, hbase] at *
        omega
    · obtain ⟨parents, hparents, ⟨hrow, hcontents⟩, hcount⟩ := ih _ hmore hrest (by omega)
      rw [if_neg hfull]
      refine ⟨parents, hparents, ⟨hrow, by simpa using hcontents⟩, ?_⟩
      rw [hcount, hmoreLen, List.length_cons]
      congr 1
      omega

/-- The levels of `from_iter` end in at most one node, after the least number of levels that can
gather the nodes below one. -/
theorem buildLevels_spec (fuel : ℕ) {h : ℕ} {nodes : List (SumTree α σ)} (hrow : Row h nodes)
    (hfuel : nodes.length < fuel) :
    ∃ top l, buildLevels fuel h nodes = some top ∧ top.length ≤ 1 ∧
      JoinsTo (h + l) (toLists nodes) top ∧
      ∀ m, nodes.length ≤ (2 * TREE_BASE) ^ m ↔ l ≤ m := by
  have hbase : TREE_BASE = 6 := rfl
  induction fuel generalizing h nodes with
  | zero => omega
  | succ fuel ih =>
    by_cases hmany : nodes.length > 1
    · obtain ⟨parents, hparents, ⟨hparentsRow, hcontents⟩, hcount⟩ :=
        groupNodes_spec [] Row.nil hrow (by simp [TREE_BASE])
      rw [parentUnderConstruction, if_pos rfl] at hparents
      rw [List.length_nil, Nat.zero_add] at hcount
      have hfewer : parents.length < nodes.length := by
        rw [hcount, hbase]
        omega
      obtain ⟨top, l, htop, hlen, hjoin, hleast⟩ := ih hparentsRow (by omega)
      refine ⟨top, l + 1, ?_, hlen, ?_, fun m => ?_⟩
      · rw [buildLevels, if_pos hmany, hparents]
        exact htop
      · rw [Nat.add_right_comm, Nat.add_assoc] at hjoin
        simpa only [hcontents, toLists_nil, List.nil_append] using hjoin
      · cases m with
        | zero => simpa using hmany
        | succ m =>
          rw [Nat.succ_le_succ_iff, ← hleast m, hcount, pow_succ, hbase]
          omega
    · rw [buildLevels, if_neg hmany]
      refine ⟨nodes, 0, rfl, by omega, ⟨hrow, rfl⟩, fun m => ?_⟩
      have hpos : 0 < (2 * TREE_BASE) ^ m := Nat.pow_pos (by decide)
      omega

theorem new_spec : WellFormed 0 (new : SumTree α σ) := .ofItems _ (by simp) rfl rfl

/-- `from_iter` never panics and builds a well-formed tree of the given items, as low as a tree of
so many items can be. -/
theorem fromIter_levels (iter : List α) :
    ∃ (tree : SumTree α σ) (h : ℕ), fromIter iter = some tree ∧ WellFormed h tree ∧
      toList tree = iter ∧ ∀ m, iter.length ≤ (2 * TREE_BASE) ^ (m + 1) ↔ h ≤ m := by
  have hbase : TREE_BASE = 6 := rfl
  obtain ⟨nodes, hnodes, ⟨hrow, hcontents⟩, hlen⟩ :=
    chunkLeaves_spec (σ := σ) iter (Nat.le_refl _)
  obtain ⟨top, l, htop, htopLen, ⟨htopRow, htopContents⟩, hleast⟩ :=
    buildLevels_spec (iter.length + 1) hrow (by rw [hlen, hbase]; omega)
  rw [hcontents] at htopContents
  rw [Nat.zero_add] at htopRow
  have hheight : ∀ m, iter.length ≤ (2 * TREE_BASE) ^ (m + 1) ↔ l ≤ m := by
    intro m
    rw [← hleast m, hlen, pow_succ, hbase]
    omega
  simp only [fromIter, hnodes, htop, Option.bind_eq_bind, Option.bind_some]
  cases top with
  | nil =>
    have hnil : iter = [] := by simpa using htopContents.symm
    refine ⟨new, 0, rfl, new_spec, by rw [hnil]; rfl, fun m => ?_⟩
    simp [hnil]
  | cons node rest =>
    obtain rfl : rest = [] := List.eq_nil_of_length_eq_zero (by simpa using htopLen)
    exact ⟨node, l, rfl, (Row.singleton_iff.mp htopRow).1, by simpa using htopContents, hheight⟩

theorem fromIter_spec (iter : List α) :
    ∃ (tree : SumTree α σ) (h : ℕ), fromIter iter = some tree ∧ WellFormed h tree ∧
      toList tree = iter := by
  obtain ⟨tree, h, htree, wf, hcontents, -⟩ := fromIter_levels (σ := σ) iter
  exact ⟨tree, h, htree, wf, hcontents⟩

/-- More items than a tree of sixteen levels can hold are in a higher one. -/
theorem fromIter_deep {iter : List α} (hlength : (2 * TREE_BASE) ^ 16 < iter.length) :
    ∃ (tree : SumTree α σ) (h : ℕ), fromIter iter = some tree ∧ WellFormed h tree ∧
      toList tree = iter ∧ 15 < h := by
  obtain ⟨tree, h, htree, wf, hcontents, hlevels⟩ := fromIter_levels (σ := σ) iter
  have hdeep : ¬h ≤ 15 := fun hle => Nat.not_lt.mpr ((hlevels 15).mpr hle) hlength
  exact ⟨tree, h, htree, wf, hcontents, Nat.lt_of_not_le hdeep⟩

/-- `push` adds one item at the end. -/
theorem push_spec {h : ℕ} {tree : SumTree α σ} (wf : WellFormed h tree) (item : α) :
    ∃ result l, push tree item = some result ∧ WellFormed l result ∧
      toList result = toList tree ++ [item] :=
  append_spec wf (WellFormed.ofItems [item] (by simp [TREE_BASE]) rfl (by simp [measure]))

/-- `extend` adds a list of items at the end. -/
theorem extend_spec {h : ℕ} {tree : SumTree α σ} (wf : WellFormed h tree) (iter : List α) :
    ∃ result l, extend tree iter = some result ∧ WellFormed l result ∧
      toList result = toList tree ++ iter := by
  obtain ⟨other, k, hother, wfOther, hcontents⟩ := fromIter_spec (σ := σ) iter
  rw [extend, hother, ← hcontents]
  exact append_spec wf wfOther

/-- Trees that some sequence of the public operations produces. -/
inductive Produced : SumTree α σ → Prop
  | new : Produced new
  | fromIter {iter : List α} {tree : SumTree α σ} (h : fromIter iter = some tree) : Produced tree
  | push {tree result : SumTree α σ} {item : α} (htree : Produced tree)
      (h : push tree item = some result) : Produced result
  | extend {tree result : SumTree α σ} {iter : List α} (htree : Produced tree)
      (h : extend tree iter = some result) : Produced result
  | append {tree other result : SumTree α σ} (htree : Produced tree) (hother : Produced other)
      (h : append tree other = some result) : Produced result

/-- Every produced tree is well formed. The induction is on its history. -/
theorem Produced.wellFormed {tree : SumTree α σ} (h : Produced tree) :
    ∃ height, WellFormed height tree := by
  induction h with
  | new => exact ⟨0, new_spec⟩
  | @fromIter iter tree h =>
    obtain ⟨tree', l, htree, wf, -⟩ := fromIter_spec (σ := σ) iter
    obtain rfl : tree' = tree := Option.some.inj (htree.symm.trans h)
    exact ⟨l, wf⟩
  | @push tree result item _ h ih =>
    obtain ⟨k, wf⟩ := ih
    obtain ⟨result', l, hresult, wf', -⟩ := push_spec wf item
    obtain rfl : result' = result := Option.some.inj (hresult.symm.trans h)
    exact ⟨l, wf'⟩
  | @extend tree result iter _ h ih =>
    obtain ⟨k, wf⟩ := ih
    obtain ⟨result', l, hresult, wf', -⟩ := extend_spec wf iter
    obtain rfl : result' = result := Option.some.inj (hresult.symm.trans h)
    exact ⟨l, wf'⟩
  | @append tree other result _ _ h ih ihOther =>
    obtain ⟨k, wf⟩ := ih
    obtain ⟨k', wfOther⟩ := ihOther
    obtain ⟨result', l, hresult, wf', -⟩ := append_spec wf wfOther
    obtain rfl : result' = result := Option.some.inj (hresult.symm.trans h)
    exact ⟨l, wf'⟩

/-- Numbers that are summarised by how many there are, like `Count` in the
source's tests. -/
instance countItem : Item ℕ ℕ := ⟨fun _ => 1⟩

end Lucie.SumTree
