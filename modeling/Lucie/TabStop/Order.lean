import Lucie.SumTree.KeyedItem
import Lucie.TabStop.TabStopMap

/-!
# The order of the nodes

The nodes of a map are the items of its tree, in the order of their keys. A new node is put
between those that precede it and the others, and the tab stop next to a node is the nearest one
behind or before it in that order.
-/

set_option autoImplicit false

namespace Lucie.TabStop

open Foundation

/-- A node comes before another one. -/
def TabStopNode.Precedes (node other : TabStopNode) : Prop := node.key < other.key

instance : DecidableRel TabStopNode.Precedes := fun node other =>
  inferInstanceAs (Decidable (node.key < other.key))

instance : IsStrictOrder TabStopNode TabStopNode.Precedes where
  irrefl node := lt_irrefl node.key
  trans _ _ _ h h' := lt_trans h h'

theorem TabStopNode.cmp_eq_gt {node other : TabStopNode} :
    (SeekTarget.ofOrd node).cmp other = .gt ↔ other.Precedes node :=
  @compare_gt_iff_gt (List ℤ ×ₗ ℕ) _ node.key other.key

theorem TabStopNode.cmp_eq_lt {node other : TabStopNode} :
    (SeekTarget.ofOrd node).cmp other = .lt ↔ node.Precedes other :=
  @compare_lt_iff_lt (List ℤ ×ₗ ℕ) _ node.key other.key

/-- No node is before the location of a new cursor. -/
theorem TabStopNode.not_precedes_zero (node : TabStopNode) :
    ¬node.Precedes (Dimension.zero : TabStopNode) := by
  intro h
  obtain h | ⟨-, h⟩ := Prod.Lex.lt_iff.mp h
  · exact absurd h (List.not_lt_nil _)
  · exact absurd h (Nat.not_lt_zero _)

/-- The location behind some nodes is the last of them. -/
theorem key_extent_concat (nodes : List TabStopNode) (node : TabStopNode) :
    (Dimension.extent TabStopNode (nodes ++ [node])).key = node.key := by
  rw [Dimension.extent_concat]
  rfl

theorem tabStop_extent (nodes : List TabStopNode) :
    (Dimension.extent TabStopNode nodes).tabStop = false := by
  induction nodes using List.reverseRecOn with
  | nil => rfl
  | append_singleton nodes node ih =>
    rw [Dimension.extent_concat]
    exact ih

theorem last_measure_concat (nodes : List TabStopNode) (node : TabStopNode) :
    (SumTree.measure (nodes ++ [node])).last = some (node.path, node.nodeInsertionIndex) := by
  rw [SumTree.measure_append, TabStopOrderNodeSummary.last_add]
  rfl

/-- The summary of some nodes moves the location as far as they do one by one. -/
theorem lawful_order (nodes : List TabStopNode) : Dimension.Lawful TabStopNode nodes := by
  refine ⟨fun before run _ hrun => ?_⟩
  obtain ⟨run, node, rfl⟩ := List.eq_nil_or_concat run |>.resolve_left hrun
  rw [List.concat_eq_append, ← List.append_assoc, Dimension.extent_concat]
  have htabStop := tabStop_extent before
  have htabStop' := tabStop_extent (before ++ run)
  simp only [Dimension.addSummary, last_measure_concat, Option.getD_some, htabStop, htabStop']
  rfl

instance : Std.TransOrd TabStopNode :=
  inferInstanceAs (@Std.TransCmp TabStopNode (@compareOn _ _ LinearOrder.toOrd TabStopNode.key))

/-- Nodes are their own keys, and in the order of these a node comes before those it precedes. -/
theorem keyBefore_id_iff {node other : TabStopNode} :
    KeyBefore id node other ↔ node.Precedes other :=
  TabStopNode.cmp_eq_lt

theorem keyDimension_order (nodes : List TabStopNode) : KeyDimension id nodes where
  lawful := lawful_order nodes
  extent before last _ :=
    (@compare_eq_iff_eq (List ℤ ×ₗ ℕ) _ _ _).mpr (key_extent_concat before last)
  zero node _ := by
    rw [Ordering.isLE_iff_ne_gt]
    exact fun hgt => node.not_precedes_zero (TabStopNode.cmp_eq_gt.mp hgt)

variable {nodes : List TabStopNode}

theorem pairwise_keyBefore (h : nodes.Pairwise TabStopNode.Precedes) :
    nodes.Pairwise (KeyBefore id) :=
  h.imp keyBefore_id_iff.mpr

/-- A new node is put between those that precede it and the others. -/
theorem insertOrReplace_order {tree : Order} {h : ℕ} (wf : SumTree.WellFormed h tree)
    (hh : h ≤ 15) (horder : tree.toList.Pairwise TabStopNode.Precedes) {node : TabStopNode}
    (hnew : ∀ item ∈ tree.toList, item.key ≠ node.key) :
    ∃ result replaced k, SumTree.insertOrReplace id tree node = some (result, replaced) ∧
      SumTree.WellFormed k result ∧
      result.toList = tree.toList.filter (fun item => item.Precedes node) ++ node ::
        tree.toList.filter fun item => ¬item.Precedes node := by
  have hother : ∀ item ∈ tree.toList, ¬compare item node = .eq := fun item hitem heq =>
    hnew item hitem ((@compare_eq_iff_eq (List ℤ ×ₗ ℕ) _ _ _).mp heq)
  obtain ⟨result, replaced, k, hresult, wf', -, hitems, -⟩ :=
    SumTree.insertOrReplace_sorted wf hh (keyDimension_order _) (pairwise_keyBefore horder)
      ((keyDimension_order [node]).zero node List.mem_cons_self)
      fun item hitem => ⟨fun heq => absurd heq (hother item hitem),
        fun heq => absurd (congrArg TabStopNode.key heq) (hnew item hitem)⟩
  refine ⟨result, replaced, k, hresult, wf', hitems.trans ?_⟩
  congr 2
  · exact funext fun item => decide_eq_decide.mpr keyBefore_id_iff
  · refine List.filter_congr fun item hitem => decide_eq_decide.mpr ?_
    rw [keyBefore_id_iff, TabStopNode.Precedes, TabStopNode.Precedes, not_lt]
    exact ⟨le_of_lt, fun hle => lt_of_le_of_ne hle (hnew item hitem).symm⟩

/-- The node of a handle that is inserted next. -/
def TabStopMap.nextNode (m : TabStopMap) (handle : FocusHandle) : TabStopNode :=
  ⟨m.currentPath ++ [handle.tabIndex], m.insertionHistory.length, handle.tabStop⟩

/-- `insert` adds one node. -/
theorem insert_eq {m : TabStopMap} {h : ℕ} (wf : SumTree.WellFormed h m.order) (hh : h ≤ 15)
    (horder : m.order.toList.Pairwise TabStopNode.Precedes) {handle : FocusHandle}
    (hnew : ∀ item ∈ m.order.toList, item.key ≠ (m.nextNode handle).key) :
    ∃ (tree : Order) (k : ℕ), m.insert handle =
        some ⟨m.currentPath, m.insertionHistory ++ [TabStopOperation.insert handle],
          Function.update m.byId handle.id (some (m.nextNode handle)), tree⟩ ∧
      SumTree.WellFormed k tree ∧
      tree.toList = m.order.toList.filter (fun item => item.Precedes (m.nextNode handle)) ++
        m.nextNode handle ::
          m.order.toList.filter fun item => ¬item.Precedes (m.nextNode handle) := by
  obtain ⟨tree, replaced, k, hinsert, wf', hitems⟩ := insertOrReplace_order wf hh horder hnew
  have hlast : (m.insertionHistory ++ [TabStopOperation.insert handle]).length - 1 =
      m.insertionHistory.length := by
    rw [List.length_append, List.length_singleton, Nat.add_sub_cancel]
  refine ⟨tree, k, ?_, wf', hitems⟩
  rw [TabStopMap.nextNode] at hinsert
  simp only [TabStopMap.insert, hlast, hinsert, Option.bind_eq_bind, Option.bind_some]
  rfl

/-- The loops of `next_inner` and `prev_inner` end at a tab stop or at an end of the list. -/
theorem loop_skip_done {step : OrderCursor → Option OrderCursor} {cursor : OrderCursor}
    {found : Option TabStopNode} (hitem : cursor.item = some found)
    (hstop : ∀ item, found = some item → item.tabStop = true) (fuel : ℕ) :
    loop (skipRound step) (fuel + 1) cursor = some cursor := by
  rw [loop, skipRound, hitem, Option.bind_eq_bind, Option.bind_some]
  cases found with
  | none => rfl
  | some item => simp only [hstop item rfl, if_true]

/-- They step over a node that is no tab stop. -/
theorem loop_skip_step {step : OrderCursor → Option OrderCursor} {cursor cursor' : OrderCursor}
    {item : TabStopNode} (hitem : cursor.item = some (some item)) (hstop : item.tabStop ≠ true)
    (hstep : step cursor = some cursor') (fuel : ℕ) :
    loop (skipRound step) (fuel + 1) cursor = loop (skipRound step) fuel cursor' := by
  simp only [loop, skipRound, hitem, Option.bind_eq_bind, Option.bind_some, if_neg hstop, hstep]

section Steps

variable {tree : Order} {h : ℕ} (wf : SumTree.WellFormed h tree) (hh : h ≤ 15)

include wf hh

/-- Stepping to the right ends at the next tab stop. The induction is on the rounds. -/
theorem skip_next {index fuel : ℕ} (hfuel : tree.toList.length < index + fuel)
    {cursor : OrderCursor} (hrep : cursor.Represents tree h (.at index)) :
    ∃ cursor', loop (skipRound Cursor.next) fuel cursor = some cursor' ∧
      cursor'.item = some ((tree.toList.drop index).find? (·.tabStop)) := by
  induction fuel generalizing index cursor with
  | zero => exact absurd hrep.2.2.1 (by omega)
  | succ fuel ih =>
    have hitem := hrep.item_eq wf
    rw [Place.item] at hitem
    cases hget : tree.toList[index]? with
    | none =>
      rw [hget] at hitem
      refine ⟨cursor, loop_skip_done hitem (by simp) fuel, ?_⟩
      rw [hitem, List.drop_of_length_le (List.getElem?_eq_none_iff.mp hget), List.find?_nil]
    | some item =>
      obtain ⟨hlt, rfl⟩ := List.getElem?_eq_some_iff.mp hget
      rw [hget] at hitem
      rw [List.drop_eq_getElem_cons hlt]
      by_cases hstop : tree.toList[index].tabStop = true
      · refine ⟨cursor, loop_skip_done hitem (by simpa using hstop) fuel, ?_⟩
        rw [hitem, List.find?_cons_of_pos hstop]
      · obtain ⟨cursor', hnext, hrep'⟩ := Cursor.next_spec wf hh (lawful_order _) hrep
        rw [Place.next, if_neg hlt.ne] at hrep'
        obtain ⟨cursor'', hloop, hfound⟩ := ih (by omega) hrep'
        refine ⟨cursor'', (loop_skip_step hitem hstop hnext fuel).trans hloop, ?_⟩
        rw [hfound, List.find?_cons_of_neg hstop]

/-- Stepping to the left ends at the tab stop before. -/
theorem skip_prev {count fuel : ℕ} (hcount : count ≤ tree.toList.length) (hfuel : count < fuel)
    {cursor : OrderCursor}
    (hrep : cursor.Represents tree h (Place.prev tree.toList (.at count))) :
    ∃ cursor', loop (skipRound Cursor.prev) fuel cursor = some cursor' ∧
      cursor'.item = some ((tree.toList.take count).reverse.find? (·.tabStop)) := by
  induction fuel generalizing count cursor with
  | zero => exact absurd hfuel (Nat.not_lt_zero _)
  | succ fuel ih =>
    have hitem := hrep.item_eq wf
    cases count with
    | zero => exact ⟨cursor, loop_skip_done hitem (by simp) fuel, hitem⟩
    | succ index =>
      change cursor.item = some tree.toList[index]? at hitem
      rw [List.getElem?_eq_getElem hcount] at hitem
      rw [List.take_add_one, List.getElem?_eq_getElem hcount, Option.toList_some,
        List.reverse_concat]
      by_cases hstop : tree.toList[index].tabStop = true
      · refine ⟨cursor, loop_skip_done hitem (by simpa using hstop) fuel, ?_⟩
        rw [hitem, List.find?_cons_of_pos hstop]
      · obtain ⟨cursor', hprev, hrep'⟩ := Cursor.prev_spec wf hh (lawful_order _) hrep
        obtain ⟨cursor'', hloop, hfound⟩ := ih (by omega) (by omega) hrep'
        refine ⟨cursor'', (loop_skip_step hitem hstop hprev fuel).trans hloop, ?_⟩
        rw [hfound, List.find?_cons_of_neg hstop]

end Steps

section Neighbours

variable {m : TabStopMap} {h : ℕ} (wf : SumTree.WellFormed h m.order) (hh : h ≤ 15)
  (horder : m.order.toList.Pairwise TabStopNode.Precedes)

include wf hh horder

/-- Both ways start with a seek that ends at the first node that does not precede the given one. -/
theorem seek_order (node : TabStopNode) :
    ∃ (cursor : OrderCursor) (result : Bool),
      (Cursor.new m.order).seek (.ofOrd node) .left = some (cursor, result) ∧
      cursor.Represents m.order h
        (.at (m.order.toList.findIdx fun item => !decide (item.Precedes node))) := by
  have hkey := keyDimension_order m.order.toList
  obtain ⟨cursor, result, hseek, hrep⟩ := Cursor.seek_new_spec .left wf hh hkey.lawful
    (hkey.monotoneOn (pairwise_keyBefore horder) node)
    fun hlt => node.not_precedes_zero (TabStopNode.cmp_eq_lt.mp hlt)
  refine ⟨cursor, result, hseek, ?_⟩
  simpa only [← keyBefore_id_iff] using hkey.leading_eq node ▸ hrep

/-- The nearest tab stop behind a node of the map. -/
theorem nextInner_eq {node : TabStopNode} (hnode : node ∈ m.order.toList) :
    m.nextInner node =
      some (((m.order.toList.filter (·.tabStop)).filter fun item => node.Precedes item).head?) := by
  obtain ⟨cursor, result, hseek, hrep⟩ := seek_order wf hh horder node
  obtain ⟨cursor', hnext, hrep'⟩ := Cursor.next_spec wf hh (lawful_order _) hrep
  have hlt : (m.order.toList.findIdx fun item => !decide (item.Precedes node)) <
      m.order.toList.length := by
    rw [List.findIdx_lt_length]
    exact ⟨node, hnode, by simpa using irrefl node⟩
  rw [Place.next, if_neg hlt.ne] at hrep'
  have hfuel : m.order.toList.length < (m.order.toList.findIdx fun item =>
      !decide (item.Precedes node)) + 1 + (m.order.toList.length + 1) := by omega
  obtain ⟨cursor'', hloop, hitem⟩ := skip_next wf hh hfuel hrep'
  rw [TabStopMap.nextInner]
  simp only [hseek, hnext, hloop, hitem, Option.bind_eq_bind, Option.bind_some]
  rw [← List.drop_drop, ← List.dropWhile_eq_drop_findIdx_not, drop_dropWhile_eq_filter horder hnode,
    ← List.head?_filter, List.filter_filter, List.filter_filter]
  simp only [Bool.and_comm]

/-- The nearest tab stop before a node. -/
theorem prevInner_eq (node : TabStopNode) :
    m.prevInner node =
      some (((m.order.toList.filter (·.tabStop)).filter fun item =>
        item.Precedes node).getLast?) := by
  obtain ⟨cursor, result, hseek, hrep⟩ := seek_order wf hh horder node
  obtain ⟨cursor', hprev, hrep'⟩ := Cursor.prev_spec wf hh (lawful_order _) hrep
  obtain ⟨cursor'', hloop, hitem⟩ := skip_prev wf hh List.findIdx_le_length
    (Nat.lt_succ_of_le List.findIdx_le_length) hrep'
  rw [TabStopMap.prevInner]
  simp only [hseek, hprev, hloop, hitem, Option.bind_eq_bind, Option.bind_some]
  rw [← List.takeWhile_eq_take_findIdx_not, takeWhile_eq_filter horder node, ← List.head?_filter,
    List.filter_reverse, List.head?_reverse, List.filter_filter, List.filter_filter]
  simp only [Bool.and_comm]

end Neighbours

/-- In a tree of more than sixteen levels no tab stop is found behind a node. -/
theorem nextInner_deep {m : TabStopMap} {h : ℕ} (wf : SumTree.WellFormed h m.order) (hh : 15 < h)
    {node : TabStopNode} {found : Option TabStopNode} (hfound : m.nextInner node = some found) :
    found = none := by
  rw [TabStopMap.nextInner] at hfound
  obtain ⟨⟨cursor, result⟩, hseek, hfound⟩ := Option.bind_eq_some_iff.mp hfound
  obtain ⟨hnext, hitem⟩ := Cursor.seek_new_deep wf hh hseek
  simp only [hnext, loop_skip_done hitem (by simp), hitem, Option.bind_eq_bind, Option.bind_some,
    Option.some.injEq] at hfound
  exact hfound.symm

end Lucie.TabStop
