import Lucie.TabStop.Order
import Mathlib.Data.List.Sort

/-!
# The cycle of the tab stops

A history of insertions within groups lists the inserted handles with their keys. The tab stops
among them, in the order of the keys, form a cycle, and `next` and `prev` go around it.
-/

set_option autoImplicit false

namespace Lucie.TabStop

open Foundation

/-- An inserted handle, with the tab indices of the groups around it and its own, and the
position of its insertion. -/
abbrev Entry := (List ℤ ×ₗ ℕ) × FocusHandle

/-- The handles that operations insert, where some groups are open and some operations have
been made before. -/
def inserted : List ℤ → ℕ → List TabStopOperation → List Entry
  | _, _, [] => []
  | path, index, .insert handle :: operations =>
    (toLex (path ++ [handle.tabIndex], index), handle) :: inserted path (index + 1) operations
  | path, index, .group tabIndex :: operations =>
    inserted (path ++ [tabIndex]) (index + 1) operations
  | path, index, .groupEnd :: operations => inserted path.dropLast (index + 1) operations

/-- The inserted handles of a history in their order. -/
def sorted (operations : List TabStopOperation) : List Entry :=
  (inserted [] 0 operations).mergeSort fun e e' => e.1 ≤ e'.1

/-- The tab stops of a history in their order. -/
def stops (operations : List TabStopOperation) : List Entry :=
  (sorted operations).filter (·.2.tabStop)

/-- An entry comes before another one. -/
def Before (e e' : Entry) : Prop := e.1 < e'.1

instance : DecidableRel Before := fun e e' => inferInstanceAs (Decidable (e.1 < e'.1))

instance : IsStrictOrder Entry Before where
  irrefl e := lt_irrefl e.1
  trans _ _ _ h h' := lt_trans h h'

/-- The node of an entry. -/
def Entry.node (e : Entry) : TabStopNode := ⟨(ofLex e.1).1, (ofLex e.1).2, e.2.tabStop⟩

@[simp] theorem Entry.key_node (e : Entry) : e.node.key = e.1 := rfl

@[simp] theorem Entry.precedes_node (e e' : Entry) : e.node.Precedes e'.node ↔ Before e e' :=
  Iff.rfl

theorem le_index {path : List ℤ} {index : ℕ} {operations : List TabStopOperation} :
    ∀ e ∈ inserted path index operations, index ≤ (ofLex e.1).2 := by
  induction operations generalizing path index with
  | nil => simp [inserted]
  | cons operation operations ih =>
    intro e he
    cases operation with
    | insert handle =>
      obtain rfl | he := List.mem_cons.mp he
      · exact le_refl index
      · exact (Nat.le_succ index).trans (ih e he)
    | group tabIndex => exact (Nat.le_succ index).trans (ih e he)
    | groupEnd => exact (Nat.le_succ index).trans (ih e he)

/-- Each entry has a position of its own. -/
theorem nodup_keys {path : List ℤ} {index : ℕ} {operations : List TabStopOperation} :
    ((inserted path index operations).map Prod.fst).Nodup := by
  induction operations generalizing path index with
  | nil => exact List.nodup_nil
  | cons operation operations ih =>
    cases operation with
    | insert handle =>
      refine List.nodup_cons.mpr ⟨?_, ih⟩
      intro hmem
      obtain ⟨e, he, hkey⟩ := List.mem_map.mp hmem
      have hle := le_index e he
      rw [hkey] at hle
      exact absurd hle (Nat.not_succ_le_self index)
    | group tabIndex => exact ih
    | groupEnd => exact ih

theorem mem_sorted {operations : List TabStopOperation} {e : Entry} :
    e ∈ sorted operations ↔ e ∈ inserted [] 0 operations := List.mem_mergeSort

theorem pairwise_sorted (operations : List TabStopOperation) :
    (sorted operations).Pairwise Before := by
  have htrans : ∀ a b c : Entry, decide (a.1 ≤ b.1) = true → decide (b.1 ≤ c.1) = true →
      decide (a.1 ≤ c.1) = true := by
    intro a b c hab hbc
    rw [decide_eq_true_eq] at hab hbc ⊢
    exact hab.trans hbc
  have htotal : ∀ a b : Entry, (decide (a.1 ≤ b.1) || decide (b.1 ≤ a.1)) = true := by
    intro a b
    rw [Bool.or_eq_true, decide_eq_true_eq, decide_eq_true_eq]
    exact le_total a.1 b.1
  have hle : (sorted operations).Pairwise fun e e' => e.1 ≤ e'.1 :=
    (List.pairwise_mergeSort htrans htotal _).imp fun h => of_decide_eq_true h
  have hne : (sorted operations).Pairwise fun e e' => e.1 ≠ e'.1 := by
    have hperm : (sorted operations).Perm (inserted [] 0 operations) := List.mergeSort_perm _ _
    exact List.pairwise_map.mp ((hperm.map Prod.fst).nodup_iff.mpr nodup_keys)
  exact hle.imp₂ (fun _ _ hle hne => lt_of_le_of_ne hle hne) hne

/-- The nodes of the map are those of the entries, in their order. -/
structure Keeps (entries : List Entry) (m : TabStopMap) : Prop where
  tree : ∃ h, SumTree.WellFormed h m.order
  order : m.order.toList.Pairwise TabStopNode.Precedes
  mem : ∀ node, node ∈ m.order.toList ↔ ∃ e ∈ entries, e.node = node
  found : ∀ e ∈ entries, m.byId e.2.id = some e.node
  unknown : ∀ id, (∀ e ∈ entries, e.2.id ≠ id) → m.byId id = none
  history : ∀ e ∈ entries, m.insertionHistory[(ofLex e.1).2]? = some (.insert e.2)

theorem keeps_new : Keeps [] .new :=
  ⟨⟨0, SumTree.new_spec⟩, List.Pairwise.nil, by simp [TabStopMap.new, SumTree.new], by simp,
    fun _ _ => rfl, by simp⟩

/-- Operations that insert nothing leave the nodes as they are. -/
theorem Keeps.of_history {entries : List Entry} {m m' : TabStopMap} (h : Keeps entries m)
    (horder : m'.order = m.order) (hids : m'.byId = m.byId) {operation : TabStopOperation}
    (hhistory : m'.insertionHistory = m.insertionHistory ++ [operation]) : Keeps entries m' := by
  refine ⟨horder ▸ h.tree, horder ▸ h.order, horder ▸ h.mem, hids ▸ h.found, hids ▸ h.unknown, ?_⟩
  intro e he
  rw [hhistory, List.getElem?_append_left (List.getElem?_eq_some_iff.mp (h.history e he)).1]
  exact h.history e he

/-- An insertion adds an entry. -/
theorem Keeps.insert {entries : List Entry} {m : TabStopMap} (h : Keeps entries m)
    (hheight : m.order.height ≤ 15) {handle : FocusHandle}
    (hid : ∀ e ∈ entries, e.2.id ≠ handle.id) :
    ∃ m', m.insert handle = some m' ∧ m'.currentPath = m.currentPath ∧
      m'.insertionHistory = m.insertionHistory ++ [.insert handle] ∧
      Keeps (entries ++ [(toLex (m.currentPath ++ [handle.tabIndex], m.insertionHistory.length),
        handle)]) m' := by
  have hindex : ∀ e ∈ entries, (ofLex e.1).2 < m.insertionHistory.length := fun e he =>
    (List.getElem?_eq_some_iff.mp (h.history e he)).1
  have hnew : ∀ item ∈ m.order.toList, item.key ≠ toLex
      (m.currentPath ++ [handle.tabIndex], m.insertionHistory.length) := by
    intro item hitem hkey
    obtain ⟨e, he, rfl⟩ := (h.mem item).mp hitem
    have hlt := hindex e he
    rw [Entry.key_node] at hkey
    rw [hkey] at hlt
    exact absurd hlt (lt_irrefl _)
  obtain ⟨height, wf⟩ := h.tree
  rw [wf.height_eq] at hheight
  obtain ⟨tree, k, hinsert, wf', hitems⟩ := insert_eq wf hheight h.order hnew
  refine ⟨_, hinsert, rfl, rfl, ⟨k, wf'⟩, ?_, ?_, ?_, ?_, ?_⟩
  · rw [hitems, List.pairwise_append]
    refine ⟨h.order.filter _, List.pairwise_cons.mpr ⟨?_, h.order.filter _⟩, ?_⟩
    · intro item hitem
      obtain ⟨hmem, hnot⟩ := List.mem_filter.mp hitem
      exact lt_of_le_of_ne (not_lt.mp (of_decide_eq_true hnot)) (Ne.symm (hnew item hmem))
    · intro item hitem other hother
      have hitem := of_decide_eq_true (List.mem_filter.mp hitem).2
      obtain rfl | hother := List.mem_cons.mp hother
      · exact hitem
      · have hnot := of_decide_eq_true (List.mem_filter.mp hother).2
        exact lt_of_lt_of_le hitem (not_lt.mp hnot)
  · intro node
    rw [hitems, List.mem_append, List.mem_cons, List.mem_filter, List.mem_filter]
    simp only [decide_eq_true_eq, List.mem_append, List.mem_singleton]
    constructor
    · rintro (⟨hmem, -⟩ | rfl | ⟨hmem, -⟩)
      · obtain ⟨e, he, hnode⟩ := (h.mem node).mp hmem
        exact ⟨e, .inl he, hnode⟩
      · exact ⟨_, .inr rfl, rfl⟩
      · obtain ⟨e, he, hnode⟩ := (h.mem node).mp hmem
        exact ⟨e, .inl he, hnode⟩
    · rintro ⟨e, he | rfl, rfl⟩
      · have hmem := (h.mem e.node).mpr ⟨e, he, rfl⟩
        by_cases hbefore : e.node.Precedes (m.nextNode handle)
        · exact .inl ⟨hmem, hbefore⟩
        · exact .inr (.inr ⟨hmem, hbefore⟩)
      · exact .inr (.inl rfl)
  · intro e he
    obtain he | he := List.mem_append.mp he
    · exact (Function.update_of_ne (hid e he) ..).trans (h.found e he)
    · rw [List.mem_singleton.mp he]
      exact Function.update_self ..
  · intro id hid'
    have hne : id ≠ handle.id := fun heq =>
      hid' _ (List.mem_append_right _ (List.mem_singleton.mpr rfl)) heq.symm
    refine (Function.update_of_ne hne ..).trans (h.unknown id ?_)
    intro e he
    exact hid' e (List.mem_append_left _ he)
  · intro e he
    obtain he | he := List.mem_append.mp he
    · rw [List.getElem?_append_left (hindex e he)]
      exact h.history e he
    · rw [List.mem_singleton.mp he]
      exact List.getElem?_concat_length

/-- The tree has at most sixteen levels before each of some operations: a cursor has room for
the way down to a leaf. -/
def TabStopMap.Fits (m : TabStopMap) : List TabStopOperation → Prop
  | [] => True
  | operation :: operations =>
    m.order.height ≤ 15 ∧ ∀ m' ∈ m.apply operation, m'.Fits operations

instance TabStopMap.decidableFits :
    ∀ (m : TabStopMap) (operations : List TabStopOperation), Decidable (m.Fits operations)
  | _, [] => inferInstanceAs (Decidable True)
  | m, operation :: operations =>
    have (m' : TabStopMap) : Decidable (m'.Fits operations) := decidableFits m' operations
    inferInstanceAs (Decidable (_ ∧ ∀ m' ∈ m.apply operation, _))

theorem TabStopMap.replay_cons (m : TabStopMap) (operation : TabStopOperation)
    (operations : List TabStopOperation) :
    m.replay (operation :: operations) = (m.apply operation).bind (·.replay operations) :=
  List.foldlM_cons

/-- What an operation keeps. The entries that are inserted in the end are the same from behind it
on. -/
theorem Keeps.apply {entries : List Entry} {m : TabStopMap} (h : Keeps entries m)
    (hheight : m.order.height ≤ 15) {operation : TabStopOperation}
    {operations : List TabStopOperation}
    (hids : ((entries ++ inserted m.currentPath m.insertionHistory.length
      (operation :: operations)).map (·.2.id)).Nodup) :
    ∃ m' entries', m.apply operation = some m' ∧ Keeps entries' m' ∧
      entries' ++ inserted m'.currentPath m'.insertionHistory.length operations =
        entries ++ inserted m.currentPath m.insertionHistory.length (operation :: operations) := by
  cases operation with
  | insert handle =>
    have hid : ∀ e ∈ entries, e.2.id ≠ handle.id := by
      intro e he heq
      rw [List.map_append, List.nodup_append] at hids
      exact hids.2.2 _ (List.mem_map.mpr ⟨e, he, heq⟩) _ (by simp [inserted]) rfl
    obtain ⟨m', hinsert, hpath, hhistory, hkeeps⟩ := h.insert hheight hid
    exact ⟨m', _, hinsert, hkeeps, by simp [hpath, hhistory, inserted]⟩
  | group tabIndex =>
    refine ⟨m.beginGroup tabIndex, entries, rfl, h.of_history rfl rfl rfl, ?_⟩
    simp [TabStopMap.beginGroup, inserted]
  | groupEnd =>
    refine ⟨m.endGroup, entries, rfl, h.of_history rfl rfl rfl, ?_⟩
    simp [TabStopMap.endGroup, inserted]

/-- What a replay keeps. The induction is on the operations. -/
theorem Keeps.replay {entries : List Entry} {m : TabStopMap} (h : Keeps entries m)
    {operations : List TabStopOperation}
    (hids : ((entries ++ inserted m.currentPath m.insertionHistory.length operations).map
      (·.2.id)).Nodup) (hfits : m.Fits operations) :
    ∃ m', m.replay operations = some m' ∧
      Keeps (entries ++ inserted m.currentPath m.insertionHistory.length operations) m' := by
  induction operations generalizing entries m with
  | nil =>
    rw [inserted, List.append_nil]
    exact ⟨m, rfl, h⟩
  | cons operation operations ih =>
    obtain ⟨hheight, hrest⟩ := hfits
    obtain ⟨m', entries', happly, hkeeps, heq⟩ := h.apply hheight hids
    rw [TabStopMap.replay_cons, happly, Option.bind_some, ← heq]
    rw [← heq] at hids
    exact ih hkeeps hids (hrest m' happly)

/-! ## Going around the cycle -/

/-- The stops around an entry: the first one behind it or else the first of all, and the last
one before it or else the last of all. -/
def nextStop (operations : List TabStopOperation) (e : Entry) : Option Entry :=
  (((stops operations).filter fun stop => Before e stop).head?).or (stops operations).head?

/-- See `nextStop`. -/
def prevStop (operations : List TabStopOperation) (e : Entry) : Option Entry :=
  (((stops operations).filter fun stop => Before stop e).getLast?).or (stops operations).getLast?

theorem pairwise_stops (operations : List TabStopOperation) :
    (stops operations).Pairwise Before := (pairwise_sorted operations).filter _

section Replay

variable {operations : List TabStopOperation} {m : TabStopMap}
  (h : Keeps (inserted [] 0 operations) m) (hheight : m.order.height ≤ 15)

include h

theorem order_eq : m.order.toList = (sorted operations).map Entry.node := by
  refine eq_of_pairwise_of_mem_iff h.order (List.pairwise_map.mpr (pairwise_sorted operations)) ?_
  intro node
  simp only [h.mem, List.mem_map, mem_sorted]

theorem stops_eq :
    m.order.toList.filter (·.tabStop) = (stops operations).map Entry.node := by
  rw [order_eq h, List.filter_map]
  rfl

theorem focusHandleForOrder_eq {e : Entry} (he : e ∈ inserted [] 0 operations) :
    m.focusHandleForOrder e.node = some (some e.2) := by
  have hhistory : m.insertionHistory[e.node.nodeInsertionIndex]? = _ := h.history e he
  rw [TabStopMap.focusHandleForOrder, hhistory]
  rfl

/-- The handle of a stop that is found. -/
theorem focusHandleForOrder_stop {e : Entry} (he : e ∈ stops operations) :
    m.focusHandleForOrder e.node = some (some e.2) :=
  focusHandleForOrder_eq h (mem_sorted.mp (List.mem_of_mem_filter he))

include hheight

theorem nextInner_replay {e : Entry} (he : e ∈ inserted [] 0 operations) :
    m.nextInner e.node =
      some ((((stops operations).filter fun stop => Before e stop).head?).map Entry.node) := by
  obtain ⟨k, wf⟩ := h.tree
  rw [nextInner_eq wf (wf.height_eq ▸ hheight) h.order ((h.mem _).mpr ⟨e, he, rfl⟩), stops_eq h,
    List.filter_map, List.head?_map]
  rfl

theorem prevInner_replay (e : Entry) :
    m.prevInner e.node =
      some ((((stops operations).filter fun stop => Before stop e).getLast?).map Entry.node) := by
  obtain ⟨k, wf⟩ := h.tree
  rw [prevInner_eq wf (wf.height_eq ▸ hheight) h.order, stops_eq h, List.filter_map,
    List.getLast?_map]
  rfl

/-- Without a handle, `next` gives the first tab stop. -/
theorem nextNone_eq : m.nextNone = some ((stops operations).head?.map Prod.snd) := by
  obtain ⟨k, wf⟩ := h.tree
  rw [TabStopMap.nextNone, SumTree.first_spec wf, order_eq h, List.head?_map]
  have hsorted := pairwise_sorted operations
  cases hfirst : sorted operations with
  | nil => simp [stops, hfirst]
  | cons first rest =>
    rw [hfirst] at hsorted
    have hmem : first ∈ sorted operations := hfirst ▸ List.mem_cons_self
    simp only [List.head?_cons, Option.map_some, Option.bind_eq_bind, Option.bind_some]
    by_cases hstop : first.node.tabStop = true
    · have hstops : (stops operations).head? = some first := by
        have hstop : first.2.tabStop = true := hstop
        simp [stops, hfirst, hstop]
      rw [if_pos hstop, focusHandleForOrder_eq h (mem_sorted.mp hmem), hstops, Option.map_some]
    · have hstops : ((stops operations).filter fun stop => Before first stop) =
          stops operations := by
        have hrest : stops operations = rest.filter (·.2.tabStop) := by
          have hstop : ¬first.2.tabStop = true := hstop
          simp [stops, hfirst, hstop]
        rw [hrest, List.filter_eq_self]
        intro stop hmem
        simpa using (List.pairwise_cons.mp hsorted).1 stop (List.mem_of_mem_filter hmem)
      rw [if_neg hstop, nextInner_replay h hheight (mem_sorted.mp hmem), hstops, Option.bind_some]
      cases hhead : (stops operations).head? with
      | none => rfl
      | some stop => exact focusHandleForOrder_stop h (List.mem_of_head? hhead)

/-- Without a handle, `prev` gives the last tab stop. -/
theorem prevNone_eq : m.prevNone = some ((stops operations).getLast?.map Prod.snd) := by
  obtain ⟨k, wf⟩ := h.tree
  rw [TabStopMap.prevNone, SumTree.last_spec wf, order_eq h, List.getLast?_map]
  have hsorted := pairwise_sorted operations
  rcases List.eq_nil_or_concat (sorted operations) with hlast | ⟨rest, last, hlast⟩
  · simp [stops, hlast]
  · rw [List.concat_eq_append] at hlast
    rw [hlast] at hsorted
    have hmem : last ∈ sorted operations := hlast ▸ List.mem_append_right _ List.mem_cons_self
    simp only [hlast, List.getLast?_concat, Option.map_some, Option.bind_eq_bind, Option.bind_some]
    by_cases hstop : last.node.tabStop = true
    · have hstops : (stops operations).getLast? = some last := by
        have hstop : last.2.tabStop = true := hstop
        simp [stops, hlast, hstop]
      rw [if_pos hstop, focusHandleForOrder_eq h (mem_sorted.mp hmem), hstops, Option.map_some]
    · have hstops : ((stops operations).filter fun stop => Before stop last) =
          stops operations := by
        have hrest : stops operations = rest.filter (·.2.tabStop) := by
          have hstop : ¬last.2.tabStop = true := hstop
          simp [stops, hlast, hstop]
        rw [hrest, List.filter_eq_self]
        intro stop hmem
        simpa using (List.pairwise_append.mp hsorted).2.2 stop (List.mem_of_mem_filter hmem) last
          List.mem_cons_self
      rw [if_neg hstop, prevInner_replay h hheight, hstops, Option.bind_some]
      cases hend : (stops operations).getLast? with
      | none => rfl
      | some stop => exact focusHandleForOrder_stop h (List.mem_of_getLast? hend)

theorem next_eq {e : Entry} (he : e ∈ inserted [] 0 operations) :
    m.next (some e.2.id) = some ((nextStop operations e).map Prod.snd) := by
  simp only [TabStopMap.next, h.found e he, nextInner_replay h hheight he, nextNone_eq h hheight,
    nextStop, Option.bind_eq_bind, Option.bind_some]
  cases hstop : ((stops operations).filter fun stop => Before e stop).head? with
  | none => rfl
  | some stop =>
    exact focusHandleForOrder_stop h (List.mem_of_mem_filter (List.mem_of_head? hstop))

theorem prev_eq {e : Entry} (he : e ∈ inserted [] 0 operations) :
    m.prev (some e.2.id) = some ((prevStop operations e).map Prod.snd) := by
  simp only [TabStopMap.prev, h.found e he, prevInner_replay h hheight, prevNone_eq h hheight,
    prevStop, Option.bind_eq_bind, Option.bind_some]
  cases hstop : ((stops operations).filter fun stop => Before stop e).getLast? with
  | none => rfl
  | some stop =>
    exact focusHandleForOrder_stop h (List.mem_of_mem_filter (List.mem_of_getLast? hstop))

end Replay

/-- The tab stops of a map are those of a history, and `next` and `prev` go around them. -/
structure Cycles (operations : List TabStopOperation) (m : TabStopMap) : Prop where
  first : m.next none = some ((stops operations).head?.map Prod.snd)
  last : m.prev none = some ((stops operations).getLast?.map Prod.snd)
  unknown : ∀ id, (∀ e ∈ inserted [] 0 operations, e.2.id ≠ id) →
    m.next (some id) = m.next none ∧ m.prev (some id) = m.prev none
  nearest : ∀ e ∈ inserted [] 0 operations,
    m.next (some e.2.id) = some ((nextStop operations e).map Prod.snd) ∧
      m.prev (some e.2.id) = some ((prevStop operations e).map Prod.snd)
  around : ∀ e (he : e ∈ stops operations),
    m.next (some e.2.id) = some (some ((stops operations).next e he).2) ∧
      m.prev (some e.2.id) = some (some ((stops operations).prev e he).2)
  none_iff : ∀ focused, (m.next focused = some none ↔ stops operations = []) ∧
    (m.prev focused = some none ↔ stops operations = [])
  inverse : ∀ e ∈ stops operations,
    (∃ stop, m.next (some e.2.id) = some (some stop) ∧ m.prev (some stop.id) = some (some e.2)) ∧
      ∃ stop, m.prev (some e.2.id) = some (some stop) ∧ m.next (some stop.id) = some (some e.2)

theorem nextStop_eq_none {operations : List TabStopOperation} {e : Entry} :
    nextStop operations e = none ↔ stops operations = [] := by
  rw [nextStop, Option.or_eq_none_iff, List.head?_eq_none_iff, List.head?_eq_none_iff]
  constructor
  · rintro ⟨-, h⟩
    exact h
  · intro h
    simp [h]

theorem prevStop_eq_none {operations : List TabStopOperation} {e : Entry} :
    prevStop operations e = none ↔ stops operations = [] := by
  rw [prevStop, Option.or_eq_none_iff, List.getLast?_eq_none_iff, List.getLast?_eq_none_iff]
  constructor
  · rintro ⟨-, h⟩
    exact h
  · intro h
    simp [h]

/-- A map that keeps the entries of a history goes around its tab stops. -/
theorem Keeps.cycles {operations : List TabStopOperation} {m : TabStopMap}
    (h : Keeps (inserted [] 0 operations) m) (hheight : m.order.height ≤ 15) :
    Cycles operations m := by
  have hfirst : m.next none = _ := nextNone_eq h hheight
  have hlast : m.prev none = _ := prevNone_eq h hheight
  have hunknown : ∀ id, (∀ e ∈ inserted [] 0 operations, e.2.id ≠ id) →
      m.next (some id) = m.next none ∧ m.prev (some id) = m.prev none := by
    intro id hid
    simp only [TabStopMap.next, TabStopMap.prev, h.unknown id hid, and_self]
  have hstop : ∀ e ∈ stops operations, e ∈ inserted [] 0 operations := fun e he =>
    mem_sorted.mp (List.mem_of_mem_filter he)
  have hnext : ∀ e (he : e ∈ stops operations),
      m.next (some e.2.id) = some (some ((stops operations).next e he).2) := by
    intro e he
    rw [next_eq h hheight (hstop e he), nextStop,
      head?_filter_or_head? (pairwise_stops operations) he, Option.map_some]
  have hprev : ∀ e (he : e ∈ stops operations),
      m.prev (some e.2.id) = some (some ((stops operations).prev e he).2) := by
    intro e he
    rw [prev_eq h hheight (hstop e he), prevStop,
      getLast?_filter_or_getLast? (pairwise_stops operations) he, Option.map_some]
  have hnodup : (stops operations).Nodup :=
    (pairwise_stops operations).imp fun hbefore => ne_of_irrefl hbefore
  refine ⟨hfirst, hlast, hunknown, ?_, ?_, ?_, ?_⟩
  · intro e he
    exact ⟨next_eq h hheight he, prev_eq h hheight he⟩
  · intro e he
    exact ⟨hnext e he, hprev e he⟩
  · have hnone : (m.next none = some none ↔ stops operations = []) ∧
        (m.prev none = some none ↔ stops operations = []) := by
      rw [hfirst, hlast, Option.some_inj, Option.some_inj, Option.map_eq_none_iff,
        Option.map_eq_none_iff, List.head?_eq_none_iff, List.getLast?_eq_none_iff]
      exact ⟨.rfl, .rfl⟩
    intro focused
    cases focused with
    | none => exact hnone
    | some id =>
      by_cases hid : ∃ e ∈ inserted [] 0 operations, e.2.id = id
      · obtain ⟨e, he, rfl⟩ := hid
        rw [next_eq h hheight he, prev_eq h hheight he, Option.some_inj, Option.some_inj,
          Option.map_eq_none_iff, Option.map_eq_none_iff, nextStop_eq_none, prevStop_eq_none]
        exact ⟨.rfl, .rfl⟩
      · push Not at hid
        rw [(hunknown id hid).1, (hunknown id hid).2]
        exact hnone
  · intro e he
    refine ⟨⟨_, hnext e he, ?_⟩, _, hprev e he, ?_⟩
    · rw [hprev _ (List.next_mem ..), List.prev_next _ hnodup]
    · rw [hnext _ (List.prev_mem ..), List.next_prev _ hnodup]

/-- For every history of insertions of different handles within groups, as long as the tree has
at most sixteen levels, nothing panics, and `next` and `prev` go around the tab stops. -/
theorem cycles_of_history {operations : List TabStopOperation}
    (hids : ((inserted [] 0 operations).map (·.2.id)).Nodup)
    (hfits : TabStopMap.new.Fits operations)
    (hheight : ∀ m ∈ TabStopMap.new.replay operations, m.order.height ≤ 15) :
    ∃ m, TabStopMap.new.replay operations = some m ∧ Cycles operations m := by
  obtain ⟨m, hreplay, hkeeps⟩ := keeps_new.replay hids hfits
  exact ⟨m, hreplay, hkeeps.cycles (hheight m hreplay)⟩

/-- A group between two handles, with a handle that is no stop. -/
theorem cycles_group :
    ∃ m, TabStopMap.new.replay [.insert ⟨0, 2, true⟩, .group 1, .insert ⟨1, 5, false⟩,
        .insert ⟨2, 3, true⟩, .groupEnd, .insert ⟨3, -1, true⟩] = some m ∧
      Cycles [.insert ⟨0, 2, true⟩, .group 1, .insert ⟨1, 5, false⟩, .insert ⟨2, 3, true⟩,
        .groupEnd, .insert ⟨3, -1, true⟩] m :=
  cycles_of_history (by decide) (by decide +kernel) (by decide +kernel)

/-! ## Trees of more than sixteen levels -/

/-- The entries of a history are for the handles that it inserts. -/
theorem map_snd_inserted (path : List ℤ) (index : ℕ) (operations : List TabStopOperation) :
    (inserted path index operations).map Prod.snd =
      operations.filterMap TabStopOperation.focusHandle := by
  induction operations generalizing path index with
  | nil => rfl
  | cons operation operations ih =>
    cases operation with
    | insert handle => exact congrArg (List.cons handle) (ih path (index + 1))
    | group tabIndex => exact ih (path ++ [tabIndex]) (index + 1)
    | groupEnd => exact ih path.dropLast (index + 1)

theorem TabStopMap.fits_concat {m : TabStopMap} {operations : List TabStopOperation}
    (hfits : m.Fits operations) (hheight : ∀ m' ∈ m.replay operations, m'.order.height ≤ 15)
    (operation : TabStopOperation) : m.Fits (operations ++ [operation]) := by
  induction operations generalizing m with
  | nil => exact ⟨hheight m rfl, fun _ _ => trivial⟩
  | cons first operations ih =>
    refine ⟨hfits.1, fun m' hm' => ih (hfits.2 m' hm') ?_⟩
    intro m'' hm''
    refine hheight m'' ?_
    rw [replay_cons, Option.mem_def.mp hm', Option.bind_some]
    exact hm''

/-- Where the tree is too high for cursors, `next` of every stop would be the first one, so it
does not go around two of them. -/
theorem Keeps.height_le {operations : List TabStopOperation} {m : TabStopMap}
    (h : Keeps (inserted [] 0 operations) m) (hcycles : Cycles operations m) {e e' : Entry}
    (he : e ∈ stops operations) (he' : e' ∈ stops operations) (hne : e.2 ≠ e'.2) :
    m.order.height ≤ 15 := by
  by_contra! hheight
  obtain ⟨k, wf⟩ := h.tree
  rw [wf.height_eq] at hheight
  have hnone : ∀ e ∈ stops operations, ∀ stop, m.next (some e.2.id) = some stop →
      m.next none = some stop := by
    intro e he stop hnext
    rw [TabStopMap.next, h.found e (mem_sorted.mp (List.mem_of_mem_filter he))] at hnext
    obtain ⟨found, hfound, hnext⟩ := Option.bind_eq_some_iff.mp hnext
    obtain rfl := nextInner_deep wf hheight hfound
    exact hnext
  obtain ⟨⟨stop, hnext, hprev⟩, -⟩ := hcycles.inverse e he
  obtain ⟨⟨stop', hnext', hprev'⟩, -⟩ := hcycles.inverse e' he'
  have heq := (hnone e he _ hnext).symm.trans (hnone e' he' _ hnext')
  obtain rfl : stop = stop' := Option.some.inj (Option.some.inj heq)
  exact hne (Option.some.inj (Option.some.inj (hprev.symm.trans hprev')))

/-- Handles without groups, all of them tab stops. -/
def handles (n : ℕ) : List TabStopOperation :=
  (List.range n).map fun id => .insert ⟨id, 0, true⟩

theorem map_snd_handles (n : ℕ) :
    (inserted [] 0 (handles n)).map Prod.snd = (List.range n).map fun id => ⟨id, 0, true⟩ := by
  rw [map_snd_inserted, handles, List.filterMap_map]
  exact congrFun List.filterMap_eq_map _

theorem nodup_handles (n : ℕ) : ((inserted [] 0 (handles n)).map (·.2.id)).Nodup := by
  have hids : (inserted [] 0 (handles n)).map (·.2.id) = List.range n := by
    rw [← Function.comp_def FocusHandle.id Prod.snd, ← List.map_map, map_snd_handles,
      List.map_map]
    exact List.map_id _
  exact hids ▸ List.nodup_range

/-- Each of the handles is a stop. -/
theorem exists_stop_handles {n id : ℕ} (hid : id < n) :
    ∃ e ∈ stops (handles n), e.2 = ⟨id, 0, true⟩ := by
  have hmem : (⟨id, 0, true⟩ : FocusHandle) ∈ (inserted [] 0 (handles n)).map Prod.snd := by
    rw [map_snd_handles]
    exact List.mem_map.mpr ⟨id, List.mem_range.mpr hid, rfl⟩
  obtain ⟨e, he, heq⟩ := List.mem_map.mp hmem
  exact ⟨e, List.mem_filter.mpr ⟨mem_sorted.mpr he, by rw [heq]⟩, heq⟩

theorem length_order_handles {n : ℕ} {m : TabStopMap}
    (h : Keeps (inserted [] 0 (handles n)) m) : m.order.toList.length = n := by
  have hlength := congrArg List.length (map_snd_handles n)
  rw [List.length_map, List.length_map, List.length_range] at hlength
  rw [order_eq h, List.length_map, sorted, List.length_mergeSort, hlength]

/-- Not every number of handles makes a tree that cursors can walk: the trees of sixteen levels
have only so many leaves. -/
theorem not_cycles_handles :
    ¬∀ n, ∃ m, TabStopMap.new.replay (handles n) = some m ∧ Cycles (handles n) m := by
  intro hall
  have hheight : ∀ n, 2 ≤ n → TabStopMap.new.Fits (handles n) →
      ∃ m, TabStopMap.new.replay (handles n) = some m ∧ Keeps (inserted [] 0 (handles n)) m ∧
        m.order.height ≤ 15 := by
    intro n hn hfits
    obtain ⟨m, hreplay, hkeeps⟩ := keeps_new.replay (nodup_handles n) hfits
    obtain ⟨m', hreplay', hcycles⟩ := hall n
    obtain rfl : m = m' := Option.some.inj (hreplay.symm.trans hreplay')
    obtain ⟨e, he, heq⟩ := exists_stop_handles (show 0 < n by omega)
    obtain ⟨e', he', heq'⟩ := exists_stop_handles (show 1 < n by omega)
    refine ⟨m, hreplay, hkeeps, hkeeps.height_le hcycles he he' ?_⟩
    rw [heq, heq']
    exact fun h => absurd (congrArg FocusHandle.id h) Nat.zero_ne_one
  -- one more handle fits as long as the tree before it does
  have hfits : ∀ n, 2 ≤ n → TabStopMap.new.Fits (handles n) := by
    refine Nat.le_induction (by decide +kernel) fun n hn hfits => ?_
    obtain ⟨m, hreplay, -, hle⟩ := hheight n hn hfits
    rw [handles, List.range_succ, List.map_append]
    refine TabStopMap.fits_concat hfits ?_ _
    intro m' hm'
    obtain rfl : m = m' := Option.some.inj (hreplay.symm.trans hm')
    exact hle
  have hbound : ∀ n, 2 ≤ n → n ≤ (2 * TREE_BASE) ^ 16 := by
    intro n hn
    obtain ⟨m, -, hkeeps, hle⟩ := hheight n hn (hfits n hn)
    obtain ⟨k, wf⟩ := hkeeps.tree
    rw [wf.height_eq] at hle
    have hlength := wf.length_le
    rw [length_order_handles hkeeps] at hlength
    exact hlength.trans (Nat.pow_le_pow_right (by decide) (by omega))
  have hlarge : 2 ≤ (2 * TREE_BASE) ^ 16 + 1 := Nat.succ_le_succ (Nat.one_le_two_pow.trans
    (Nat.pow_le_pow_left (by decide) 16))
  exact absurd (hbound _ hlarge) (Nat.not_succ_le_self _)

end Lucie.TabStop
