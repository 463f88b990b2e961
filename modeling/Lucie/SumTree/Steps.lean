import Lucie.SumTree.Forward
import Lucie.SumTree.SearchBackward

/-!
# A cursor is an index that moves both ways

`next` and `prev` are searches with a filter that accepts everything. Together with
`seek` and `seek_forward` they move a place of the item list, and after every move
the observers answer as the place does. The observers of the neighbours walk the
stack on their own and are treated here as well.
-/

set_option autoImplicit false

namespace Lucie

variable {α σ δ : Type} [Item α σ] [Dimension δ σ]

namespace Place

/-- `next` moves one to the right, from before the list to its first index. -/
def next (items : List α) : Place → Place
  | .unsought => .at 0
  | .before => .at 0
  | .at index => if index = items.length then .at index else .at (index + 1)

/-- `prev` moves one to the left, from the first index to before the list. A cursor
that was never moved starts from the end. -/
def prev (items : List α) (place : Place) : Place :=
  match place.stop items with
  | 0 => .before
  | index + 1 => .at index

/-- What `next_item` answers at a place. -/
def nextItem (items : List α) : Place → Option (Option α)
  | .unsought => none
  | .before => some items[0]?
  | .at index => some items[index + 1]?

/-- What `prev_item` answers at a place. -/
def prevItem (items : List α) : Place → Option (Option α)
  | .unsought => none
  | .before => some none
  | .at 0 => some none
  | .at (index + 1) => some items[index]?

theorem searchForward_true (items : List α) (place : Place) :
    place.searchForward (fun _ : σ => true) items = place.next items := by
  have haccept : ∀ start, acceptedFrom (fun _ : σ => true) items start = start := by
    intro start
    rw [acceptedFrom]
    cases items.drop start <;> simp [List.findIdx_cons]
  cases place <;> simp [searchForward, next, haccept]

theorem searchBackward_true {items : List α} {place : Place}
    (hstop : place.stop items ≤ items.length) :
    place.searchBackward (fun _ : σ => true) items = place.prev items := by
  rw [searchBackward, prev]
  cases hindex : place.stop items with
  | zero => rfl
  | succ index =>
    rw [hindex] at hstop
    simp [acceptedBefore, List.getElem?_eq_getElem hstop, ofFound]

theorem prevItem_at {items : List α} {index : ℕ} (hle : index ≤ items.length) :
    prevItem items (.at index) = some (items.take index).getLast? := by
  cases index with
  | zero => rfl
  | succ index => simp [prevItem, List.getLast?_take, List.getElem?_eq_getElem hle]

end Place

namespace SumTree

variable [AddMonoid σ] {k : ℕ} {tree : SumTree α σ}

/-- The leftmost leaf of a tree with items begins with its first item. -/
theorem leftmostLeaf_spec (wf : WellFormed k tree) (hne : tree.toList ≠ []) :
    ∃ leaf items item, tree.leftmostLeaf = some leaf ∧ leaf.items = some items ∧
      items.head? = some item ∧ tree.toList.head? = some item := by
  induction wf with
  | @leaf items capacity =>
    obtain ⟨item, hitem⟩ := Option.ne_none_iff_exists'.mp (mt List.head?_eq_none_iff.mp hne)
    exact ⟨_, items, item, by rw [leftmostLeaf], rfl, by simpa using hitem, hitem⟩
  | @internal height childTrees nonempty capacity children occupied ih =>
    cases childTrees with
    | nil => exact absurd rfl nonempty
    | cons first rest =>
      obtain ⟨leaf, items, item, hleaf, hitems, hitem, hfirst⟩ :=
        ih first (by simp) (occupied first (by simp))
      refine ⟨leaf, items, item, by rw [leftmostLeaf, hleaf], hitems, hitem, ?_⟩
      simp [List.head?_append, hfirst]

/-- The rightmost leaf of a tree with items ends with its last item. -/
theorem rightmostLeaf_spec (wf : WellFormed k tree) (hne : tree.toList ≠ []) :
    ∃ leaf items item, tree.rightmostLeaf = some leaf ∧ leaf.items = some items ∧
      items.getLast? = some item ∧ tree.toList.getLast? = some item := by
  induction wf with
  | @leaf items capacity =>
    obtain ⟨item, hitem⟩ := Option.ne_none_iff_exists'.mp (mt List.getLast?_eq_none_iff.mp hne)
    exact ⟨_, items, item, by rw [rightmostLeaf], rfl, by simpa using hitem, hitem⟩
  | @internal height childTrees nonempty capacity children occupied ih =>
    obtain ⟨init, last, rfl⟩ := List.eq_nil_or_concat childTrees |>.resolve_left nonempty
    obtain ⟨leaf, items, item, hleaf, hitems, hitem, hlast⟩ :=
      ih last (by simp) (occupied last (by simp))
    refine ⟨leaf, items, item, ?_, hitems, hitem, ?_⟩
    · rw [rightmostLeaf]
      split
      · rename_i hgetLast
        simp at hgetLast
      · rename_i l hgetLast
        obtain rfl : last = l := by simpa using hgetLast
        exact hleaf
    · simp [List.getLast?_append, hlast]

theorem first_spec (wf : WellFormed k tree) : tree.first = some tree.toList.head? := by
  by_cases hnil : tree.toList = []
  · cases wf with
    | leaf => simp [first, leftmostLeaf, items]
    | internal nonempty _ _ occupied =>
      exact absurd (by simpa using hnil) (toLists_ne_nil nonempty occupied)
  · obtain ⟨leaf, items, item, hleaf, hitems, hitem, hfirst⟩ := leftmostLeaf_spec wf hnil
    simp [first, hleaf, hitems, hitem, hfirst]

theorem last_spec (wf : WellFormed k tree) : tree.last = some tree.toList.getLast? := by
  by_cases hnil : tree.toList = []
  · cases wf with
    | leaf => simp [last, rightmostLeaf, items]
    | internal nonempty _ _ occupied =>
      exact absurd (by simpa using hnil) (toLists_ne_nil nonempty occupied)
  · obtain ⟨leaf, items, item, hleaf, hitems, hitem, hlast⟩ := rightmostLeaf_spec wf hnil
    simp [last, hleaf, hitems, hitem, hlast]

end SumTree

namespace Cursor

variable [AddMonoid σ] {root : SumTree α σ} {h : ℕ}

/-- An ancestor on a path is an internal node. -/
theorem Located.parent_eq (wf : SumTree.WellFormed h root) {k : ℕ} {entry parent : StackEntry α σ δ}
    {rest : List (StackEntry α σ δ)} (hloc : Located root h k (entry :: parent :: rest)) :
    Located root h (k + 1) (parent :: rest) ∧ ∃ childTrees, SumTree.Row k childTrees ∧
      parent.index < childTrees.length ∧ parent.tree = SumTree.parentOf k childTrees := by
  cases hloc with
  | child hparent hchild =>
    refine ⟨hparent, ?_⟩
    have hwf := hparent.wellFormed wf
    obtain ⟨tree, index, position⟩ := parent
    have hlt := hchild.index_lt
    cases hwf with
    | internal _ _ hchildren hoccupied => exact ⟨_, ⟨hchildren, hoccupied⟩, hlt, rfl⟩

/-- `next_leaf` finds the leaf that begins with the first item after a stack. -/
theorem nextLeaf_spec (wf : SumTree.WellFormed h root) {k : ℕ} {entry : StackEntry α σ δ}
    {rest : List (StackEntry α σ δ)} (hloc : Located root h k (entry :: rest)) :
    (nextLeaf rest = some none ∧ outerAfter rest = []) ∨
      ∃ leaf items item, nextLeaf rest = some (some leaf) ∧ leaf.items = some items ∧
        items.head? = some item ∧ (outerAfter rest).head? = some item := by
  induction rest generalizing entry k with
  | nil => exact .inl ⟨rfl, rfl⟩
  | cons parent rest ih =>
    obtain ⟨hparent, childTrees, hrow, hlt, htree⟩ := hloc.parent_eq wf
    have hne : childTrees ≠ [] := List.ne_nil_of_length_pos (by omega)
    by_cases hmore : parent.index < childTrees.length - 1
    · have hnext : parent.index + 1 < childTrees.length := by omega
      have hget : childTrees[parent.index + 1]? = some childTrees[parent.index + 1] :=
        List.getElem?_eq_getElem hnext
      have hmem : childTrees[parent.index + 1] ∈ childTrees := List.getElem_mem hnext
      obtain ⟨leaf, items, item, hleaf, hitems, hitem, hfirst⟩ :=
        SumTree.leftmostLeaf_spec (hrow.wellFormed _ hmem) (hrow.occupied _ hmem)
      refine .inr ⟨leaf, items, item, ?_, hitems, hitem, ?_⟩
      · simp [nextLeaf, htree, SumTree.childTrees, hne, hmore, hget, hleaf]
      · rw [outerAfter, htree, SumTree.after, List.drop_eq_getElem_cons hnext,
          SumTree.toLists_cons, List.append_assoc, List.head?_append, hfirst, Option.some_or]
    · have hafter : outerAfter (parent :: rest) = outerAfter rest := by
        rw [outerAfter, htree, SumTree.after, List.drop_of_length_le (by omega)]
        simp
      have hstep : nextLeaf (parent :: rest) = nextLeaf rest := by
        simp [nextLeaf, htree, SumTree.childTrees, hne, hmore]
      rw [hafter, hstep]
      exact ih hparent

/-- `prev_leaf` finds the leaf that ends with the last item before a stack. -/
theorem prevLeaf_spec (wf : SumTree.WellFormed h root) {k : ℕ} {entry : StackEntry α σ δ}
    {rest : List (StackEntry α σ δ)} (hloc : Located root h k (entry :: rest)) :
    (prevLeaf rest = some none ∧ stackBefore rest = []) ∨
      ∃ leaf items item, prevLeaf rest = some (some leaf) ∧ leaf.items = some items ∧
        items.getLast? = some item ∧ (stackBefore rest).getLast? = some item := by
  induction rest generalizing entry k with
  | nil => exact .inl ⟨rfl, rfl⟩
  | cons parent rest ih =>
    obtain ⟨hparent, childTrees, hrow, hlt, htree⟩ := hloc.parent_eq wf
    by_cases hzero : parent.index = 0
    · have hbefore : stackBefore (parent :: rest) = stackBefore rest := by
        rw [stackBefore, hzero, SumTree.before_zero, List.append_nil]
      have hstep : prevLeaf (parent :: rest) = prevLeaf rest := by simp [prevLeaf, hzero]
      rw [hbefore, hstep]
      exact ih hparent
    · obtain ⟨index, hindex⟩ := Nat.exists_eq_succ_of_ne_zero hzero
      have hprev : index < childTrees.length := by omega
      have hget : childTrees[index]? = some childTrees[index] := List.getElem?_eq_getElem hprev
      have hmem : childTrees[index] ∈ childTrees := List.getElem_mem hprev
      obtain ⟨leaf, items, item, hleaf, hitems, hitem, hlast⟩ :=
        SumTree.rightmostLeaf_spec (hrow.wellFormed _ hmem) (hrow.occupied _ hmem)
      refine .inr ⟨leaf, items, item, ?_, hitems, hitem, ?_⟩
      · simp [prevLeaf, htree, SumTree.childTrees, hindex, hget, hleaf]
      · rw [stackBefore, htree, SumTree.before, hindex, List.take_add_one, hget,
          Option.toList_some, SumTree.toLists_append, ← List.append_assoc, List.getLast?_append,
          SumTree.toLists_cons, SumTree.toLists_nil, List.append_nil, hlast, Option.some_or]

/-- At an item, the list is cut into what lies before the leaf, its items, and what
lies after it. -/
theorem SitsAt.leaf (wf : SumTree.WellFormed h root) {done : List α} {entry : StackEntry α σ δ}
    {rest : List (StackEntry α σ δ)} (hsits : SitsAt root h done (entry :: rest)) :
    ∃ items, entry.tree = .leaf (SumTree.measure items) items (items.map Item.summary) ∧
      Located root h 0 (entry :: rest) ∧ entry.index < items.length ∧
      done.length = (stackBefore rest).length + entry.index ∧
      root.toList = stackBefore rest ++ (items ++ outerAfter rest) := by
  cases hsits with
  | atItem hloc hlt hdone =>
    have hcontents := hloc.contents
    have hwf := hloc.wellFormed wf
    obtain ⟨tree, index, position⟩ := entry
    cases hwf with
    | @leaf items _ =>
      replace hlt : index < items.length := hlt
      refine ⟨items, rfl, hloc, hlt, ?_, ?_⟩
      · rw [hdone, stackBefore, SumTree.before, List.length_append, List.length_take_of_le hlt.le]
      · rw [hcontents, stackBefore, SumTree.before, SumTree.after, List.append_assoc,
          ← List.append_assoc (items.take index), List.take_append_drop]

/-- `next_item` answers as the place does. -/
theorem Represents.nextItem_eq (wf : SumTree.WellFormed h root) {c : Cursor α σ δ} {place : Place}
    (hrep : Represents root h c place) : c.nextItem = place.nextItem root.toList := by
  cases place with
  | unsought => simp [nextItem, Place.nextItem, hrep.2.1]
  | before =>
    obtain ⟨htree, hseek, hstack, -, hend⟩ := hrep
    rw [nextItem, hseek, hstack, hend, htree, Place.nextItem]
    cases hempty : root.isEmpty with
    | true => simp [wf.isEmpty_iff.mp hempty]
    | false => simp [SumTree.first_spec wf, List.head?_eq_getElem?]
  | «at» index =>
    obtain ⟨-, hseek, hle, hsits, -, hend⟩ := hrep
    rw [nextItem, hseek, Place.nextItem]
    cases hstack : c.stack with
    | nil =>
      rw [hstack] at hsits hend
      cases hsits with
      | atEnd hdone =>
        have hlength := congrArg List.length hdone
        rw [List.length_take] at hlength
        rw [List.getElem?_eq_none (by omega)]
        simp [hend]
    | cons entry rest =>
      rw [hstack] at hsits
      obtain ⟨items, htree, hloc, hlt, hlength, hcontents⟩ := hsits.leaf wf
      rw [List.length_take_of_le hle] at hlength
      have hne : items ≠ [] := List.ne_nil_of_length_pos (by omega)
      have hitems : entry.tree.items = some items := by
        rw [htree]
        rfl
      rw [hcontents, List.getElem?_append_right (by omega),
        show index + 1 - (stackBefore rest).length = entry.index + 1 by omega]
      by_cases hlast : entry.index = items.length - 1
      · rw [List.getElem?_append_right (by omega), show entry.index + 1 - items.length = 0 by omega,
          ← List.head?_eq_getElem?]
        rcases nextLeaf_spec wf hloc with
          ⟨hnext, hafter⟩ | ⟨leaf, its, item, hnext, hits, hitem, hafter⟩
        · simp [hitems, hne, hlast, hnext, hafter]
        · simp [hitems, hne, hlast, hnext, hits, hitem, hafter]
      · have hmore : entry.index + 1 < items.length := by omega
        rw [List.getElem?_append_left hmore]
        simp [hitems, hne, hlast, List.getElem?_eq_getElem hmore]

/-- `prev_item` answers as the place does. -/
theorem Represents.prevItem_eq (wf : SumTree.WellFormed h root) {c : Cursor α σ δ} {place : Place}
    (hrep : Represents root h c place) : c.prevItem = place.prevItem root.toList := by
  cases place with
  | unsought => simp [prevItem, Place.prevItem, hrep.2.1]
  | before =>
    obtain ⟨htree, hseek, hstack, -, hend⟩ := hrep
    rw [prevItem, hseek, hstack, hend, htree, Place.prevItem]
    cases hempty : root.isEmpty with
    | true => simp [SumTree.last_spec wf, wf.isEmpty_iff.mp hempty]
    | false => simp
  | «at» index =>
    obtain ⟨htree, hseek, hle, hsits, -, hend⟩ := hrep
    rw [prevItem, hseek, Place.prevItem_at hle]
    cases hstack : c.stack with
    | nil =>
      rw [hstack] at hsits hend
      cases hsits with
      | atEnd hdone => simp [hend, htree, SumTree.last_spec wf, hdone]
    | cons entry rest =>
      rw [hstack] at hsits
      obtain ⟨items, hleaf, hloc, hlt, -, -⟩ := hsits.leaf wf
      cases hsits with
      | atItem _ _ hdone =>
        rw [hdone, stackBefore, hleaf, SumTree.before]
        by_cases hzero : entry.index = 0
        · rcases prevLeaf_spec wf hloc with
            ⟨hprev, hbefore⟩ | ⟨leaf, its, item, hprev, hits, hitem, hbefore⟩
          · simp [hzero, hprev, hbefore]
          · simp [hzero, hprev, hits, hitem, hbefore]
        · obtain ⟨j, hj⟩ := Nat.exists_eq_succ_of_ne_zero hzero
          have hget : items[j]? = some items[j] := List.getElem?_eq_getElem (by omega)
          have hitems : entry.tree.items = some items := by
            rw [hleaf]
            rfl
          have hlast : (stackBefore rest ++ items.take entry.index).getLast? = some items[j] := by
            rw [hj, List.take_add_one, hget, Option.toList_some, ← List.append_assoc,
              List.getLast?_concat]
          rw [hlast]
          simp [hitems, hj, hget]

/-- `next` moves one to the right. -/
theorem next_spec (wf : SumTree.WellFormed h root) (hh : h ≤ 15)
    (hlawful : Dimension.Lawful δ root.toList) {c : Cursor α σ δ} {place : Place}
    (hrep : Represents root h c place) :
    ∃ c', c.next = some c' ∧ Represents root h c' (place.next root.toList) := by
  rw [← Place.searchForward_true]
  exact searchForward_spec wf hh hlawful (filterSound_true _) hrep

/-- `prev` moves one to the left. -/
theorem prev_spec (wf : SumTree.WellFormed h root) (hh : h ≤ 15)
    (hlawful : Dimension.Lawful δ root.toList) {c : Cursor α σ δ} {place : Place}
    (hrep : Represents root h c place) :
    ∃ c', c.prev = some c' ∧ Represents root h c' (place.prev root.toList) := by
  have hstop : place.stop root.toList ≤ root.toList.length := by
    cases place with
    | unsought => exact Nat.le_refl _
    | before => exact Nat.zero_le _
    | «at» index => exact hrep.2.2.1
  rw [← Place.searchBackward_true hstop]
  exact searchBackward_spec wf hh hlawful (filterSound_true _) hrep

end Cursor

/-- The moves of a cursor. -/
inductive Move (δ : Type)
  | seek (target : SeekTarget δ) (bias : Bias)
  | seekForward (target : SeekTarget δ) (bias : Bias)
  | next
  | prev

namespace Move

/-- Make a move. -/
def run (c : Cursor α σ δ) : Move δ → Option (Cursor α σ δ)
  | .seek target bias => (c.seek target bias).map Prod.fst
  | .seekForward target bias => (c.seekForward target bias).map Prod.fst
  | .next => c.next
  | .prev => c.prev

/-- A seek may not go backward, and `seek_forward` may not start before the list,
where only `prev` leads. -/
def Allowed (items : List α) (place : Place) : Move δ → Prop
  | .seek target _ => target.cmp (Dimension.extent δ ([] : List α)) ≠ .lt
  | .seekForward target _ => place ≠ .before ∧
      target.cmp (Dimension.extent δ (items.take place.index)) ≠ .lt
  | .next => True
  | .prev => True

/-- The moves of a place. A seek ends at some index to the right of where it starts,
which a monotone target determines. -/
def Moves (items : List α) (place place' : Place) : Move δ → Prop
  | .seek target bias => ∃ index ≤ items.length, place' = .at index ∧
      (target.MonotoneOn items → index = target.leading bias items)
  | .seekForward target bias => ∃ index ≤ items.length, place' = .at index ∧
      place.index ≤ index ∧
      (target.MonotoneOn items → index = max place.index (target.leading bias items))
  | .next => place' = place.next items
  | .prev => place' = place.prev items

/-- What a cursor shows of its place: the current item and its neighbours, and the
dimension of the items before the place. The current item's summary leads from
there to the dimension of the items up to and including it. -/
structure Shows (items : List α) (place : Place) (c : Cursor α σ δ) : Prop where
  item : c.item = place.item items
  nextItem : c.nextItem = place.nextItem items
  prevItem : c.prevItem = place.prevItem items
  start : c.start = Dimension.extent δ (items.take place.index)
  itemSummary : c.itemSummary = (place.item items).map (Option.map Item.summary)
  endPosition : ∀ index, place = .at index →
    c.endPosition .left = some (Dimension.extent δ (items.take (index + 1)))

/-- As long as the moves of a list are allowed, each of them succeeds, moves the
place, and leaves a cursor that shows the place. -/
def Simulates (items : List α) : Place → List (Move δ) → Cursor α σ δ → Prop
  | _, [], _ => True
  | place, move :: moves, c => move.Allowed items place →
    ∃ c' place', move.run c = some c' ∧ move.Moves items place place' ∧
      Shows items place' c' ∧ Simulates items place' moves c'

section Run

variable [AddMonoid σ] {root : SumTree α σ} {h : ℕ} {c : Cursor α σ δ} {place : Place}

theorem shows_of_represents (wf : SumTree.WellFormed h root)
    (hrep : c.Represents root h place) : Shows root.toList place c where
  item := hrep.item_eq wf
  nextItem := hrep.nextItem_eq wf
  prevItem := hrep.prevItem_eq wf
  start := hrep.start_eq
  itemSummary := hrep.itemSummary_eq wf
  endPosition := by
    rintro index rfl
    exact hrep.endPosition_eq wf .left

/-- One allowed move moves the place. -/
theorem run_spec (wf : SumTree.WellFormed h root) (hh : h ≤ 15)
    (hlawful : Dimension.Lawful δ root.toList) (hrep : c.Represents root h place) {move : Move δ}
    (hallowed : move.Allowed root.toList place) :
    ∃ c' place', move.run c = some c' ∧ move.Moves root.toList place place' ∧
      c'.Represents root h place' := by
  cases move with
  | seek target bias =>
    obtain ⟨c', ⟨⟩, k, hcall, hrep', -, -, hk⟩ := Cursor.seekInternal_spec target bias wf hh
      (SeekAggregate.unit_gathers _) hlawful hrep.reset (by simp) hallowed (a := ()) trivial
    refine ⟨c', .at k, by simp [run, Cursor.seek, hcall], ⟨k, hrep'.2.2.1, rfl, fun hmono => ?_⟩,
      hrep'⟩
    rw [hk hmono, Cursor.seekIndex]
    exact Nat.zero_max _
  | seekForward target bias =>
    obtain ⟨c', ⟨⟩, k, hcall, hrep', -, hle, hk⟩ := Cursor.seekInternal_spec target bias wf hh
      (SeekAggregate.unit_gathers _) hlawful hrep hallowed.1 hallowed.2 (a := ()) trivial
    exact ⟨c', .at k, by simp [run, Cursor.seekForward, hcall],
      ⟨k, hrep'.2.2.1, rfl, hle, hk⟩, hrep'⟩
  | next =>
    obtain ⟨c', hcall, hrep'⟩ := Cursor.next_spec wf hh hlawful hrep
    exact ⟨c', _, hcall, rfl, hrep'⟩
  | prev =>
    obtain ⟨c', hcall, hrep'⟩ := Cursor.prev_spec wf hh hlawful hrep
    exact ⟨c', _, hcall, rfl, hrep'⟩

/-- Every cursor that represents a place simulates the moves of the place. -/
theorem simulates_of_represents (wf : SumTree.WellFormed h root) (hh : h ≤ 15)
    (hlawful : Dimension.Lawful δ root.toList) (moves : List (Move δ))
    (hrep : c.Represents root h place) : Simulates root.toList place moves c := by
  induction moves generalizing c place with
  | nil => exact trivial
  | cons move moves ih =>
    intro hallowed
    obtain ⟨c', place', hrun, hmoves, hrep'⟩ := run_spec wf hh hlawful hrep hallowed
    exact ⟨c', place', hrun, hmoves, shows_of_represents wf hrep', ih hrep'⟩

/-- A new cursor simulates an index into the item list through any mix of moves. -/
theorem simulates_new (wf : SumTree.WellFormed h root) (hh : h ≤ 15)
    (hlawful : Dimension.Lawful δ root.toList) (moves : List (Move δ)) :
    Shows root.toList .unsought (Cursor.new root : Cursor α σ δ) ∧
      Simulates root.toList .unsought moves (Cursor.new root : Cursor α σ δ) :=
  have hrep := Cursor.new_represents root h
  ⟨shows_of_represents wf hrep, simulates_of_represents wf hh hlawful moves hrep⟩

end Run

/-- Moves to the right, to the left and off both ends of five counted numbers. -/
theorem simulates_new_countTree :
    Shows countTree.toList .unsought (Cursor.new countTree : Cursor ℕ ℕ ℕ) ∧
      Simulates countTree.toList .unsought
        [.next, .prev, .prev, .next, .seek (.ofOrd 4) .right, .next, .next, .prev]
        (Cursor.new countTree : Cursor ℕ ℕ ℕ) :=
  simulates_new countTree_wellFormed (by decide) (countDimension_lawful _) _

/-- A new cursor is not yet before the list: `item` panics instead of answering that
there is none, and `prev` moves to the last item. -/
theorem new_not_before :
    (Cursor.new countTree : Cursor ℕ ℕ ℕ).item = none ∧
      ((Cursor.new countTree : Cursor ℕ ℕ ℕ).prev.bind fun c => c.item) = some (some 14) := by
  decide

end Move

end Lucie
