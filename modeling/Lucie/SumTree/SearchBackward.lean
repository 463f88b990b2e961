import Lucie.SumTree.SearchForward

/-!
# Searching backward with a filter

`search_backward` is the mirror image of `search_forward`, but it recomputes the
position in every round: it starts from the position of the entry below the top and
adds the summaries before the index. The invariant is about the items that still
lie ahead of the walk, which are a prefix of the list.
-/

set_option autoImplicit false

namespace Lucie

variable {α σ δ : Type} [Item α σ] [Dimension δ σ]

namespace SumTree

/-- The weight of the entries of a node before `index`. -/
def weightTo : SumTree α σ → ℕ → ℕ
  | .internal _ _ _ childTrees, index => weights (childTrees.take index)
  | .leaf _ _ itemSummaries, index => (itemSummaries.take index).length

omit [Item α σ] in
theorem IsChild.weightTo_succ {parent tree : SumTree α σ} {index : ℕ}
    (h : IsChild parent index tree) :
    parent.weightTo (index + 1) = parent.weightTo index + tree.weight := by
  obtain ⟨_, _, _, childTrees, rfl, hget⟩ := h
  simp [weightTo, List.take_add_one, hget, weights_append, weights]

omit [Item α σ] in
theorem weightTo_add_two_le (tree : SumTree α σ) (index : ℕ) :
    2 + tree.weightTo index ≤ tree.weight := by
  cases tree with
  | leaf =>
    simp only [weightTo, weight, List.length_take]
    omega
  | internal _ _ _ childTrees =>
    have hsplit := congrArg weights (List.take_append_drop index childTrees)
    rw [weights_append] at hsplit
    simp only [weightTo, weight]
    omega

theorem WellFormed.weight_eq_weightTo [AddMonoid σ] {k : ℕ} {tree : SumTree α σ}
    (wf : WellFormed k tree) : tree.weight = 2 + tree.weightTo tree.width := by
  cases wf <;> simp [weight, weightTo, width]

end SumTree

/-- The last index before `stop` at which the filter accepts an item. -/
def acceptedBefore (filterNode : σ → Bool) (items : List α) : ℕ → Option ℕ
  | 0 => none
  | stop + 1 =>
    if items[stop]?.any fun item => filterNode (Item.summary item) then some stop
    else acceptedBefore filterNode items stop

/-- The index before which `search_backward` searches; a cursor that was never moved
starts from the end. -/
def Place.stop (items : List α) : Place → ℕ
  | .unsought => items.length
  | .before => 0
  | .at index => index

/-- The place of an index that was found or not. -/
def Place.ofFound : Option ℕ → Place
  | none => .before
  | some index => .at index

/-- The place to which `search_backward` moves. -/
def Place.searchBackward (filterNode : σ → Bool) (items : List α) (place : Place) : Place :=
  .ofFound (acceptedBefore filterNode items (place.stop items))

namespace Cursor

/-- The weight of what lies before the children that a stack is in. -/
def outerWeightTo : List (StackEntry α σ δ) → ℕ
  | [] => 0
  | entry :: rest => 1 + entry.tree.weightTo entry.index + outerWeightTo rest

/-- The weight of what lies ahead of a backward walk. A walk that descends has not
yet looked at the entry it sits at. -/
def backwardWeight (descending : Bool) : List (StackEntry α σ δ) → ℕ
  | [] => 0
  | entry :: rest =>
    1 + entry.tree.weightTo (if descending then entry.index + 1 else entry.index) +
      outerWeightTo rest

/-- The items `todo` lie ahead of a backward walk. -/
inductive Remains (root : SumTree α σ) (h : ℕ) (todo : List α) :
    Bool → List (StackEntry α σ δ) → Prop
  | finished {descending : Bool} (htodo : todo = []) : Remains root h todo descending []
  | back {k : ℕ} {entry : StackEntry α σ δ} {rest : List (StackEntry α σ δ)}
      (hloc : Located root h k (entry :: rest)) (htodo : todo = stackBefore (entry :: rest)) :
      Remains root h todo false (entry :: rest)
  | down {k : ℕ} {entry : StackEntry α σ δ} {rest : List (StackEntry α σ δ)}
      (hloc : Located root h k (entry :: rest)) (hlt : entry.index < entry.tree.width)
      (htodo : todo = stackBefore rest ++ entry.tree.before (entry.index + 1)) :
      Remains root h todo true (entry :: rest)

/-- The progress of a backward search from index `stop`: `todo` lies ahead of it, and
the filter rejects every item it went past. -/
structure Rejected (filterNode : σ → Bool) (items : List α) (stop : ℕ) (todo : List α) :
    Prop where
  isPrefix : todo <+: items
  le_stop : todo.length ≤ stop
  rejects : ∀ i item, todo.length ≤ i → i < stop → items[i]? = some item →
    filterNode (Item.summary item) = false

namespace Rejected

variable {filterNode : σ → Bool} {items todo run : List α} {stop : ℕ}

/-- A search can go past a rejected run at the end of what lies ahead. -/
theorem shrink (hreject : Rejected filterNode items stop (todo ++ run))
    (hrun : ∀ item ∈ run, filterNode (Item.summary item) = false) :
    Rejected filterNode items stop todo := by
  obtain ⟨⟨rest, rfl⟩, hle, hrejects⟩ := hreject
  rw [List.length_append] at hle hrejects
  refine ⟨⟨run ++ rest, by rw [List.append_assoc]⟩, by omega, fun i item hi hstop hget => ?_⟩
  by_cases hlt : i < todo.length + run.length
  · rw [List.append_assoc, List.getElem?_append_right hi,
      List.getElem?_append_left (by omega)] at hget
    exact hrun item (List.mem_of_getElem? hget)
  · exact hrejects i item (by omega) hstop hget

/-- What a backward search finds is determined by what lies ahead of it. -/
theorem acceptedBefore_eq (hreject : Rejected filterNode items stop todo) :
    acceptedBefore filterNode items stop = acceptedBefore filterNode items todo.length := by
  obtain ⟨-, hle, hrejects⟩ := hreject
  induction stop with
  | zero => rw [Nat.le_zero.mp hle]
  | succ stop ih =>
    rcases Nat.lt_or_ge stop todo.length with hlt | hge
    · rw [show todo.length = stop + 1 by omega]
    · have hstop : ¬ (items[stop]?.any fun item => filterNode (Item.summary item)) = true := by
        cases hget : items[stop]? with
        | none => simp
        | some item => simp [hrejects stop item hge (Nat.lt_succ_self _) hget]
      rw [acceptedBefore, if_neg hstop]
      exact ih hge fun i item hi hlt => hrejects i item hi (by omega)

end Rejected

section Loop

variable {filterNode : σ → Bool} {root : SumTree α σ} {h stop : ℕ}

/-- The invariant of a backward search from index `stop`. -/
def SearchBackwardInv (filterNode : σ → Bool) (root : SumTree α σ) (h stop : ℕ)
    (s : List (StackEntry α σ δ) × δ × Bool) : Prop :=
  ∃ todo, Rejected filterNode root.toList stop todo ∧
    (s.1 = [] → s.2.1 = Dimension.zero) ∧ Remains root h todo s.2.2 s.1

/-- What a backward search from index `stop` ends with: nothing ahead, or an
accepted item. -/
def SearchBackwardPost (filterNode : σ → Bool) (root : SumTree α σ) (h stop : ℕ)
    (r : List (StackEntry α σ δ) × δ) : Prop :=
  (Rejected filterNode root.toList stop [] ∧ r.1 = [] ∧ r.2 = Dimension.zero) ∨
    ∃ done item, Rejected filterNode root.toList stop (done ++ [item]) ∧
      filterNode (Item.summary item) = true ∧ SitsAt root h done r.1 ∧ r.1 ≠ [] ∧
      r.2 = Dimension.extent δ done

/-- The position from which a round starts is that of the items before the node. -/
theorem Located.outerPosition {k : ℕ} {entry : StackEntry α σ δ}
    {rest : List (StackEntry α σ δ)} (hloc : Located root h k (entry :: rest)) :
    Cursor.outerPosition rest = Dimension.extent δ (stackBefore rest) := by
  cases hloc with
  | root => rfl
  | child _ _ hposition => exact hposition

/-- A backward walk that has looked at all entries of a node goes on above it. -/
theorem Located.remains_rest {k : ℕ} {entry : StackEntry α σ δ}
    {rest : List (StackEntry α σ δ)} (hloc : Located root h k (entry :: rest)) :
    Remains root h (stackBefore rest) false rest := by
  cases hloc with
  | root => exact .finished rfl
  | child hparent => exact .back hparent rfl

theorem Remains.todo_eq {todo : List α} {descending : Bool}
    (hrem : Remains root h todo descending ([] : List (StackEntry α σ δ))) : todo = [] := by
  cases hrem
  assumption

/-- The entry that a round of a backward walk looks at. -/
theorem Remains.entered {todo : List α} {descending : Bool} {entry : StackEntry α σ δ}
    {rest : List (StackEntry α σ δ)} (hrem : Remains root h todo descending (entry :: rest))
    (hpop : ¬ (descending = false ∧ entry.index = 0)) :
    ∃ k index, index = (if descending = true then entry.index else entry.index - 1) ∧
      Located root h k (entry :: rest) ∧ index < entry.tree.width ∧
      todo = stackBefore rest ++ entry.tree.before (index + 1) ∧
      entry.tree.weightTo (index + 1) =
        entry.tree.weightTo (if descending = true then entry.index + 1 else entry.index) := by
  cases hrem with
  | back hloc htodo =>
    have hpos : 0 < entry.index := Nat.pos_of_ne_zero fun hzero => hpop ⟨rfl, hzero⟩
    have hle := hloc.index_le
    refine ⟨_, entry.index - 1, by simp, hloc, by omega, ?_, ?_⟩
    · rw [Nat.sub_add_cancel hpos, htodo, stackBefore]
    · rw [Nat.sub_add_cancel hpos, if_neg (by simp)]
  | down hloc hlt htodo => exact ⟨_, entry.index, by simp, hloc, hlt, htodo, by simp⟩

omit [Item α σ] [Dimension δ σ] in
theorem backwardWeight_back (stack : List (StackEntry α σ δ)) :
    backwardWeight false stack = outerWeightTo stack := by
  cases stack <;> simp [backwardWeight, outerWeightTo]

/-- A round that has nothing left to look at in a node pops it. -/
theorem searchBackwardRound_pop {todo : List α} {entry : StackEntry α σ δ}
    {rest : List (StackEntry α σ δ)} {position : δ} {descending : Bool}
    (hreject : Rejected filterNode root.toList stop todo)
    (hrem : Remains root h todo descending (entry :: rest))
    (hpop : descending = false ∧ entry.index = 0) :
    Foundation.Advances (SearchBackwardInv filterNode root h stop)
      (fun s => backwardWeight s.2.2 s.1) (SearchBackwardPost filterNode root h stop)
      (backwardWeight descending (entry :: rest))
      (searchBackwardRound filterNode (entry :: rest, position, descending)) := by
  obtain ⟨rfl, hzero⟩ := hpop
  cases hrem with
  | back hloc htodo =>
    rw [stackBefore, hzero, SumTree.before_zero, List.append_nil] at htodo
    rw [searchBackwardRound, if_pos ⟨rfl, hzero⟩, hloc.outerPosition]
    refine ⟨⟨todo, hreject, fun hnil => ?_, htodo ▸ hloc.remains_rest⟩, ?_⟩
    · simp only at hnil
      rw [hnil]
      rfl
    · show backwardWeight false rest < _
      rw [backwardWeight_back, backwardWeight]
      omega

variable [AddMonoid σ]

/-- A round at an internal node descends into the child it looks at or goes past it. -/
theorem searchBackwardRound_internal (wf : SumTree.WellFormed h root) (hh : h ≤ 15)
    (hlawful : Dimension.Lawful δ root.toList) (hsound : FilterSound filterNode root)
    {k j : ℕ} {childTrees : List (SumTree α σ)} {rest : List (StackEntry α σ δ)} {p position : δ}
    {todo : List α} {descending : Bool} (hreject : Rejected filterNode root.toList stop todo)
    (hrem : Remains root h todo descending (⟨SumTree.parentOf k childTrees, j, p⟩ :: rest))
    (hpop : ¬ (descending = false ∧ j = 0)) :
    Foundation.Advances (SearchBackwardInv filterNode root h stop)
      (fun s => backwardWeight s.2.2 s.1) (SearchBackwardPost filterNode root h stop)
      (backwardWeight descending (⟨SumTree.parentOf k childTrees, j, p⟩ :: rest))
      (searchBackwardRound filterNode
        (⟨SumTree.parentOf k childTrees, j, p⟩ :: rest, position, descending)) := by
  obtain ⟨k', index, hindex, hloc, hlt, htodo, hweight⟩ := hrem.entered hpop
  simp only at hindex hlt htodo hweight
  have hwf := hloc.wellFormed wf
  obtain rfl : k' = k + 1 := (hwf.height_eq).symm
  have hrow := hwf.row
  replace hlt : index < childTrees.length := hlt
  have hget : childTrees[index]? = some childTrees[index] := List.getElem?_eq_getElem hlt
  have hchild : (SumTree.parentOf k childTrees).IsChild index childTrees[index] :=
    ⟨_, _, _, _, rfl, hget⟩
  obtain ⟨wfChild, hneChild⟩ := hchild.wellFormed hwf
  have hloc' : Located root h (k + 1) (⟨SumTree.parentOf k childTrees, index,
      Dimension.extent δ (stackBefore rest ++ SumTree.toLists (childTrees.take index))⟩ :: rest) :=
    hloc.setTop hlt.le
  have hpre : stackBefore rest ++ SumTree.toLists (childTrees.take index) <+: root.toList :=
    ⟨_, hloc'.contents.symm⟩
  have hposition := foldl_children hlawful (hrow.take index) hpre
  rw [← hloc.outerPosition, List.map_take] at hposition
  rw [hchild.before_succ, ← List.append_assoc] at htodo
  rw [hchild.weightTo_succ] at hweight
  have hsummaries : (SumTree.parentOf k childTrees).childSummaries =
      childTrees.map SumTree.summary := rfl
  rw [searchBackwardRound, if_neg hpop, backwardWeight, ← hweight]
  simp only [← hindex, hsummaries, List.length_map]
  rw [if_neg (by omega), hposition]
  simp only [List.getElem?_map, hget, Option.map_some]
  have hpos := SumTree.width_pos hneChild
  by_cases haccept : filterNode childTrees[index].summary = true
  · simp only [haccept, if_true, wfChild.childSummaries_length, if_neg hpos.ne',
      hloc'.pushEntry hh, Option.bind_eq_bind, Option.bind_some]
    refine ⟨⟨todo, hreject, by simp, .down (.child hloc' hchild rfl (Nat.sub_le _ _))
      (Nat.sub_lt hpos Nat.one_pos) ?_⟩, ?_⟩
    · rw [Nat.sub_add_cancel hpos, SumTree.before_width, htodo]
      rfl
    · simp only [backwardWeight, outerWeightTo, if_true, Nat.sub_add_cancel hpos,
        wfChild.weight_eq_weightTo]
      omega
  · simp only [haccept]
    rw [htodo] at hreject
    refine ⟨⟨_, hreject.shrink ?_, by simp, .back hloc' rfl⟩, ?_⟩
    · exact hsound.rejects (.child hloc.hasNode hchild) (by simpa using haccept)
    · simp only [backwardWeight, Bool.false_eq_true, if_false, childTrees[index].weight_eq]
      omega

omit [AddMonoid σ] in
/-- A round at a leaf stops at the item it looks at or goes past it. -/
theorem searchBackwardRound_leaf {total : σ} {items : List α} {j : ℕ}
    {rest : List (StackEntry α σ δ)} {p position : δ} {todo : List α} {descending : Bool}
    (hreject : Rejected filterNode root.toList stop todo)
    (hloc₀ : Located root h 0 (⟨.leaf total items (items.map Item.summary), j, p⟩ :: rest))
    (hrem : Remains root h todo descending
      (⟨.leaf total items (items.map Item.summary), j, p⟩ :: rest))
    (hpop : ¬ (descending = false ∧ j = 0)) :
    Foundation.Advances (SearchBackwardInv filterNode root h stop)
      (fun s => backwardWeight s.2.2 s.1) (SearchBackwardPost filterNode root h stop)
      (backwardWeight descending (⟨.leaf total items (items.map Item.summary), j, p⟩ :: rest))
      (searchBackwardRound filterNode
        (⟨.leaf total items (items.map Item.summary), j, p⟩ :: rest, position, descending)) := by
  obtain ⟨-, index, hindex, -, hlt, htodo, hweight⟩ := hrem.entered hpop
  simp only at hindex hlt htodo hweight
  replace hlt : index < items.length := hlt
  have hget : items[index]? = some items[index] := List.getElem?_eq_getElem hlt
  have hloc : Located root h 0 (⟨.leaf total items (items.map Item.summary), index,
      Dimension.extent δ (stackBefore rest ++ items.take index)⟩ :: rest) :=
    hloc₀.setTop hlt.le
  have hposition := foldl_items (δ := δ) (stackBefore rest) (items.take index)
  rw [← hloc.outerPosition, List.map_take] at hposition
  have hsummaries : (SumTree.leaf total items (items.map Item.summary)).childSummaries =
      items.map Item.summary := rfl
  rw [SumTree.before, List.take_add_one, hget, Option.toList_some, ← List.append_assoc] at htodo
  rw [searchBackwardRound, if_neg hpop, backwardWeight, ← hweight]
  simp only [← hindex, hsummaries, List.length_map]
  rw [if_neg (by omega), hposition]
  simp only [List.getElem?_map, hget, Option.map_some]
  by_cases haccept : filterNode (Item.summary items[index]) = true
  · simp only [haccept, if_true]
    exact .inr ⟨_, _, htodo ▸ hreject, haccept, .atItem hloc hlt rfl, by simp, rfl⟩
  · simp only [haccept]
    rw [htodo] at hreject
    refine ⟨⟨_, hreject.shrink (by simpa using haccept), by simp, .back hloc rfl⟩, ?_⟩
    show backwardWeight false _ < _
    rw [backwardWeight_back, outerWeightTo]
    simp only [SumTree.weightTo, List.length_take, List.length_map]
    omega

/-- A backward search stops at the last accepted item ahead of it. -/
theorem searchBackwardLoop_spec (wf : SumTree.WellFormed h root) (hh : h ≤ 15)
    (hlawful : Dimension.Lawful δ root.toList) (hsound : FilterSound filterNode root)
    {s : List (StackEntry α σ δ) × δ × Bool} (hinv : SearchBackwardInv filterNode root h stop s)
    {fuel : ℕ} (hfuel : backwardWeight s.2.2 s.1 < fuel) :
    ∃ r, Foundation.loop (searchBackwardRound filterNode) fuel s = some r ∧
      SearchBackwardPost filterNode root h stop r := by
  refine Foundation.loop_of_advances (SearchBackwardInv filterNode root h stop)
    (fun s => backwardWeight s.2.2 s.1) ?_ hinv hfuel
  rintro ⟨stack, position, descending⟩ ⟨todo, hreject, hzero, hrem⟩
  cases stack with
  | nil =>
    obtain rfl : todo = [] := hrem.todo_eq
    exact .inl ⟨hreject, rfl, hzero rfl⟩
  | cons entry rest =>
    by_cases hpop : descending = false ∧ entry.index = 0
    · exact searchBackwardRound_pop hreject hrem hpop
    · obtain ⟨k, -, -, hloc, -⟩ := hrem.entered hpop
      have hwf := hloc.wellFormed wf
      obtain ⟨tree, index, p⟩ := entry
      cases hwf with
      | leaf => exact searchBackwardRound_leaf hreject hloc hrem hpop
      | internal => exact searchBackwardRound_internal wf hh hlawful hsound hreject hrem hpop

omit [AddMonoid σ] in
/-- Every backward walk along a path is lighter than the root. -/
theorem Located.backwardWeight_lt {k : ℕ} {stack : List (StackEntry α σ δ)}
    (hloc : Located root h k stack) : backwardWeight false stack < root.weight := by
  have hkey : ∀ entry rest, stack = entry :: rest →
      entry.tree.weight + outerWeightTo rest ≤ root.weight := by
    induction hloc with
    | root =>
      rintro _ _ ⟨⟩
      simp [outerWeightTo]
    | @child k index parent rest tree position _ hchild _ _ ih =>
      rintro _ _ ⟨⟩
      have hparent := ih _ _ rfl
      have hweight := hchild.weightTo_succ
      have hle := parent.tree.weightTo_add_two_le (parent.index + 1)
      simp only [outerWeightTo]
      omega
  cases stack with
  | nil => cases hloc
  | cons entry rest =>
    have htop := hkey entry rest rfl
    have hle := entry.tree.weightTo_add_two_le entry.index
    rw [backwardWeight_back, outerWeightTo]
    omega

/-- The place that the result of a backward search from index `stop` represents. -/
theorem SearchBackwardPost.represents (wf : SumTree.WellFormed h root)
    {r : List (StackEntry α σ δ) × δ} (hpost : SearchBackwardPost filterNode root h stop r) :
    Represents root h ⟨root, r.1, r.2, true, root.isEmpty⟩
      (.ofFound (acceptedBefore filterNode root.toList stop)) := by
  obtain ⟨stack, position⟩ := r
  rcases hpost with ⟨hreject, rfl, rfl⟩ | ⟨done, item, hreject, haccept, hsits, hne, rfl⟩
  · rw [hreject.acceptedBefore_eq]
    exact ⟨rfl, rfl, rfl, rfl, rfl⟩
  · obtain ⟨rest, hrest⟩ := hreject.isPrefix
    have hget : root.toList[done.length]? = some item := by simp [← hrest]
    have hdone : root.toList.take done.length = done := by simp [← hrest]
    have hlt := (List.getElem?_eq_some_iff.mp hget).1
    have hempty := wf.isEmpty_eq_false hget
    rw [hreject.acceptedBefore_eq, List.length_append, List.length_singleton, acceptedBefore,
      if_pos (by simpa [hget] using haccept), Place.ofFound]
    exact ⟨rfl, rfl, hlt.le, hdone.symm ▸ hsits, by rw [hdone],
      by cases stack <;> simp_all⟩

omit [AddMonoid σ] in
/-- With nothing before it, a backward search is over. -/
theorem searchBackwardInv_nil :
    SearchBackwardInv filterNode root h 0 (([] : List (StackEntry α σ δ)), Dimension.zero, false) :=
  ⟨[], ⟨List.nil_prefix, Nat.le_refl _, fun i _ _ hlt => absurd hlt (Nat.not_lt_zero i)⟩,
    fun _ => rfl, .finished rfl⟩

/-- From the end, a backward search starts behind the last entry of the root. -/
theorem searchBackwardStart_atEnd (wf : SumTree.WellFormed h root) {c : Cursor α σ δ}
    (htree : c.tree = root) (hstack : c.stack = [])
    (hend : (if c.didSeek then c.atEnd else true) = true) :
    ∃ stack position, c.searchBackwardStart = some (stack, position, root.isEmpty) ∧
      SearchBackwardInv filterNode root h root.toList.length (stack, position, false) := by
  rw [searchBackwardStart, hend, if_pos rfl, htree, hstack]
  cases hempty : root.isEmpty with
  | true =>
    rw [wf.isEmpty_iff.mp hempty]
    exact ⟨[], Dimension.zero, rfl, searchBackwardInv_nil⟩
  | false =>
    refine ⟨[⟨root, root.childSummaries.length, Dimension.addSummary Dimension.zero root.summary⟩],
      Dimension.zero, rfl, root.toList, ⟨List.prefix_refl _, Nat.le_refl _, ?_⟩, by simp, ?_⟩
    · exact fun i _ hle hlt => absurd hlt (by omega)
    · rw [wf.childSummaries_length]
      exact .back (.root (Nat.le_refl _)) (by simp [stackBefore])

/-- A backward search starts with all items before the place ahead of it. -/
theorem Represents.searchBackwardStart_eq (wf : SumTree.WellFormed h root) {c : Cursor α σ δ}
    {place : Place} (hrep : Represents root h c place) :
    ∃ stack position, c.searchBackwardStart = some (stack, position, root.isEmpty) ∧
      SearchBackwardInv filterNode root h (place.stop root.toList) (stack, position, false) := by
  cases place with
  | unsought =>
    obtain ⟨htree, hseek, hstack, -, -⟩ := hrep
    exact searchBackwardStart_atEnd wf htree hstack (by simp [hseek])
  | before =>
    obtain ⟨htree, hseek, hstack, hposition, hend⟩ := hrep
    cases hempty : root.isEmpty with
    | true =>
      have hstart : ∃ stack position, c.searchBackwardStart = some (stack, position, root.isEmpty) ∧
          SearchBackwardInv filterNode root h root.toList.length (stack, position, false) :=
        searchBackwardStart_atEnd wf htree hstack (by simp [hseek, hend, hempty])
      rwa [wf.isEmpty_iff.mp hempty, hempty] at hstart
    | false =>
      refine ⟨[], Dimension.zero, ?_, searchBackwardInv_nil⟩
      simp [searchBackwardStart, hseek, hend, hempty, hstack, hposition]
  | «at» index =>
    have hobserve := hrep.observe wf
    obtain ⟨htree, hseek, hle, hsits, hposition, hend⟩ := hrep
    rcases hobserve with ⟨hstack, hget⟩ | ⟨entry, rest, -, item, hstack, -, -, hget⟩
    · have hindex : index = root.toList.length :=
        Nat.le_antisymm hle (List.getElem?_eq_none_iff.mp hget)
      rw [Place.stop, hindex]
      exact searchBackwardStart_atEnd wf htree hstack (by simp [hseek, hend, hstack])
    · rw [hstack] at hsits hend
      cases hsits with
      | atItem hloc _ hdone =>
        refine ⟨entry :: rest, c.position, ?_, root.toList.take index,
          ⟨List.take_prefix _ _, List.length_take_le _ _, ?_⟩, by simp, .back hloc hdone⟩
        · simp [searchBackwardStart, hseek, hend, hstack, wf.isEmpty_eq_false hget]
        · rw [List.length_take_of_le hle]
          exact fun i _ hge (hlt : i < index) => absurd hlt (by omega)

/-- A backward search moves to the last accepted item before the place. -/
theorem searchBackward_spec (wf : SumTree.WellFormed h root) (hh : h ≤ 15)
    (hlawful : Dimension.Lawful δ root.toList) (hsound : FilterSound filterNode root)
    {c : Cursor α σ δ} {place : Place} (hrep : Represents root h c place) :
    ∃ c', searchBackward filterNode c = some c' ∧
      Represents root h c' (place.searchBackward filterNode root.toList) := by
  obtain ⟨stack, position, hstart, hinv⟩ : ∃ stack position,
      c.searchBackwardStart = some (stack, position, root.isEmpty) ∧ SearchBackwardInv filterNode
        root h (place.stop root.toList) (stack, position, false) := hrep.searchBackwardStart_eq wf
  have hweight : backwardWeight false stack < root.weight := by
    obtain ⟨todo, -, -, hrem⟩ := hinv
    cases hrem with
    | finished => simp only [backwardWeight, SumTree.weight_eq]; omega
    | back hloc => exact hloc.backwardWeight_lt
  obtain ⟨r, hloop, hpost⟩ := searchBackwardLoop_spec wf hh hlawful hsound hinv hweight
  refine ⟨_, ?_, hpost.represents wf⟩
  simp [searchBackward, hstart, hrep.tree_eq, hloop]

end Loop

end Cursor

end Lucie
