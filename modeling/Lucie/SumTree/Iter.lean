import Lucie.SumTree.CursorStack

/-!
# Iterating over a tree

An iterator keeps the nodes between the root and a leaf, with the entry of each one at which it is.
The root is pushed by the first call. Each call goes on behind the entry at the top, pops what is
used up and descends into the next child, so the items that are left are those behind the entries of
the stack. Two trees are compared by their iterators, whatever their shapes.
-/

set_option autoImplicit false

namespace Lucie

open Foundation

variable {α σ : Type}

/-- `Iter`. -/
structure Iter (α σ : Type) where
  tree : SumTree α σ
  stack : List (StackEntry α σ Unit)

namespace Iter

/-- `Iter::new`. -/
def new (tree : SumTree α σ) : Iter α σ := ⟨tree, []⟩

/-- One round of the loop of `Iter::next`: the stack and whether the round before descended. -/
def nextRound : List (StackEntry α σ Unit) × Bool →
    Option (Round (List (StackEntry α σ Unit) × Bool)
      (Option α × List (StackEntry α σ Unit)))
  | ([], _) => some (.done (none, []))
  | (⟨tree, index, position⟩ :: rest, descend) =>
    let index := if descend then index else index + 1
    match tree with
    | .internal _ _ _ childTrees =>
      match childTrees[index]? with
      | some subtree => do
        let stack ← Cursor.pushEntry (⟨tree, index, position⟩ :: rest) ⟨subtree, 0, ()⟩
        some (.next (stack, true))
      | none => some (.next (rest, false))
    | .leaf _ items _ =>
      match items[index]? with
      | some nextItem => some (.done (some nextItem, ⟨tree, index, position⟩ :: rest))
      | none => some (.next (rest, false))

/-- The stack with which `Iter::next` starts, and whether it descends first. -/
def start (it : Iter α σ) : Option (List (StackEntry α σ Unit) × Bool) :=
  if it.stack.isEmpty then do
    let stack ← Cursor.pushEntry it.stack ⟨it.tree, 0, ()⟩
    some (stack, true)
  else some (it.stack, false)

/-- `Iter::next`. -/
def next (it : Iter α σ) : Option (Option α × Iter α σ) := do
  let s ← it.start
  let (item, stack) ← loop nextRound it.tree.weight s
  some (item, { it with stack })

/-- What a number of calls return. -/
def results : ℕ → Iter α σ → Option (List (Option α) × Iter α σ)
  | 0, it => some ([], it)
  | calls + 1, it => do
    let (item, it) ← it.next
    let (items, it) ← results calls it
    some (item :: items, it)

/-- `Iterator::eq`, as far as the fuel goes. -/
def eq [BEq α] : ℕ → Iter α σ → Iter α σ → Option Bool
  | 0, _, _ => none
  | fuel + 1, it, other => do
    let (item, it) ← it.next
    let (otherItem, other) ← other.next
    match item, otherItem with
    | none, none => some true
    | some item, some otherItem => if item == otherItem then eq fuel it other else some false
    | _, _ => some false

end Iter

/-- `PartialEq::eq` of two trees. -/
def SumTree.eq [BEq α] (fuel : ℕ) (tree other : SumTree α σ) : Option Bool :=
  Iter.eq fuel (Iter.new tree) (Iter.new other)

/-! ## What is left -/

/-- The contents of the entries of a node from `index` on. -/
def SumTree.toListFrom : SumTree α σ → ℕ → List α
  | .internal _ _ _ childTrees, index => toLists (childTrees.drop index)
  | .leaf _ items _, index => items.drop index

theorem SumTree.toListFrom_zero (tree : SumTree α σ) : tree.toListFrom 0 = tree.toList := by
  cases tree with
  | internal height summary childSummaries childTrees => simp [toListFrom]
  | leaf summary items itemSummaries => simp [toListFrom]

theorem SumTree.IsChild.toListFrom_eq {parent tree : SumTree α σ} {index : ℕ}
    (h : IsChild parent index tree) :
    parent.toListFrom index = tree.toList ++ parent.toListFrom (index + 1) := by
  obtain ⟨_, _, _, childTrees, rfl, hget⟩ := h
  obtain ⟨hlt, rfl⟩ := List.getElem?_eq_some_iff.mp hget
  simp only [toListFrom]
  rw [List.drop_eq_getElem_cons hlt, toLists_cons]

namespace Iter

/-- The items behind the entries of a stack. -/
def behind (stack : List (StackEntry α σ Unit)) : List α :=
  stack.flatMap fun entry => entry.tree.toListFrom (entry.index + 1)

/-- A bound on the rounds for them. -/
def behindWeight (stack : List (StackEntry α σ Unit)) : ℕ :=
  (stack.map fun entry => 1 + entry.tree.weightFrom (entry.index + 1)).sum

/-- The items that are left for a round. -/
def left : List (StackEntry α σ Unit) × Bool → List α
  | ([], _) => []
  | (entry :: rest, descend) =>
    entry.tree.toListFrom (if descend then entry.index else entry.index + 1) ++ behind rest

/-- A bound on the rounds that are left. -/
def leftWeight : List (StackEntry α σ Unit) × Bool → ℕ
  | ([], _) => 0
  | (entry :: rest, descend) =>
    1 + entry.tree.weightFrom (if descend then entry.index else entry.index + 1) +
      behindWeight rest

@[simp] theorem left_false (stack : List (StackEntry α σ Unit)) :
    left (stack, false) = behind stack := by
  cases stack with
  | nil => rfl
  | cons entry rest => rfl

@[simp] theorem leftWeight_false (stack : List (StackEntry α σ Unit)) :
    leftWeight (stack, false) = behindWeight stack := by
  cases stack with
  | nil => rfl
  | cons entry rest => rfl

variable [AddMonoid σ] [Item α σ]

/-- Between the rounds the stack goes down from the root, and the items are left. -/
structure Leaves (root : SumTree α σ) (h : ℕ) (xs : List α)
    (s : List (StackEntry α σ Unit) × Bool) : Prop where
  within : Cursor.WithinHeight h s.1
  items : left s = xs
  weight : leftWeight s < root.weight

/-- A call has returned the first item, if there was one. The others are behind the stack, which is
not empty then. -/
structure Yields (root : SumTree α σ) (h : ℕ) (xs : List α)
    (r : Option α × List (StackEntry α σ Unit)) : Prop where
  item : r.1 = xs.head?
  stack : r.1.isSome → r.2 ≠ []
  leaves : Leaves root h xs.tail (r.2, false)

/-! ## One round -/

variable {root : SumTree α σ} {h : ℕ} {xs : List α}

/-- The entry at the top has moved to where the round looks. -/
theorem Leaves.move {tree : SumTree α σ} {index : ℕ} {position : Unit} {descend : Bool}
    {rest : List (StackEntry α σ Unit)}
    (hs : Leaves root h xs (⟨tree, index, position⟩ :: rest, descend)) :
    Leaves root h xs
      (⟨tree, if descend then index else index + 1, position⟩ :: rest, true) where
  within := Cursor.WithinHeight.keptByWalks.move hs.within
  items := hs.items
  weight := hs.weight

/-- What is used up is popped. -/
theorem Leaves.pop {entry : StackEntry α σ Unit} {rest : List (StackEntry α σ Unit)}
    (hs : Leaves root h xs (entry :: rest, true))
    (hempty : entry.tree.toListFrom entry.index = []) :
    Leaves root h xs (rest, false) ∧
      leftWeight (rest, false) < leftWeight (entry :: rest, true) := by
  have hlt : behindWeight rest < leftWeight (entry :: rest, true) := by
    simp only [leftWeight, if_true]
    omega
  have hitems := hs.items
  simp only [left, if_true, hempty, List.nil_append] at hitems
  rw [leftWeight_false]
  refine ⟨⟨Cursor.WithinHeight.keptByWalks.tail hs.within, ?_, ?_⟩, hlt⟩
  · rw [left_false, hitems]
  · rw [leftWeight_false]
    exact hlt.trans hs.weight

/-- The next child is pushed. -/
theorem Leaves.descend {height : ℕ} {summary : σ} {childSummaries : List σ}
    {childTrees : List (SumTree α σ)} {index : ℕ} {position : Unit}
    {rest : List (StackEntry α σ Unit)} {subtree : SumTree α σ}
    (hs : Leaves root h xs
      (⟨.internal height summary childSummaries childTrees, index, position⟩ :: rest, true))
    (hget : childTrees[index]? = some subtree) :
    Leaves root h xs (⟨subtree, 0, ()⟩ ::
        ⟨.internal height summary childSummaries childTrees, index, position⟩ :: rest, true) ∧
      leftWeight (⟨subtree, 0, ()⟩ ::
          ⟨.internal height summary childSummaries childTrees, index, position⟩ :: rest, true) <
        leftWeight (⟨.internal height summary childSummaries childTrees, index, position⟩ :: rest,
          true) := by
  have hpush : Cursor.WithinHeight h (⟨subtree, 0, ()⟩ ::
      ⟨.internal height summary childSummaries childTrees, index, position⟩ :: rest) :=
    Cursor.WithinHeight.keptByWalks.push hs.within (List.mem_of_getElem? hget)
  have hitems := hs.items
  have hroot := hs.weight
  have hchild : SumTree.IsChild (.internal height summary childSummaries childTrees) index
      subtree := ⟨height, summary, childSummaries, childTrees, rfl, hget⟩
  generalize SumTree.internal height summary childSummaries childTrees = tree at *
  have hweight := subtree.weight_eq
  have hsplit := hchild.weightFrom_eq
  have hlt : leftWeight (⟨subtree, 0, ()⟩ :: ⟨tree, index, position⟩ :: rest, true) <
      leftWeight (⟨tree, index, position⟩ :: rest, true) := by
    simp only [leftWeight, behindWeight, if_true, List.map_cons, List.sum_cons]
    omega
  refine ⟨⟨hpush, ?_, hlt.trans hroot⟩, hlt⟩
  simp only [left, if_true, hchild.toListFrom_eq] at hitems
  simp only [left, behind, if_true, SumTree.toListFrom_zero, List.flatMap_cons]
  rwa [← List.append_assoc]

/-- A round goes on with the same items left, or returns the first of them. -/
theorem nextRound_advances (hh : h ≤ 15) {s : List (StackEntry α σ Unit) × Bool}
    (hs : Leaves root h xs s) :
    Advances (Leaves root h xs) leftWeight (Yields root h xs) (leftWeight s) (nextRound s) := by
  obtain ⟨stack, descend⟩ := s
  cases stack with
  | nil =>
    obtain rfl : [] = xs := hs.items
    exact ⟨rfl, fun hsome => absurd hsome Bool.false_ne_true, hs.within, rfl, hs.weight⟩
  | cons entry rest =>
    obtain ⟨tree, index, position⟩ := entry
    have hmove := hs.move
    have hweight :
        leftWeight (⟨tree, if descend then index else index + 1, position⟩ :: rest, true) =
          leftWeight (⟨tree, index, position⟩ :: rest, descend) := rfl
    rw [← hweight]
    unfold nextRound
    dsimp only
    generalize (if descend then index else index + 1) = index' at hmove
    cases tree with
    | internal height summary childSummaries childTrees =>
      dsimp only
      cases hget : childTrees[index']? with
      | some subtree =>
        have hlength := hmove.within.length_le rfl
        dsimp only
        rw [Cursor.pushEntry, if_pos (by omega)]
        exact hmove.descend hget
      | none =>
        have hempty : childTrees.drop index' = [] :=
          List.drop_eq_nil_iff.mpr (List.getElem?_eq_none_iff.mp hget)
        exact hmove.pop (by simp only [SumTree.toListFrom, hempty, SumTree.toLists_nil])
    | leaf summary items itemSummaries =>
      dsimp only
      cases hget : items[index']? with
      | some nextItem =>
        have hdrop : items.drop index' = nextItem :: items.drop (index' + 1) := by
          obtain ⟨hlt, rfl⟩ := List.getElem?_eq_some_iff.mp hget
          exact List.drop_eq_getElem_cons hlt
        have hitems := hmove.items
        simp only [left, SumTree.toListFrom, hdrop, if_true, List.cons_append] at hitems
        have hle := SumTree.weightFrom_le (.leaf summary items itemSummaries)
          (Nat.le_add_right index' 1)
        have hroot := hmove.weight
        subst hitems
        refine ⟨rfl, fun _ => List.cons_ne_nil _ _, hmove.within, ?_, ?_⟩
        · rw [left_false]
          rfl
        · simp only [leftWeight, if_true] at hroot
          rw [leftWeight_false, behindWeight, List.map_cons, List.sum_cons]
          unfold behindWeight at hroot
          dsimp only
          omega
      | none =>
        exact hmove.pop (List.drop_eq_nil_iff.mpr (List.getElem?_eq_none_iff.mp hget))

/-! ## The calls -/

/-- Between the calls the iterator is at the beginning, or the items are left behind its stack. -/
structure Iterates (h : ℕ) (it : Iter α σ) (xs : List α) : Prop where
  wf : it.tree.WellFormed h
  within : Cursor.WithinHeight h it.stack
  items : (if it.stack.isEmpty then it.tree.toList else behind it.stack) = xs
  weight : behindWeight it.stack < it.tree.weight

theorem iterates_new {tree : SumTree α σ} (wf : tree.WellFormed h) :
    Iterates h (new tree) tree.toList where
  wf := wf
  within := ⟨Nat.zero_le _, trivial⟩
  items := rfl
  weight := by
    have hweight := tree.weight_eq
    have hzero : behindWeight (new tree).stack = 0 := rfl
    rw [hzero]
    exact (by omega : 0 < tree.weight)

variable {it : Iter α σ}

/-- A call starts with the items that are left. -/
theorem Iterates.start (hit : Iterates h it xs) : ∃ s, it.start = some s ∧
    Leaves it.tree h xs s := by
  obtain ⟨tree, stack⟩ := it
  have hitems := hit.items
  have hweight := hit.weight
  cases stack with
  | nil =>
    have hroot := tree.weight_eq
    refine ⟨([⟨tree, 0, ()⟩], true), rfl, .singleton hit.wf 0 (), ?_, ?_⟩
    · simpa [left, behind, SumTree.toListFrom_zero] using hitems
    · simp only [leftWeight, behindWeight, if_true, List.map_nil, List.sum_nil]
      omega
  | cons entry rest =>
    refine ⟨(entry :: rest, false), rfl, hit.within, ?_, ?_⟩
    · rw [left_false]
      exact hitems
    · rw [leftWeight_false]
      exact hweight

/-- A call returns the next item, and afterwards the others are left. -/
theorem next_spec (hh : h ≤ 15) (hit : Iterates h it xs) :
    ∃ it', it.next = some (xs.head?, it') ∧ (xs ≠ [] → Iterates h it' xs.tail) := by
  obtain ⟨s, hstart, hs⟩ := hit.start
  obtain ⟨⟨item, stack⟩, hloop, hitem, hstack, hleaves⟩ :=
    loop_of_advances (Leaves it.tree h xs) leftWeight (fun _ hs => nextRound_advances hh hs) hs
      hs.weight
  obtain rfl : item = xs.head? := hitem
  refine ⟨{ it with stack }, ?_, fun hne => ⟨hit.wf, hleaves.within, ?_, ?_⟩⟩
  · rw [next, hstart, Option.bind_eq_bind, Option.bind_some, hloop]
    rfl
  · have hitems := hleaves.items
    have hnonempty := hstack (List.isSome_head?.mpr hne)
    rw [left_false] at hitems
    rw [if_neg (by simpa using hnonempty)]
    exact hitems
  · have hweight := hleaves.weight
    rwa [leftWeight_false] at hweight

/-- Calls up to one behind the last item return the items and then `None`. -/
theorem results_spec (hh : h ≤ 15) (hit : Iterates h it xs) :
    ∃ it', results (xs.length + 1) it = some (xs.map some ++ [none], it') := by
  induction xs generalizing it with
  | nil =>
    obtain ⟨it', hnext, -⟩ := next_spec hh hit
    exact ⟨it', by simp [results, hnext]⟩
  | cons x xs ih =>
    obtain ⟨it', hnext, hrest⟩ := next_spec hh hit
    obtain ⟨it'', hresults⟩ := ih (hrest (List.cons_ne_nil x xs))
    refine ⟨it'', ?_⟩
    rw [List.length_cons, results, hnext, Option.bind_eq_bind, Option.bind_some]
    dsimp only
    rw [hresults]
    rfl

/-- Two iterators are equal if the items that are left are. -/
theorem eq_spec [BEq α] {h' : ℕ} {other : Iter α σ} {ys : List α} (hh : h ≤ 15) (hh' : h' ≤ 15)
    (hit : Iterates h it xs) (hother : Iterates h' other ys) {fuel : ℕ} (hfuel : xs.length < fuel) :
    eq fuel it other = some (xs == ys) := by
  induction fuel generalizing it other xs ys with
  | zero => omega
  | succ fuel ih =>
    obtain ⟨it', hnext, hrest⟩ := next_spec hh hit
    obtain ⟨other', hnext', hrest'⟩ := next_spec hh' hother
    rw [eq, hnext, Option.bind_eq_bind, Option.bind_some]
    dsimp only
    rw [hnext', Option.bind_some]
    dsimp only
    cases xs with
    | nil =>
      cases ys with
      | nil => rfl
      | cons y ys => rfl
    | cons x xs =>
      cases ys with
      | nil => rfl
      | cons y ys =>
        have hrec := ih (hrest (List.cons_ne_nil x xs)) (hrest' (List.cons_ne_nil y ys))
          (Nat.lt_of_succ_lt_succ hfuel)
        dsimp only [List.head?_cons]
        rw [List.cons_beq_cons]
        by_cases hequal : (x == y) = true
        · rw [if_pos hequal, hequal, Bool.true_and]
          exact hrec
        · rw [if_neg hequal, Bool.eq_false_of_not_eq_true hequal, Bool.false_and]

/-- Down to the sixteenth level a round descends or panics. -/
theorem nextRound_deep (hh : 15 < h) {tree : SumTree α σ} {rest : List (StackEntry α σ Unit)}
    (hwithin : Cursor.WithinHeight h (⟨tree, 0, ()⟩ :: rest)) (hroom : rest.length ≤ 15)
    {round : Round (List (StackEntry α σ Unit) × Bool) (Option α × List (StackEntry α σ Unit))}
    (hround : nextRound (⟨tree, 0, ()⟩ :: rest, true) = some round) :
    ∃ subtree, round = .next (⟨subtree, 0, ()⟩ :: ⟨tree, 0, ()⟩ :: rest, true) ∧
      Cursor.WithinHeight h (⟨subtree, 0, ()⟩ :: ⟨tree, 0, ()⟩ :: rest) ∧
      (⟨tree, 0, ()⟩ :: rest).length ≤ 15 := by
  have hwf := hwithin.2.1
  obtain ⟨k, hk⟩ : ∃ k, h - rest.length = k + 1 := Nat.exists_eq_succ_of_ne_zero (by omega)
  rw [hk] at hwf
  cases hwf with
  | @internal _ childTrees hnonempty _ _ _ =>
    obtain ⟨subtree, hhead⟩ := Option.isSome_iff_exists.mp (List.isSome_head?.mpr hnonempty)
    have hget : childTrees[0]? = some subtree := by rwa [← List.head?_eq_getElem?]
    simp only [nextRound, if_true, hget, Option.bind_eq_bind, Option.bind_eq_some_iff,
      Cursor.pushEntry_eq_some_iff, Option.some.injEq] at hround
    obtain ⟨stack, ⟨hlength, rfl⟩, rfl⟩ := hround
    exact ⟨subtree, rfl,
      Cursor.WithinHeight.keptByWalks.push hwithin (List.mem_of_getElem? hget),
      Nat.le_of_lt_succ hlength⟩

/-- On a tree of more than sixteen levels the first call panics. -/
theorem next_deep {tree : SumTree α σ} (wf : tree.WellFormed h) (hh : 15 < h) :
    (new tree).next = none := by
  rw [Option.eq_none_iff_forall_ne_some]
  rintro ⟨item, it⟩ hnext
  have hstart : (new tree).start = some ([⟨tree, 0, ()⟩], true) := rfl
  rw [next, hstart, Option.bind_eq_bind, Option.bind_some] at hnext
  obtain ⟨r, hloop, -⟩ := Option.bind_eq_some_iff.mp hnext
  -- no round of the loop ends it
  let Inv (s : List (StackEntry α σ Unit) × Bool) : Prop := ∃ tree rest,
    s = (⟨tree, 0, ()⟩ :: rest, true) ∧ Cursor.WithinHeight h s.1 ∧ rest.length ≤ 15
  refine of_loop_eq_some Inv (fun _ => False) ?_ ?_ ?_ hloop
  · rintro s s' ⟨tree, rest, rfl, hwithin, hroom⟩ hround
    obtain ⟨subtree, hnext, hwithin', hroom'⟩ := nextRound_deep hh hwithin hroom hround
    obtain rfl := Round.next.inj hnext
    exact ⟨subtree, _, rfl, hwithin', hroom'⟩
  · rintro s r ⟨tree, rest, rfl, hwithin, hroom⟩ hround
    obtain ⟨subtree, hnext, -, -⟩ := nextRound_deep hh hwithin hroom hround
    cases hnext
  · exact ⟨tree, [], rfl, .singleton wf 0 (), Nat.zero_le 15⟩

end Iter

/-- The iterator of a tree of at most sixteen levels returns its items and then `None`, and two such
trees are equal exactly if their items are. -/
theorem SumTree.iter_correct [AddMonoid σ] [Item α σ] [BEq α] {h h' : ℕ} {tree other : SumTree α σ}
    (wf : tree.WellFormed h) (wf' : other.WellFormed h') (hh : h ≤ 15) (hh' : h' ≤ 15) :
    (∃ it, (Iter.new tree).results (tree.toList.length + 1) =
      some (tree.toList.map some ++ [none], it)) ∧
    ∀ fuel, tree.toList.length < fuel → tree.eq fuel other = some (tree.toList == other.toList) :=
  ⟨Iter.results_spec hh (Iter.iterates_new wf), fun _ hfuel =>
    Iter.eq_spec hh hh' (Iter.iterates_new wf) (Iter.iterates_new wf') hfuel⟩

/-- A leaf of numbers that are counted. -/
def SumTree.countLeaf (items : List ℕ) : SumTree ℕ ℕ :=
  .leaf (measure items) items (items.map Item.summary)

/-- Two of them. -/
def SumTree.countNode (items items' : List ℕ) : SumTree ℕ ℕ :=
  .internal 1 (measure (toLists [countLeaf items, countLeaf items']))
    ([countLeaf items, countLeaf items'].map summary) [countLeaf items, countLeaf items']

/-- A leaf and two leaves with the same numbers. -/
theorem SumTree.iter_correct_shapes :
    (∃ it, (Iter.new (countNode [1] [2, 3])).results 4 =
      some ([some 1, some 2, some 3, none], it)) ∧
    (countNode [1] [2, 3]).eq 4 (countLeaf [1, 2, 3]) = some true := by
  have hleaf {items : List ℕ} (hcapacity : items.length ≤ 2 * TREE_BASE) :
      WellFormed 0 (countLeaf items) := .leaf hcapacity
  have hnode : WellFormed 1 (countNode [1] [2, 3]) := by
    refine .internal (by simp) (by decide) ?_ (by simp [countLeaf])
    simp only [List.forall_mem_cons]
    exact ⟨hleaf (by decide), hleaf (by decide), by simp⟩
  have hitems : (countNode [1] [2, 3]).toList = [1, 2, 3] := by simp [countNode, countLeaf]
  have hother : WellFormed 0 (countLeaf [1, 2, 3]) := hleaf (by decide)
  obtain ⟨hresults, hequal⟩ := iter_correct hnode hother (by decide) (by decide)
  rw [hitems] at hresults hequal
  exact ⟨hresults, hequal 4 (by decide)⟩

/-- The iterator of a tree of more than sixteen levels panics. -/
theorem SumTree.not_iter_correct : ∃ tree : SumTree ℕ ℕ,
    fromIter (List.range ((2 * TREE_BASE) ^ 16 + 1)) = some tree ∧
      (∃ h, tree.WellFormed h) ∧ (Iter.new tree).next = none := by
  have hlength : (2 * TREE_BASE) ^ 16 < (List.range ((2 * TREE_BASE) ^ 16 + 1)).length := by
    rw [List.length_range]
    exact Nat.lt_succ_self _
  obtain ⟨tree, h, htree, wf, -, hdeep⟩ := fromIter_deep (σ := ℕ) hlength
  exact ⟨tree, htree, ⟨h, wf⟩, Iter.next_deep wf hdeep⟩

end Lucie
