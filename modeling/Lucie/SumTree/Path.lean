import Lucie.SumTree.AppendCorrect
import Lucie.SumTree.Cursor
import Mathlib

/-!
# Paths in a sum tree

A cursor stack is a path from the root: every entry below the top sits at the
child that the next entry is in. A path cuts the contents of the tree into what
lies before it and what lies after it, which is how a stack stands for an index
into the item list. The weight of what lies ahead bounds every walk.
-/

set_option autoImplicit false

namespace Lucie

namespace Dimension

variable {α σ δ : Type} [Item α σ] [Dimension δ σ]

/-- The dimension of a list of items: accumulate them one by one. -/
def extent (δ : Type) [Dimension δ σ] (items : List α) : δ :=
  items.foldl (fun position item => addSummary position (Item.summary item)) zero

@[simp] theorem extent_nil : extent δ ([] : List α) = zero := rfl

theorem extent_concat (items : List α) (item : α) :
    extent δ (items ++ [item]) = addSummary (extent δ items) (Item.summary item) := by
  simp [extent, List.foldl_append]

/-- A dimension is lawful on a list when adding the summary of a whole run of
items is the same as adding the items one by one. -/
structure Lawful [AddMonoid σ] (δ : Type) [Dimension δ σ] (items : List α) : Prop where
  /-- The law, for any two adjacent runs of the list. -/
  add_measure : ∀ pre run : List α, pre ++ run <:+: items → run ≠ [] →
    addSummary (extent δ pre) (SumTree.measure run) = extent δ (pre ++ run)

/-- A dimension on which the monoid of summaries acts is lawful everywhere. -/
theorem lawful_of_action [AddMonoid σ] (hzero : ∀ d : δ, addSummary d (0 : σ) = d)
    (hadd : ∀ (d : δ) (s t : σ), addSummary d (s + t) = addSummary (addSummary d s) t)
    (items : List α) : Lawful δ items := by
  have hrun : ∀ pre run : List α,
      addSummary (extent δ pre) (SumTree.measure run) = extent δ (pre ++ run) := by
    intro pre run
    induction run using List.reverseRecOn with
    | nil => simp [hzero]
    | append_singleton run item ih =>
      rw [SumTree.measure_append, hadd, ih, ← List.append_assoc, extent_concat]
      simp [SumTree.measure]
  exact ⟨fun pre run _ _ => hrun pre run⟩

end Dimension

/-- The comparison of a target decreases along the item ends of a list: this is
monotone accumulation as a target sees it. -/
structure SeekTarget.MonotoneOn {α σ δ : Type} [Item α σ] [Dimension δ σ]
    (target : SeekTarget δ) (items : List α) : Prop where
  /-- A target that is not before a later position is not before an earlier one. -/
  ne_lt : ∀ i j, i ≤ j → j ≤ items.length →
    target.cmp (Dimension.extent δ (items.take j)) ≠ .lt →
    target.cmp (Dimension.extent δ (items.take i)) ≠ .lt
  /-- A target behind a later position is behind an earlier one. -/
  eq_gt : ∀ i j, i ≤ j → j ≤ items.length →
    target.cmp (Dimension.extent δ (items.take j)) = .gt →
    target.cmp (Dimension.extent δ (items.take i)) = .gt

namespace SeekTarget

variable {α σ δ : Type} [Item α σ] [Dimension δ σ]

/-- Where accumulation is monotone, every value of the dimension is a monotone target. -/
theorem ofOrd_monotoneOn [LinearOrder δ] {items : List α}
    (hmono : ∀ i j, i ≤ j → j ≤ items.length →
      Dimension.extent δ (items.take i) ≤ Dimension.extent δ (items.take j)) (value : δ) :
    (ofOrd value).MonotoneOn items := by
  refine ⟨fun i j hij hj => ?_, fun i j hij hj => ?_⟩
  · simp only [ofOrd, ne_eq, compare_lt_iff_lt, not_lt]
    exact fun h => (hmono i j hij hj).trans h
  · simp only [ofOrd, compare_gt_iff_gt]
    exact fun h => lt_of_le_of_lt (hmono i j hij hj) h

theorem endTarget_monotoneOn (items : List α) : (endTarget (δ := δ)).MonotoneOn items :=
  ⟨fun _ _ _ _ h => h, fun _ _ _ _ h => h⟩

/-- Going past an item of a monotone target means going past every earlier one. -/
theorem MonotoneOn.passes_of_le {target : SeekTarget δ} {items : List α}
    (h : target.MonotoneOn items) {bias : Bias} {i j : ℕ} (hij : i ≤ j) (hj : j ≤ items.length)
    (hpass : target.passes bias (Dimension.extent δ (items.take j)) = true) :
    target.passes bias (Dimension.extent δ (items.take i)) = true := by
  simp only [passes, Bool.or_eq_true, Bool.and_eq_true, decide_eq_true_eq] at hpass ⊢
  rcases hpass with hgt | ⟨heq, hbias⟩
  · exact Or.inl (h.eq_gt i j hij hj hgt)
  · have hne := h.ne_lt i j hij hj (by rw [heq]; decide)
    cases hcmp : target.cmp (Dimension.extent δ (items.take i)) with
    | lt => exact absurd hcmp hne
    | eq => exact Or.inr ⟨rfl, hbias⟩
    | gt => exact Or.inl rfl

/-- The number of leading items whose end is before the target, or equal to it
when the bias is to the right. -/
def leading (target : SeekTarget δ) (bias : Bias) (items : List α) : ℕ :=
  (List.range items.length).findIdx fun i =>
    !target.passes bias (Dimension.extent δ (items.take (i + 1)))

theorem leading_le (target : SeekTarget δ) (bias : Bias) (items : List α) :
    target.leading bias items ≤ items.length := by
  refine List.findIdx_le_length.trans ?_
  rw [List.length_range]

/-- All leading items are passed. -/
theorem passes_of_lt_leading {target : SeekTarget δ} {bias : Bias} {items : List α} {i : ℕ}
    (hi : i < target.leading bias items) :
    target.passes bias (Dimension.extent δ (items.take (i + 1))) = true := by
  simpa using List.not_of_lt_findIdx hi

theorem le_leading {target : SeekTarget δ} {bias : Bias} {items : List α} {k : ℕ}
    (hk : k ≤ items.length) (hpasses : ∀ i < k,
      target.passes bias (Dimension.extent δ (items.take (i + 1))) = true) :
    k ≤ target.leading bias items := by
  by_contra! hlt
  have hget : (List.range items.length)[target.leading bias items]? =
      some (target.leading bias items) := List.getElem?_range (hlt.trans_le hk)
  have hstop := List.findIdx_of_getElem?_eq_some hget
  simp [hpasses _ hlt] at hstop

/-- The first item that is not leading is not passed. -/
theorem passes_leading {target : SeekTarget δ} {bias : Bias} {items : List α}
    (h : target.leading bias items < items.length) :
    target.passes bias (Dimension.extent δ (items.take (target.leading bias items + 1))) =
      false := by
  by_contra hpass
  rw [Bool.not_eq_false] at hpass
  have hle := le_leading (Nat.succ_le_of_lt h) fun i hi => by
    obtain hlt | rfl := Nat.lt_succ_iff_lt_or_eq.mp hi
    · exact passes_of_lt_leading hlt
    · exact hpass
  omega

/-- Every item is before the end. -/
theorem leading_endTarget (items : List α) :
    (endTarget (δ := δ)).leading .right items = items.length :=
  Nat.le_antisymm (leading_le _ _ _) (le_leading (Nat.le_refl _) fun _ _ => rfl)

end SeekTarget

namespace SumTree

variable {α σ : Type}

/-- The number of entries of a node. -/
def width : SumTree α σ → ℕ
  | .internal _ _ _ childTrees => childTrees.length
  | .leaf _ items _ => items.length

/-- The items of a node before its entry `index`. -/
def before : SumTree α σ → ℕ → List α
  | .internal _ _ _ childTrees, index => toLists (childTrees.take index)
  | .leaf _ items _, index => items.take index

/-- The items of a node from its entry `index` on. -/
def after : SumTree α σ → ℕ → List α
  | .internal _ _ _ childTrees, index => toLists (childTrees.drop index)
  | .leaf _ items _, index => items.drop index

theorem before_append_after (tree : SumTree α σ) (index : ℕ) :
    tree.before index ++ tree.after index = tree.toList := by
  cases tree with
  | leaf => simp [before, after]
  | internal => simp [before, after, ← toLists_append]

@[simp] theorem before_zero (tree : SumTree α σ) : tree.before 0 = [] := by
  cases tree <;> simp [before]

@[simp] theorem before_width (tree : SumTree α σ) : tree.before tree.width = tree.toList := by
  cases tree <;> simp [before, width]

theorem WellFormed.childSummaries_length [AddMonoid σ] [Item α σ] {k : ℕ} {tree : SumTree α σ}
    (wf : WellFormed k tree) : tree.childSummaries.length = tree.width := by
  cases wf <;> simp [childSummaries, width]

/-- A node with an item has an entry. -/
theorem width_pos {tree : SumTree α σ} (hne : tree.toList ≠ []) : 0 < tree.width := by
  refine Nat.pos_of_ne_zero fun hzero => hne ?_
  rw [← before_width, hzero, before_zero]

/-- The well-formed internal node over a row of children of height `k`. -/
abbrev parentOf [AddMonoid σ] [Item α σ] (k : ℕ) (childTrees : List (SumTree α σ)) :
    SumTree α σ :=
  .internal (k + 1) (measure (toLists childTrees)) (childTrees.map summary) childTrees

theorem WellFormed.row [AddMonoid σ] [Item α σ] {k : ℕ} {childTrees : List (SumTree α σ)}
    (wf : WellFormed (k + 1) (parentOf k childTrees)) : Row k childTrees := by
  generalize hparent : parentOf k childTrees = parent at wf
  cases wf with
  | internal _ _ children occupied =>
    injection hparent with _ _ _ hchildren
    subst hchildren
    exact ⟨children, occupied⟩

/-- `tree` is the child of `parent` at `index`. -/
def IsChild (parent : SumTree α σ) (index : ℕ) (tree : SumTree α σ) : Prop :=
  ∃ height summary childSummaries childTrees,
    parent = .internal height summary childSummaries childTrees ∧ childTrees[index]? = some tree

namespace IsChild

variable {parent tree : SumTree α σ} {index : ℕ}

theorem before_succ (h : IsChild parent index tree) :
    parent.before (index + 1) = parent.before index ++ tree.toList := by
  obtain ⟨_, _, _, childTrees, rfl, hget⟩ := h
  simp [before, List.take_add_one, hget]

theorem after_eq (h : IsChild parent index tree) :
    parent.after index = tree.toList ++ parent.after (index + 1) := by
  obtain ⟨_, _, _, childTrees, rfl, hget⟩ := h
  obtain ⟨hlt, rfl⟩ := List.getElem?_eq_some_iff.mp hget
  simp only [after, ← toLists_cons, List.getElem_cons_drop]

theorem index_lt (h : IsChild parent index tree) : index < parent.width := by
  obtain ⟨_, _, _, childTrees, rfl, hget⟩ := h
  exact (List.getElem?_eq_some_iff.mp hget).1

theorem wellFormed [AddMonoid σ] [Item α σ] {k : ℕ} (h : IsChild parent index tree)
    (wf : WellFormed (k + 1) parent) : WellFormed k tree ∧ tree.toList ≠ [] := by
  obtain ⟨_, _, _, childTrees, rfl, hget⟩ := h
  cases wf with
  | internal _ _ children occupied =>
    have hmem := List.mem_of_getElem? hget
    exact ⟨children tree hmem, occupied tree hmem⟩

end IsChild

/-- The weight of the entries of a node from `index` on. -/
def weightFrom : SumTree α σ → ℕ → ℕ
  | .internal _ _ _ childTrees, index => weights (childTrees.drop index)
  | .leaf _ _ itemSummaries, index => (itemSummaries.drop index).length

theorem weight_eq (tree : SumTree α σ) : tree.weight = 2 + tree.weightFrom 0 := by
  cases tree <;> simp [weight, weightFrom]

theorem weights_append (left right : List (SumTree α σ)) :
    weights (left ++ right) = weights left + weights right := by
  induction left with
  | nil => simp [weights]
  | cons tree trees ih => simp [weights, ih, Nat.add_assoc]

theorem weightFrom_le (tree : SumTree α σ) {i j : ℕ} (h : i ≤ j) :
    tree.weightFrom j ≤ tree.weightFrom i := by
  obtain ⟨d, rfl⟩ := Nat.exists_eq_add_of_le h
  cases tree with
  | leaf =>
    simp only [weightFrom, List.length_drop]
    omega
  | internal _ _ _ childTrees =>
    have hsplit := congrArg weights (List.take_append_drop d (childTrees.drop i))
    rw [weights_append, List.drop_drop] at hsplit
    simp only [weightFrom]
    omega

theorem IsChild.weightFrom_eq {parent tree : SumTree α σ} {index : ℕ}
    (h : IsChild parent index tree) :
    parent.weightFrom index = tree.weight + parent.weightFrom (index + 1) := by
  obtain ⟨_, _, _, childTrees, rfl, hget⟩ := h
  obtain ⟨hlt, rfl⟩ := List.getElem?_eq_some_iff.mp hget
  simp only [weightFrom]
  rw [List.drop_eq_getElem_cons hlt, weights]

end SumTree

namespace Cursor

variable {α σ δ : Type} [Item α σ] [Dimension δ σ]

/-- The items before a stack: before each entry, from the root to the top. -/
def stackBefore : List (StackEntry α σ δ) → List α
  | [] => []
  | entry :: rest => stackBefore rest ++ entry.tree.before entry.index

/-- The items after the child that a stack is in. -/
def outerAfter : List (StackEntry α σ δ) → List α
  | [] => []
  | entry :: rest => entry.tree.after (entry.index + 1) ++ outerAfter rest

/-- A stack of entries from `root` down to a node of height `k`. Every entry below
the top knows the dimension of the items before it. -/
inductive Located (root : SumTree α σ) (h : ℕ) : ℕ → List (StackEntry α σ δ) → Prop
  | root {index : ℕ} {position : δ} (hindex : index ≤ root.width) :
      Located root h h [⟨root, index, position⟩]
  | child {k index : ℕ} {parent : StackEntry α σ δ} {rest : List (StackEntry α σ δ)}
      {tree : SumTree α σ} {position : δ} (hparent : Located root h (k + 1) (parent :: rest))
      (hchild : parent.tree.IsChild parent.index tree)
      (hposition : parent.position = Dimension.extent δ (stackBefore (parent :: rest)))
      (hindex : index ≤ tree.width) : Located root h k (⟨tree, index, position⟩ :: parent :: rest)

namespace Located

variable {root : SumTree α σ} {h k : ℕ} {entry : StackEntry α σ δ}
  {rest stack : List (StackEntry α σ δ)}

theorem index_le (hloc : Located root h k (entry :: rest)) : entry.index ≤ entry.tree.width := by
  cases hloc <;> assumption

/-- The top of a path is a well-formed node of its height. -/
theorem wellFormed [AddMonoid σ] (wf : SumTree.WellFormed h root)
    (hloc : Located root h k (entry :: rest)) :
    SumTree.WellFormed k entry.tree := by
  generalize hstack : entry :: rest = stack at hloc
  induction hloc generalizing entry rest with
  | root =>
    cases hstack
    exact wf
  | child hparent hchild _ _ ih =>
    cases hstack
    exact (hchild.wellFormed (ih rfl)).1

theorem occupied [AddMonoid σ] (wf : SumTree.WellFormed h root) (hne : root.toList ≠ [])
    (hloc : Located root h k (entry :: rest)) : entry.tree.toList ≠ [] := by
  cases hloc with
  | root => exact hne
  | child hparent hchild => exact (hchild.wellFormed (hparent.wellFormed wf)).2

/-- A path has one entry for each level from the root to its top. -/
theorem length_add (hloc : Located root h k stack) : stack.length + k = h + 1 := by
  induction hloc with
  | root => simp [Nat.add_comm]
  | child _ _ _ _ ih =>
    rw [List.length_cons, ← ih]
    omega

/-- A path cuts the contents of the root into three parts. -/
theorem contents (hloc : Located root h k (entry :: rest)) :
    root.toList = stackBefore (entry :: rest) ++
      (entry.tree.after entry.index ++ outerAfter rest) := by
  generalize hstack : entry :: rest = stack at hloc
  induction hloc generalizing entry rest with
  | root =>
    cases hstack
    simp [stackBefore, outerAfter, SumTree.before_append_after]
  | @child k index parent rest tree position _ hchild _ _ ih =>
    cases hstack
    rw [ih rfl, hchild.after_eq]
    simp only [stackBefore, outerAfter, List.append_assoc]
    rw [← List.append_assoc (tree.before index), SumTree.before_append_after]

/-- The index and the position of the top can be changed freely. -/
theorem setTop (hloc : Located root h k (entry :: rest)) {index : ℕ} {position : δ}
    (hindex : index ≤ entry.tree.width) :
    Located root h k (⟨entry.tree, index, position⟩ :: rest) := by
  cases hloc with
  | root => exact .root hindex
  | child hparent hchild hposition => exact .child hparent hchild hposition hindex

/-- There is room for a path of a tree of height at most 15 on a cursor stack. -/
theorem pushEntry (hloc : Located root h (k + 1) stack) (hh : h ≤ 15)
    (entry : StackEntry α σ δ) : pushEntry stack entry = some (entry :: stack) := by
  have hlength := hloc.length_add
  rw [Cursor.pushEntry, if_pos (by omega)]

end Located

/-- The weight of what lies ahead of the child that a stack is in. -/
def outerWeight : List (StackEntry α σ δ) → ℕ
  | [] => 0
  | entry :: rest => 1 + entry.tree.weightFrom (entry.index + 1) + outerWeight rest

/-- The weight of what lies ahead of a forward walk. A walk that ascends has done
with the entry it sits at. -/
def forwardWeight (ascending : Bool) : List (StackEntry α σ δ) → ℕ
  | [] => 0
  | entry :: rest =>
    1 + entry.tree.weightFrom (if ascending then entry.index + 1 else entry.index) +
      outerWeight rest

/-- Every forward walk along a path is lighter than the root. -/
theorem Located.forwardWeight_lt {root : SumTree α σ} {h k : ℕ}
    {stack : List (StackEntry α σ δ)} (hloc : Located root h k stack) (ascending : Bool) :
    forwardWeight ascending stack < root.weight := by
  have hkey : ∀ entry rest, stack = entry :: rest →
      entry.tree.weight + outerWeight rest ≤ root.weight := by
    induction hloc with
    | root =>
      rintro _ _ ⟨⟩
      simp [outerWeight]
    | @child k index parent rest tree position _ hchild _ _ ih =>
      rintro _ _ ⟨⟩
      have hparent := ih _ _ rfl
      have hweight := hchild.weightFrom_eq
      have hle := parent.tree.weightFrom_le (Nat.zero_le parent.index)
      have htotal := parent.tree.weight_eq
      simp only [outerWeight]
      omega
  cases stack with
  | nil => cases hloc
  | cons entry rest =>
    have htop := hkey entry rest rfl
    have hweight := entry.tree.weight_eq
    have hle := entry.tree.weightFrom_le
      (Nat.zero_le (if ascending then entry.index + 1 else entry.index))
    simp only [forwardWeight]
    omega

omit [Item α σ] [Dimension δ σ] in
theorem forwardWeight_ascending (stack : List (StackEntry α σ δ)) :
    forwardWeight true stack = outerWeight stack := by
  cases stack <;> simp [forwardWeight, outerWeight]

/-- Where a forward walk that is through with the items `done` goes on: behind the
last item, at an entry it has just pushed, or past the child it comes from. -/
inductive Resumes (root : SumTree α σ) (h : ℕ) (done : List α) :
    Bool → List (StackEntry α σ δ) → Prop
  | finished {ascending : Bool} (hdone : done = root.toList) : Resumes root h done ascending []
  | enter {k : ℕ} {entry : StackEntry α σ δ} {rest : List (StackEntry α σ δ)}
      (hloc : Located root h k (entry :: rest)) (hdone : done = stackBefore (entry :: rest))
      (hposition : 0 < k → entry.position = Dimension.extent δ done) :
      Resumes root h done false (entry :: rest)
  | ascend {k : ℕ} {entry : StackEntry α σ δ} {rest : List (StackEntry α σ δ)}
      (hloc : Located root h (k + 1) (entry :: rest)) (hlt : entry.index < entry.tree.width)
      (hdone : done = stackBefore rest ++ entry.tree.before (entry.index + 1)) :
      Resumes root h done true (entry :: rest)

namespace Located

variable {root : SumTree α σ} {h k : ℕ} {entry : StackEntry α σ δ}
  {rest : List (StackEntry α σ δ)}

/-- A walk that is through with a node pops it and goes on past it. -/
theorem resumes_rest (hloc : Located root h k (entry :: rest)) :
    Resumes root h (stackBefore rest ++ entry.tree.toList) true rest := by
  cases hloc with
  | root => exact .finished (by simp [stackBefore])
  | child hparent hchild =>
    refine .ascend hparent hchild.index_lt ?_
    simp only [stackBefore, hchild.before_succ, List.append_assoc]

/-- A walk that has the position right pushes a child and goes on at its start. -/
theorem resumes_child (hloc : Located root h (k + 1) (entry :: rest)) {tree : SumTree α σ}
    (hchild : entry.tree.IsChild entry.index tree)
    (hposition : entry.position = Dimension.extent δ (stackBefore (entry :: rest))) :
    Resumes root h (stackBefore (entry :: rest)) false
      (⟨tree, 0, entry.position⟩ :: entry :: rest) :=
  .enter (.child hloc hchild hposition (Nat.zero_le _)) (by simp [stackBefore]) fun _ => hposition

end Located

/-- The internal entry that a walk resumes at, once the child it comes from is skipped. -/
theorem Resumes.entered [AddMonoid σ] {root : SumTree α σ} {h : ℕ} {done : List α}
    {ascending : Bool} {entry : StackEntry α σ δ} {rest : List (StackEntry α σ δ)}
    (wf : SumTree.WellFormed h root) (hres : Resumes root h done ascending (entry :: rest))
    (hinternal : entry.tree.isLeaf = false) :
    ∃ k index, (if ascending = true then { entry with
          index := entry.index + 1, position := Dimension.extent δ done } else entry) =
        ⟨entry.tree, index, Dimension.extent δ done⟩ ∧
      index = (if ascending = true then entry.index + 1 else entry.index) ∧
      Located root h (k + 1) (⟨entry.tree, index, Dimension.extent δ done⟩ :: rest) ∧
      done = stackBefore rest ++ entry.tree.before index := by
  cases hres with
  | @enter k _ _ hloc hdone hposition =>
    obtain ⟨k, rfl⟩ : ∃ j, k = j + 1 := by
      have hwf := hloc.wellFormed wf
      cases htree : entry.tree with
      | leaf => simp [htree, SumTree.isLeaf] at hinternal
      | internal =>
        rw [htree] at hwf
        cases hwf
        exact ⟨_, rfl⟩
    have hentry := hposition (Nat.succ_pos k)
    refine ⟨k, entry.index, ?_, by simp, hloc.setTop hloc.index_le, hdone⟩
    rw [if_neg (by simp), ← hentry]
  | @ascend k _ _ hloc hlt hdone =>
    exact ⟨k, entry.index + 1, by simp, by simp, hloc.setTop hlt, hdone⟩

/-- A walk never ascends to a leaf. -/
theorem Resumes.leaf [AddMonoid σ] {root : SumTree α σ} {h : ℕ} {done : List α}
    {ascending : Bool} {entry : StackEntry α σ δ} {rest : List (StackEntry α σ δ)}
    (wf : SumTree.WellFormed h root) (hres : Resumes root h done ascending (entry :: rest))
    (hleaf : entry.tree.isLeaf = true) :
    ascending = false ∧ Located root h 0 (entry :: rest) ∧ done = stackBefore (entry :: rest) ∧
      ∃ items : List α, items.length ≤ 2 * TREE_BASE ∧
        entry.tree = .leaf (SumTree.measure items) items (items.map Item.summary) := by
  obtain ⟨tree, index, position⟩ := entry
  cases hres with
  | enter hloc hdone =>
    have hwf := hloc.wellFormed wf
    cases hwf with
    | internal => simp [SumTree.isLeaf] at hleaf
    | leaf hcapacity => exact ⟨rfl, hloc, hdone, _, hcapacity, rfl⟩
  | ascend hloc =>
    have hwf := hloc.wellFormed wf
    cases hwf
    simp [SumTree.isLeaf] at hleaf

theorem Resumes.done_eq {root : SumTree α σ} {h : ℕ} {done : List α} {ascending : Bool}
    (hres : Resumes root h done ascending ([] : List (StackEntry α σ δ))) : done = root.toList := by
  cases hres
  assumption

/-- Where a cursor rests when `done` lies before it: at an item, or behind the last one. -/
inductive SitsAt (root : SumTree α σ) (h : ℕ) (done : List α) :
    List (StackEntry α σ δ) → Prop
  | atEnd (hdone : done = root.toList) : SitsAt root h done []
  | atItem {entry : StackEntry α σ δ} {rest : List (StackEntry α σ δ)}
      (hloc : Located root h 0 (entry :: rest)) (hlt : entry.index < entry.tree.width)
      (hdone : done = stackBefore (entry :: rest)) : SitsAt root h done (entry :: rest)

/-- A resting cursor can start a forward walk. -/
theorem SitsAt.resumes {root : SumTree α σ} {h : ℕ} {done : List α}
    {stack : List (StackEntry α σ δ)} (hsits : SitsAt root h done stack) :
    Resumes root h done false stack := by
  cases hsits with
  | atEnd hdone => exact .finished hdone
  | atItem hloc _ hdone => exact .enter hloc hdone fun hpos => absurd hpos (Nat.lt_irrefl 0)

/-- Cutting a node's entries where a walk over a run of them ends. -/
theorem take_drop_of_drop_eq {β : Type} {entries passed rest : List β} {index : ℕ}
    (hdrop : entries.drop index = passed ++ rest) :
    entries.take (index + passed.length) = entries.take index ++ passed ∧
      entries.drop (index + passed.length) = rest := by
  constructor
  · rw [List.take_add, hdrop, List.take_left']
    rfl
  · rw [← List.drop_drop, hdrop, List.drop_left']
    rfl

section Node

variable [AddMonoid σ] {root : SumTree α σ} {h k index : ℕ} {position : δ}
  {rest : List (StackEntry α σ δ)} {childTrees passed : List (SumTree α σ)} {done : List α}

/-- A walk that has gone past the last child of a node goes on above it. -/
theorem Located.resumes_pop
    (hloc : Located root h (k + 1) (⟨SumTree.parentOf k childTrees, index, position⟩ :: rest))
    (hdone : done = stackBefore rest ++ (SumTree.parentOf k childTrees).before index)
    (hsplit : childTrees.drop index = passed) :
    Resumes root h (done ++ SumTree.toLists passed) true rest := by
  have hall := hloc.resumes_rest
  rwa [← SumTree.before_append_after _ index, ← List.append_assoc, ← hdone, SumTree.after,
    hsplit] at hall

/-- A walk that stops before a child of a node goes on in that child. -/
theorem Located.resumes_push (hh : h ≤ 15)
    (hloc : Located root h (k + 1) (⟨SumTree.parentOf k childTrees, index, position⟩ :: rest))
    (hdone : done = stackBefore rest ++ (SumTree.parentOf k childTrees).before index)
    {child : SumTree α σ} {rest' : List (SumTree α σ)}
    (hsplit : childTrees.drop index = passed ++ child :: rest')
    {entry leaf : StackEntry α σ δ}
    (hentry : entry = ⟨SumTree.parentOf k childTrees, index + passed.length,
      Dimension.extent δ (done ++ SumTree.toLists passed)⟩)
    (hleaf : leaf = ⟨child, 0, Dimension.extent δ (done ++ SumTree.toLists passed)⟩) :
    childTrees[index + passed.length]? = some child ∧
      Cursor.pushEntry (entry :: rest) leaf = some (leaf :: entry :: rest) ∧
      Resumes root h (done ++ SumTree.toLists passed) false (leaf :: entry :: rest) ∧
      forwardWeight false (leaf :: entry :: rest) <
        1 + (SumTree.parentOf k childTrees).weightFrom index + outerWeight rest := by
  subst hentry hleaf
  obtain ⟨htake, hdrop⟩ := take_drop_of_drop_eq hsplit
  have hget : childTrees[index + passed.length]? = some child := by
    rw [← List.head?_drop, hdrop, List.head?_cons]
  have hchild : (SumTree.parentOf k childTrees).IsChild (index + passed.length) child :=
    ⟨_, _, _, _, rfl, hget⟩
  have hdone' : done ++ SumTree.toLists passed =
      stackBefore rest ++ (SumTree.parentOf k childTrees).before (index + passed.length) := by
    rw [hdone, SumTree.before, SumTree.before, htake, SumTree.toLists_append, List.append_assoc]
  have hloc' : Located root h (k + 1) (⟨SumTree.parentOf k childTrees, index + passed.length,
      Dimension.extent δ (done ++ SumTree.toLists passed)⟩ :: rest) :=
    hloc.setTop hchild.index_lt.le
  refine ⟨hget, hloc'.pushEntry hh _, ?_, ?_⟩
  · have hresume := hloc'.resumes_child hchild (by rw [stackBefore, ← hdone'])
    rwa [stackBefore, ← hdone'] at hresume
  · have hparent := hchild.weightFrom_eq
    have hweight := child.weight_eq
    have hle := (SumTree.parentOf k childTrees).weightFrom_le
      (Nat.le_add_right index passed.length)
    simp only [forwardWeight, outerWeight, Bool.false_eq_true, if_false]
    omega

end Node

end Cursor

end Lucie
