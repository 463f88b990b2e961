import Lucie.SumTree.InsertOrReplace

/-!
# How full the nodes are

Appending repairs underflow: a sibling that is too small is merged into its neighbour, and a node
that is too full is cut into halves. Each routine hands its parent a node that is no narrower than
before or two filled nodes, so below the root every node stays filled. The height of such a tree
is then bounded by its number of items.
-/

set_option autoImplicit false

namespace Lucie

/-- What an `ArrayVec` was filled with. -/
theorem arrayVec_eq_some_iff {β : Type} {entries result : List β} :
    arrayVec entries = some result ↔ entries.length ≤ 2 * TREE_BASE ∧ entries = result := by
  simp [arrayVec, ite_eq_iff]

namespace SumTree

variable {α σ : Type}

theorem isUnderflowing_eq_false_iff {tree : SumTree α σ} :
    tree.isUnderflowing = false ↔ TREE_BASE ≤ tree.width := by
  cases tree <;> simp [isUnderflowing, width]

/-- The node and every node below it hold at least `TREE_BASE` entries. -/
inductive Filled : SumTree α σ → Prop
  | internal {height : ℕ} {summary : σ} {childSummaries : List σ}
      {childTrees : List (SumTree α σ)} (hwidth : TREE_BASE ≤ childTrees.length)
      (hchildren : ∀ child ∈ childTrees, Filled child) :
      Filled (.internal height summary childSummaries childTrees)
  | leaf {summary : σ} {items : List α} {itemSummaries : List σ}
      (hwidth : TREE_BASE ≤ items.length) : Filled (.leaf summary items itemSummaries)

/-- Every node but the root holds at least `TREE_BASE` entries. -/
def Balanced (tree : SumTree α σ) : Prop :=
  ∀ trees, tree.childTrees = some trees → ∀ child ∈ trees, Filled child

@[simp] theorem balanced_internal {height : ℕ} {summary : σ} {childSummaries : List σ}
    {childTrees : List (SumTree α σ)} :
    Balanced (.internal height summary childSummaries childTrees) ↔
      ∀ child ∈ childTrees, Filled child := by
  simp [Balanced, SumTree.childTrees]

@[simp] theorem balanced_leaf {summary : σ} {items : List α} {itemSummaries : List σ} :
    Balanced (.leaf summary items itemSummaries) := by
  simp [Balanced, SumTree.childTrees]

theorem filled_iff {tree : SumTree α σ} : Filled tree ↔ TREE_BASE ≤ tree.width ∧ Balanced tree := by
  constructor
  · intro h
    cases h with
    | internal hwidth hchildren => exact ⟨hwidth, balanced_internal.mpr hchildren⟩
    | leaf hwidth => exact ⟨hwidth, balanced_leaf⟩
  · rintro ⟨hwidth, hbalanced⟩
    cases tree with
    | internal => exact .internal hwidth (balanced_internal.mp hbalanced)
    | leaf => exact .leaf hwidth

theorem Filled.balanced {tree : SumTree α σ} (h : Filled tree) : Balanced tree :=
  (filled_iff.mp h).2

/-- An internal root has at least two children. -/
def Forked (tree : SumTree α σ) : Prop :=
  tree.isLeaf = false → 2 ≤ tree.width

/-- What a routine hands to the parent of a node: a node of the same kind that is no narrower, or
two filled nodes. -/
def Repairs (node tree : SumTree α σ) : Option (SumTree α σ) → Prop
  | none => Balanced tree ∧ node.width ≤ tree.width ∧ tree.isLeaf = node.isLeaf
  | some other => Filled tree ∧ Filled other

namespace Repairs

variable {node node' tree : SumTree α σ} {other : Option (SumTree α σ)}

/-- A filled node is replaced by filled nodes. -/
theorem filled (h : Repairs node tree other) (hn : TREE_BASE ≤ node.width) :
    ∀ child ∈ tree :: other.toList, Filled child := by
  cases other with
  | none =>
    obtain ⟨hbalanced, hwidth, -⟩ := h
    simpa using filled_iff.mpr ⟨hn.trans hwidth, hbalanced⟩
  | some other => simpa using And.intro h.1 h.2

/-- Only the width and the kind of the node matter. -/
theorem of_width (h : Repairs node tree other) (hwidth : node'.width ≤ node.width)
    (hleaf : node.isLeaf = node'.isLeaf) : Repairs node' tree other := by
  cases other with
  | none => exact ⟨h.1, hwidth.trans h.2.1, h.2.2.trans hleaf⟩
  | some other => exact h

/-- A root that keeps its kind stays forked. -/
theorem forked (h : Repairs node tree none) (hforked : Forked node) : Forked tree := by
  obtain ⟨-, hwidth, hleaf⟩ := h
  intro hinternal
  exact (hforked (hleaf ▸ hinternal)).trans hwidth

end Repairs

theorem fromChildTrees_balanced [AddMonoid σ] {left right : SumTree α σ} (hleft : Filled left)
    (hright : Filled right) : Balanced (fromChildTrees left right) := by
  simp [fromChildTrees, hleft, hright]

section Append

variable [AddMonoid σ]

/-- Cutting a row of filled children in two halves leaves two filled nodes. -/
theorem pushChildren_repairs {height : ℕ} {summary : σ} {childSummaries summariesToAppend : List σ}
    {childTrees treesToAppend : List (SumTree α σ)} {tree : SumTree α σ}
    {right : Option (SumTree α σ)} (hchildren : ∀ child ∈ childTrees, Filled child)
    (hmore : ∀ child ∈ treesToAppend, Filled child)
    (h : pushChildren height summary childSummaries childTrees summariesToAppend treesToAppend =
      some (tree, right)) :
    Repairs (.internal height summary childSummaries childTrees) tree right := by
  have hall : ∀ child ∈ childTrees ++ treesToAppend, Filled child := fun child hchild =>
    (List.mem_append.mp hchild).elim (hchildren child) (hmore child)
  have hcount : (childTrees ++ treesToAppend).length = childTrees.length + treesToAppend.length :=
    List.length_append
  have hbase : TREE_BASE = 6 := rfl
  simp only [pushChildren, Option.bind_eq_bind] at h
  split_ifs at h with hover
  · simp only [Option.bind_eq_some_iff, arrayVec_eq_some_iff, Option.some.injEq,
      Prod.mk.injEq] at h
    obtain ⟨_, -, _, -, _, ⟨-, rfl⟩, _, ⟨-, rfl⟩, rfl, rfl⟩ := h
    refine ⟨.internal ?_ fun child hchild => hall child (List.mem_of_mem_take hchild),
      .internal ?_ fun child hchild => hall child (List.mem_of_mem_drop hchild)⟩
    · rw [List.length_take]
      omega
    · rw [List.length_drop]
      omega
  · simp only [Option.bind_eq_some_iff, arrayVec_eq_some_iff, Option.some.injEq,
      Prod.mk.injEq] at h
    obtain ⟨_, -, _, ⟨-, rfl⟩, rfl, rfl⟩ := h
    exact ⟨balanced_internal.mpr hall, by simp [width], rfl⟩

/-- Cutting a run of items in two halves leaves two filled leaves. -/
theorem pushItems_repairs {summary : σ} {items : List α} {itemSummaries : List σ}
    {other tree : SumTree α σ} {right : Option (SumTree α σ)}
    (h : pushItems summary items itemSummaries other = some (tree, right)) :
    Repairs (.leaf summary items itemSummaries) tree right := by
  have hbase : TREE_BASE = 6 := rfl
  simp only [pushItems, Option.bind_eq_bind] at h
  obtain ⟨otherItems, -, h⟩ := Option.bind_eq_some_iff.mp h
  have hcount : (items ++ otherItems).length = items.length + otherItems.length :=
    List.length_append
  split_ifs at h with hover
  · simp only [Option.bind_eq_some_iff, arrayVec_eq_some_iff, Option.some.injEq,
      Prod.mk.injEq] at h
    obtain ⟨_, ⟨-, rfl⟩, _, ⟨-, rfl⟩, _, -, _, -, rfl, rfl⟩ := h
    refine ⟨.leaf ?_, .leaf ?_⟩
    · rw [List.length_take]
      omega
    · rw [List.length_drop]
      omega
  · simp only [Option.bind_eq_some_iff, arrayVec_eq_some_iff, Option.some.injEq,
      Prod.mk.injEq] at h
    obtain ⟨_, ⟨-, rfl⟩, _, -, rfl, rfl⟩ := h
    exact ⟨balanced_leaf, by simp [width], rfl⟩

/-- A node takes over the children of `other`, or `other` itself when it is filled, or hands
`other` to its last child, which comes back filled. -/
theorem pushTreeRecursive_repairs {tree other tree' : SumTree α σ} {right : Option (SumTree α σ)}
    (htree : Balanced tree) (hother : Balanced other)
    (h : pushTreeRecursive tree other = some (tree', right)) : Repairs tree tree' right := by
  fun_induction pushTreeRecursive tree other generalizing tree' right with
  | case1 => cases h
  | case2 height summary childSummaries childTrees other =>
    simp only [Option.bind_eq_bind, Option.bind_eq_some_iff, arrayVec_eq_some_iff] at h
    obtain ⟨trees, htrees, _, -, _, ⟨-, rfl⟩, h⟩ := h
    exact (pushChildren_repairs (balanced_internal.mp htree) (hother trees htrees) h).of_width
      (Nat.le_refl _) rfl
  | case3 height summary childSummaries childTrees other _ _ hdelta =>
    have hfilled : Filled other :=
      filled_iff.mpr ⟨isUnderflowing_eq_false_iff.mp hdelta.2, hother⟩
    exact (pushChildren_repairs (balanced_internal.mp htree) (by simpa using hfilled) h).of_width
      (Nat.le_refl _) rfl
  | case4 => cases h
  | case5 height summary childSummaries childTrees other _ _ _ last hlast _ ih =>
    simp only [Option.bind_eq_bind, Option.bind_eq_some_iff] at h
    obtain ⟨⟨last', treeToAppend⟩, hpush, h⟩ := h
    split_ifs at h
    have hchildren := balanced_internal.mp htree
    have hfilled := hchildren last (List.mem_of_getLast? hlast)
    have hnodes := (ih hfilled.balanced hother hpush).filled (filled_iff.mp hfilled).1
    have hlength : (childTrees.dropLast ++ [last']).length = childTrees.length := by
      have hpos := List.length_pos_of_mem (List.mem_of_getLast? hlast)
      rw [List.length_append, List.length_dropLast, List.length_singleton]
      omega
    refine (pushChildren_repairs (fun child hchild => ?_) (fun child hchild => ?_) h).of_width
      hlength.ge rfl
    · rcases List.mem_append.mp hchild with hchild | hchild
      · exact hchildren child (List.mem_of_mem_dropLast hchild)
      · exact hnodes child (by simp_all)
    · exact hnodes child (List.mem_cons_of_mem _ hchild)
  | case6 => exact pushItems_repairs h

/-- Two nodes of one height become one node or two filled ones. -/
theorem mergeIntoRight_repairs {small large large' : SumTree α σ} {left : Option (SumTree α σ)}
    (hsmall : Balanced small) (hlarge : Balanced large)
    (h : mergeIntoRight small large = some (large', left)) : Repairs large large' left := by
  have hbase : TREE_BASE = 6 := rfl
  unfold mergeIntoRight at h
  split at h
  next smallTrees _ _ _ childTrees =>
    have hall : ∀ child ∈ smallTrees ++ childTrees, Filled child := fun child hchild =>
      (List.mem_append.mp hchild).elim (balanced_internal.mp hsmall child)
        (balanced_internal.mp hlarge child)
    have hcount : (smallTrees ++ childTrees).length = smallTrees.length + childTrees.length :=
      List.length_append
    simp only [Option.bind_eq_bind] at h
    split_ifs at h with hroom
    · simp only [Option.bind_eq_some_iff, arrayVec_eq_some_iff, Option.some.injEq,
        Prod.mk.injEq] at h
      obtain ⟨_, ⟨-, rfl⟩, _, -, rfl, rfl⟩ := h
      exact ⟨balanced_internal.mpr hall, by simp [width], rfl⟩
    · simp only [Option.bind_eq_some_iff, arrayVec_eq_some_iff, Option.some.injEq,
        Prod.mk.injEq] at h
      obtain ⟨_, ⟨-, rfl⟩, _, ⟨-, rfl⟩, _, -, _, -, rfl, rfl⟩ := h
      refine ⟨.internal ?_ fun child hchild => hall child (List.mem_of_mem_drop hchild),
        .internal ?_ fun child hchild => hall child (List.mem_of_mem_take hchild)⟩
      · rw [List.length_drop]
        omega
      · rw [List.length_take]
        omega
  next smallItems _ _ items _ =>
    have hcount : (smallItems ++ items).length = smallItems.length + items.length :=
      List.length_append
    simp only [Option.bind_eq_bind] at h
    split_ifs at h with hroom
    · simp only [Option.bind_eq_some_iff, arrayVec_eq_some_iff, Option.some.injEq,
        Prod.mk.injEq] at h
      obtain ⟨_, ⟨-, rfl⟩, _, -, rfl, rfl⟩ := h
      exact ⟨balanced_leaf, by simp [width], rfl⟩
    · simp only [Option.bind_eq_some_iff, arrayVec_eq_some_iff, Option.some.injEq,
        Prod.mk.injEq] at h
      obtain ⟨_, ⟨-, rfl⟩, _, ⟨-, rfl⟩, _, -, _, -, rfl, rfl⟩ := h
      refine ⟨.leaf ?_, .leaf ?_⟩
      · rw [List.length_drop]
        omega
      · rw [List.length_take]
        omega
  next => cases h

/-- A filled node goes in front of the children of a node, or the first of them are cut off with
it. -/
theorem pushFront_repairs {height : ℕ} {summary : σ} {childSummaries : List σ}
    {childTrees : List (SumTree α σ)} {tree large : SumTree α σ} {left : Option (SumTree α σ)}
    (hchildren : ∀ child ∈ childTrees, Filled child) (htree : Filled tree)
    (h : pushFront height summary childSummaries childTrees tree = some (large, left)) :
    Repairs (.internal height summary childSummaries childTrees) large left := by
  have hbase : TREE_BASE = 6 := rfl
  simp only [pushFront, Option.bind_eq_bind] at h
  split_ifs at h with hroom
  · simp only [Option.bind_eq_some_iff, arrayVec_eq_some_iff, Option.some.injEq,
      Prod.mk.injEq] at h
    obtain ⟨_, -, _, ⟨-, rfl⟩, rfl, rfl⟩ := h
    refine ⟨balanced_internal.mpr fun child hchild => ?_, by simp [width], rfl⟩
    rcases List.mem_cons.mp hchild with rfl | hchild
    exacts [htree, hchildren child hchild]
  · simp only [Option.bind_eq_some_iff, arrayVec_eq_some_iff, Option.some.injEq,
      Prod.mk.injEq] at h
    obtain ⟨_, -, _, ⟨-, rfl⟩, rfl, rfl⟩ := h
    refine ⟨.internal ?_ fun child hchild => hchildren child (List.mem_of_mem_drop hchild),
      .internal ?_ fun child hchild => ?_⟩
    · rw [List.length_drop]
      omega
    · rw [List.length_cons, List.length_take]
      omega
    · rcases List.mem_cons.mp hchild with rfl | hchild
      exacts [htree, hchildren child (List.mem_of_mem_take hchild)]

/-- On the way down to the height of the small tree every first child comes back filled, perhaps
with a filled node in front of it. -/
theorem appendLarge_repairs {small large large' : SumTree α σ} {left : Option (SumTree α σ)}
    (hsmall : Balanced small) (hlarge : Balanced large)
    (hwidth : small.height = large.height → TREE_BASE ≤ large.width)
    (h : appendLarge small large = some (large', left)) : Repairs large large' left := by
  by_cases hheight : small.height = large.height
  · rw [appendLarge_of_height_eq hheight] at h
    split_ifs at h with hunderflow
    · exact mergeIntoRight_repairs hsmall hlarge h
    · obtain ⟨rfl, rfl⟩ := Prod.mk.inj (Option.some.inj h)
      exact ⟨filled_iff.mpr ⟨hwidth hheight, hlarge⟩, filled_iff.mpr
        ⟨isUnderflowing_eq_false_iff.mp (by simpa using hunderflow), hsmall⟩⟩
  obtain ⟨height, summary, childSummaries, childTrees⟩ | ⟨summary, items, itemSummaries⟩ := large
  case leaf =>
    rw [SumTree.height] at hheight
    rw [appendLarge, if_neg hheight] at h
    cases h
  rw [SumTree.height] at hheight
  rcases childTrees with - | ⟨first, restTrees⟩
  · simp [appendLarge, hheight] at h
  rcases childSummaries with - | ⟨firstSummary, restSummaries⟩
  · simp [appendLarge, hheight] at h
  rw [appendLarge_internal hheight, Option.bind_eq_some_iff] at h
  obtain ⟨⟨first', res⟩, hfirst, h⟩ := h
  have hchildren := balanced_internal.mp hlarge
  have hfilled := filled_iff.mp (hchildren first List.mem_cons_self)
  have hnodes := (appendLarge_repairs hsmall hfilled.2 (fun _ => hfilled.1) hfirst).filled
    hfilled.1
  have hmore : ∀ child ∈ first' :: restTrees, Filled child := fun child hchild =>
    (List.mem_cons.mp hchild).elim (fun heq => hnodes child (heq ▸ List.mem_cons_self))
      fun hrest => hchildren child (List.mem_cons_of_mem _ hrest)
  cases res with
  | none =>
    obtain ⟨rfl, rfl⟩ := Prod.mk.inj (Option.some.inj h)
    exact ⟨balanced_internal.mpr hmore, by simp [width], rfl⟩
  | some tree =>
    exact (pushFront_repairs hmore (hnodes tree (by simp)) h).of_width (by simp [width]) rfl

/-- Appending keeps every node below the root filled, and an internal root forked. -/
theorem append_balanced {tree other result : SumTree α σ} (htree : Balanced tree)
    (hother : Balanced other) (h : append tree other = some result) :
    Balanced result ∧ (Forked tree → Forked other → Forked result) := by
  simp only [append, Option.bind_eq_bind] at h
  split_ifs at h with hempty hsome hlt
  · obtain rfl := Option.some.inj h
    exact ⟨hother, fun _ hforked => hforked⟩
  · obtain ⟨⟨large, left⟩, happend, h⟩ := Option.bind_eq_some_iff.mp h
    have hrepairs := appendLarge_repairs htree hother (fun heq => absurd heq hlt.ne) happend
    cases left with
    | none =>
      obtain rfl := Option.some.inj h
      exact ⟨hrepairs.1, fun _ => hrepairs.forked⟩
    | some left =>
      obtain rfl := Option.some.inj h
      exact ⟨fromChildTrees_balanced hrepairs.2 hrepairs.1, fun _ _ _ => Nat.le_refl 2⟩
  · obtain ⟨⟨tree', right⟩, hpush, h⟩ := Option.bind_eq_some_iff.mp h
    have hrepairs := pushTreeRecursive_repairs htree hother hpush
    cases right with
    | none =>
      obtain rfl := Option.some.inj h
      exact ⟨hrepairs.1, fun hforked _ => hrepairs.forked hforked⟩
    | some right =>
      obtain rfl := Option.some.inj h
      exact ⟨fromChildTrees_balanced hrepairs.1 hrepairs.2, fun _ _ _ => Nat.le_refl 2⟩
  · obtain rfl := Option.some.inj h
    exact ⟨htree, fun hforked _ => hforked⟩

end Append

section Built

variable [AddMonoid σ] [Item α σ] {h : ℕ} {tree : SumTree α σ}

omit [AddMonoid σ] [Item α σ] in
/-- Children of at least `m` items each. -/
theorem mul_le_length_toLists {m : ℕ} {trees : List (SumTree α σ)}
    (hle : ∀ tree ∈ trees, m ≤ tree.toList.length) : trees.length * m ≤ (toLists trees).length := by
  induction trees with
  | nil => simp
  | cons tree trees ih =>
    have hrest := ih fun t ht => hle t (List.mem_cons_of_mem _ ht)
    have hfirst := hle tree List.mem_cons_self
    rw [toLists_cons, List.length_append, List.length_cons, Nat.succ_mul, Nat.add_comm]
    exact Nat.add_le_add hfirst hrest

/-- A filled node has at least `TREE_BASE` items in every leaf, and `TREE_BASE` children on every
level. -/
theorem WellFormed.pow_le_length (wf : WellFormed h tree) (hfilled : Filled tree) :
    TREE_BASE ^ (h + 1) ≤ tree.toList.length := by
  induction wf with
  | leaf =>
    cases hfilled with
    | leaf hwidth => simpa using hwidth
  | @internal k childTrees _ _ _ _ ih =>
    cases hfilled with
    | internal hwidth hchildren =>
      have hle := mul_le_length_toLists fun tree htree => ih tree htree (hchildren tree htree)
      rw [toList_internal, pow_succ']
      exact (Nat.mul_le_mul_right _ hwidth).trans hle

/-- Below a root of width `n` that is not a leaf there are `n` filled nodes. -/
theorem WellFormed.width_mul_pow_le_length (wf : WellFormed (h + 1) tree)
    (hbalanced : Balanced tree) : tree.width * TREE_BASE ^ (h + 1) ≤ tree.toList.length := by
  obtain ⟨trees, -, -, hrow, rfl⟩ := wf.internal_inv
  rw [toList_internal]
  exact mul_le_length_toLists fun tree htree =>
    (hrow.wellFormed tree htree).pow_le_length (balanced_internal.mp hbalanced tree htree)

/-- Trees that pushes and appends make, starting from a new tree and the given ones. -/
inductive Built (given : SumTree α σ → Prop) : SumTree α σ → Prop
  | new : Built given new
  | given {tree : SumTree α σ} (h : given tree) : Built given tree
  | push {tree result : SumTree α σ} {item : α} (htree : Built given tree)
      (h : push tree item = some result) : Built given result
  | append {tree other result : SumTree α σ} (htree : Built given tree)
      (hother : Built given other) (h : append tree other = some result) : Built given result

/-- A well-formed tree whose nodes below the root are filled. -/
structure Sturdy (tree : SumTree α σ) : Prop where
  wellFormed : ∃ h, WellFormed h tree
  balanced : Balanced tree

/-- Pushes and appends keep nodes filled and roots forked. The induction is on how the tree was
built. -/
theorem Built.sturdy {given : SumTree α σ → Prop} (hgiven : ∀ tree, given tree → Sturdy tree)
    (hbuilt : Built given tree) :
    Sturdy tree ∧ ((∀ tree, given tree → Forked tree) → Forked tree) := by
  have hleaf : ∀ (summary : σ) (items : List α) (itemSummaries : List σ),
      Forked (.leaf summary items itemSummaries) := fun _ _ _ hinternal => by
    simp [isLeaf] at hinternal
  induction hbuilt with
  | new => exact ⟨⟨⟨0, new_spec⟩, balanced_leaf⟩, fun _ => hleaf _ _ _⟩
  | @given tree h => exact ⟨hgiven tree h, fun hforked => hforked tree h⟩
  | @push tree result item _ h ih =>
    obtain ⟨⟨⟨k, wf⟩, hbalanced⟩, hforked⟩ := ih
    obtain ⟨result', l, hresult, wf', -⟩ := push_spec wf item
    obtain rfl : result' = result := Option.some.inj (hresult.symm.trans h)
    have hkept := append_balanced hbalanced balanced_leaf h
    exact ⟨⟨⟨l, wf'⟩, hkept.1⟩, fun hgivenForked => hkept.2 (hforked hgivenForked) (hleaf _ _ _)⟩
  | @append tree other result _ _ h ih ihOther =>
    obtain ⟨⟨⟨k, wf⟩, hbalanced⟩, hforked⟩ := ih
    obtain ⟨⟨⟨k', wfOther⟩, hbalancedOther⟩, hforkedOther⟩ := ihOther
    obtain ⟨result', l, hresult, wf', -⟩ := append_spec wf wfOther
    obtain rfl : result' = result := Option.some.inj (hresult.symm.trans h)
    have hkept := append_balanced hbalanced hbalancedOther h
    exact ⟨⟨⟨l, wf'⟩, hkept.1⟩, fun hgivenForked =>
      hkept.2 (hforked hgivenForked) (hforkedOther hgivenForked)⟩

/-- A sturdy tree with few items is low. -/
theorem Sturdy.height_le (hsturdy : Sturdy tree) {n : ℕ}
    (hlt : tree.toList.length < TREE_BASE ^ (n + 1)) : tree.height ≤ n := by
  obtain ⟨⟨h, wf⟩, hbalanced⟩ := hsturdy
  rw [wf.height_eq]
  cases h with
  | zero => exact Nat.zero_le n
  | succ h =>
    have hpos : 0 < tree.width := width_pos (by
      obtain ⟨trees, hne, -, hrow, rfl⟩ := wf.internal_inv
      simpa using toLists_ne_nil hne hrow.occupied)
    have hle := wf.width_mul_pow_le_length hbalanced
    have hpow : TREE_BASE ^ (h + 1) < TREE_BASE ^ (n + 1) :=
      ((Nat.le_mul_of_pos_left _ hpos).trans hle).trans_lt hlt
    have := (Nat.pow_lt_pow_iff_right (by decide : 1 < TREE_BASE)).mp hpow
    omega

/-- `from_iter` builds a tree of the items, and no lower tree has room for them. -/
theorem fromIter_least (iter : List α) :
    ∃ tree : SumTree α σ, fromIter iter = some tree ∧ WellFormed tree.height tree ∧
      tree.toList = iter ∧
      IsLeast {h | iter.length ≤ (2 * TREE_BASE) ^ (h + 1)} tree.height := by
  obtain ⟨tree, h, htree, wf, hcontents, hlevels⟩ := fromIter_levels (σ := σ) iter
  obtain rfl : tree.height = h := wf.height_eq
  exact ⟨tree, htree, wf, hcontents, (hlevels tree.height).mpr (Nat.le_refl _),
    fun m hm => (hlevels m).mp hm⟩

end Built

end SumTree

end Lucie
