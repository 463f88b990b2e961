import Lucie.BoundsTree.Insert

/-!
# The invariant of a bounds tree

What the soundness of every node and the shape of the arena say about whole subtrees: a node covers
everything below it, its order is the greatest one of the leaves below it, and a leaf is reached in
one way only. This holds after every run of a client.
-/

set_option autoImplicit false

namespace Lucie.BoundsTree

open Relation Foundation

variable {U : Type} [AddCommGroup U] [LinearOrder U] {nodes : List (Node U)} {root : ℕ}

/-- The orders of the leaves below a node. -/
def ordersBelow (nodes : List (Node U)) (i : ℕ) : Set ℕ :=
  {order | ∃ j entry, ReflTransGen (IsChild nodes) i j ∧ IsEntry nodes j entry ∧ entry.2 = order}

/-- The representation invariant of a tree that holds the given rectangles with their orders. -/
structure Valid (tree : BoundsTree U) (history : List (Bounds U × ℕ)) : Prop where
  /-- The leaves are the rectangles that were inserted. -/
  leaves : tree.nodes.filterMap Node.entry = history
  /-- Only an empty tree has no root. -/
  root : tree.root = none → tree = empty
  /-- A leaf is in the tree once: one path leads to it, and no node has a child twice. -/
  once : ∀ root, tree.root = some root → ∀ i entry, IsEntry tree.nodes i entry →
    ∃! path, UpPath (IsChild tree.nodes) root i path
  nodup : ∀ (i : ℕ) (node : Node U), tree.nodes[i]? = some node → node.children.Nodup
  /-- Every node covers all nodes below it. -/
  covers : ∀ (i : ℕ) (node : Node U) (j : ℕ) (below : Node U), tree.nodes[i]? = some node →
    tree.nodes[j]? = some below → ReflTransGen (IsChild tree.nodes) i j →
    node.bounds.Covers below.bounds
  /-- The order of every node is the greatest one of the leaves below it. -/
  order : ∀ (i : ℕ) (node : Node U), tree.nodes[i]? = some node →
    IsGreatest (ordersBelow tree.nodes i) node.maxOrder
  /-- An internal node has two or more children, the last of which has its order. -/
  children : ∀ (i : ℕ) (node : Node U) (children : NodeChildren),
    tree.nodes[i]? = some node → node.kind = .internal children →
    2 ≤ children.indices.length ∧ children.indices.length ≤ MAX_CHILDREN ∧
    ∃ last child, children.indices.getLast? = some last ∧ tree.nodes[last]? = some child ∧
      child.maxOrder = node.maxOrder
  /-- The leaf of the fast path has the greatest order of all leaves. -/
  maxLeaf : ∀ root, tree.root = some root → ∃ leaf greatest, tree.maxLeaf = some leaf ∧
    IsEntry tree.nodes leaf greatest ∧ ∀ entry ∈ history, entry.2 ≤ greatest.2

/-- The orders below a node are at most its order. -/
theorem Sound.le_maxOrder (hsound : Sound nodes) {i : ℕ} {node : Node U}
    (hi : nodes[i]? = some node) {order : ℕ} (horder : order ∈ ordersBelow nodes i) :
    order ≤ node.maxOrder := by
  obtain ⟨j, entry, hreach, ⟨below, hj, hentry⟩, rfl⟩ := horder
  rw [← (hsound j below hj).leaf entry hentry]
  exact (hsound.dominates hreach hi hj).2

/-- The order of a node is that of a leaf below it. The way there goes down the last children. -/
theorem Sound.maxOrder_mem (hsound : Sound nodes)
    (tree : RootedTree (IsChild nodes) root nodes.length) (i : ℕ) :
    ∀ node, nodes[i]? = some node → node.maxOrder ∈ ordersBelow nodes i := by
  induction i using tree.induction_down with
  | h i ih =>
    intro node hi
    have hnode := hsound i node hi
    cases hentry : node.entry with
    | some entry => exact ⟨i, entry, .refl, ⟨node, hi, hentry⟩, (hnode.leaf entry hentry).symm⟩
    | none =>
      obtain ⟨children, hkind, hchildren⟩ := Node.children_of_entry hentry
      have htwo := hnode.two children hkind
      have hne : node.children ≠ [] := by
        rw [hchildren]
        exact List.ne_nil_of_length_pos (by omega)
      obtain ⟨child, hget, horder⟩ :=
        hnode.last _ (Option.mem_def.mpr (List.getLast?_eq_getLast_of_ne_nil hne))
      have hchild : IsChild nodes i (node.children.getLast hne) :=
        ⟨node, hi, List.getLast_mem hne⟩
      obtain ⟨j, entry, hreach, hleaf, heq⟩ := ih _ hchild child hget
      exact ⟨j, entry, .head hchild hreach, hleaf, heq.trans horder⟩

/-- A represented tree keeps the invariant. -/
theorem Represents.valid {tree : BoundsTree U} {history : List (Bounds U × ℕ)}
    (h : Represents tree history) : Valid tree history := by
  cases h with
  | empty =>
    have hget : ∀ (i : ℕ) (node : Node U), (BoundsTree.empty : BoundsTree U).nodes[i]? ≠
        some node := fun i node hi => by simp [BoundsTree.empty] at hi
    exact ⟨rfl, fun _ => rfl, (fun root hroot => by cases hroot),
      fun i node hi => absurd hi (hget i node), fun i node _ _ hi => absurd hi (hget i node),
      fun i node hi => absurd hi (hget i node), fun i node _ hi => absurd hi (hget i node),
      fun root hroot => by cases hroot⟩
  | @tree nodes root maxLeaf greatest sound shape leaf upper =>
    refine ⟨rfl, (fun hroot => by cases hroot), ?_, fun i node hi => (sound i node hi).nodup,
      ?_, ?_, ?_, ?_⟩
    · intro root' hroot i entry hentry
      obtain rfl : root = root' := Option.some.inj hroot
      obtain ⟨path, hpath⟩ := exists_upPath (shape.reach i entry hentry)
      exact ⟨path, hpath, fun path' hpath' => shape.tree.upPath_unique hpath' hpath⟩
    · exact fun i node j below hi hj hreach => (sound.dominates hreach hi hj).1
    · exact fun i node hi => ⟨sound.maxOrder_mem shape.tree i node hi,
        fun order horder => sound.le_maxOrder hi horder⟩
    · intro i node children hi hkind
      have hnode := sound i node hi
      have htwo := hnode.two children hkind
      have hchildren : node.children = children.indices := by simp [Node.children, hkind]
      have hne : children.indices ≠ [] := List.ne_nil_of_length_pos (by omega)
      have hlast := List.getLast?_eq_getLast_of_ne_nil hne
      obtain ⟨child, hget, horder⟩ := hnode.last _ (by rw [hchildren]; exact hlast)
      exact ⟨htwo, children.capacity, _, child, hlast, hget, horder⟩
    · intro _ _
      refine ⟨maxLeaf, greatest, rfl, leaf, fun entry hentry => ?_⟩
      obtain ⟨i, hi⟩ := (mem_filterMap_entry entry).mp hentry
      exact upper i entry hi

/-- The rectangles since the last clear, with the orders that their insertions returned. -/
def sinceClear : List (Bounds U × ℕ) → List (Op U) → List ℕ → List (Bounds U × ℕ)
  | history, [], _ => history
  | history, .insert _ :: _, [] => history
  | history, .insert bounds :: ops, order :: orders =>
    sinceClear (history ++ [(bounds, order)]) ops orders
  | _, .clear :: ops, orders => sinceClear [] ops orders

/-- A run from a represented tree does not fail and ends in one. -/
theorem Represents.run {tree : BoundsTree U} {history : List (Bounds U × ℕ)}
    (h : Represents tree history) (ops : List (Op U)) :
    ∃ tree' orders, run tree ops = some (tree', orders) ∧
      Represents tree' (sinceClear history ops orders) := by
  induction ops generalizing tree history with
  | nil => exact ⟨tree, [], rfl, h⟩
  | cons op ops ih =>
    cases op with
    | clear => exact ih .empty
    | insert bounds =>
      obtain ⟨tree', hinsert, h'⟩ := insert_represents h bounds
      obtain ⟨tree'', orders, hrun, h''⟩ := ih h'
      refine ⟨tree'', (maxIntersecting history bounds + 1) % 2 ^ 32 :: orders, ?_, h''⟩
      simp only [BoundsTree.run, hinsert, hrun, Option.bind_eq_bind, Option.bind_some]

end Lucie.BoundsTree
