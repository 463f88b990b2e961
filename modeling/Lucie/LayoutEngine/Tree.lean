import Mathlib
import Lucie.Geometry.Bounds

/-!
# The layout tree

Nodes are added with their children, so that a node is behind its children and has its parent
behind it. A node can be given to a second parent: it stays in the list of the first one, while
its own parent is the last that it was given to. Everything on the way from a node to its root
has the node in its subtree.
-/

set_option autoImplicit false

namespace Lucie.LayoutEngine

/-- The `location` and the `size` of a `Layout`. -/
structure Layout where
  location : Point ℚ
  size : Size ℚ

/-- `Layout::new`. -/
def Layout.new : Layout := ⟨⟨0, 0⟩, ⟨0, 0⟩⟩

/-- A `TaffyTree`. Nodes have the numbers below `count`. -/
structure TaffyTree where
  count : ℕ
  children : ℕ → List ℕ
  parent : ℕ → Option ℕ
  layout : ℕ → Layout
  children_lt : ∀ id, ∀ child ∈ children id, child < id
  mem_children : ∀ id p, parent id = some p → id ∈ children p
  parent_lt : ∀ id p, parent id = some p → p < count

namespace TaffyTree

/-- `TaffyTree::new`; `clear` leaves the same. -/
def new : TaffyTree where
  count := 0
  children _ := []
  parent _ := none
  layout _ := .new
  children_lt _ _ hchild := absurd hchild List.not_mem_nil
  mem_children _ _ hparent := by cases hparent
  parent_lt _ _ hparent := by cases hparent

variable (tree : TaffyTree)

/-- `TaffyTree::new_with_children`, and `new_leaf` where there are no children: a node whose
children are nodes already. -/
def newWithChildren (children : List ℕ) (hchildren : ∀ child ∈ children, child < tree.count) :
    TaffyTree where
  count := tree.count + 1
  children := Function.update tree.children tree.count children
  parent id := if id ∈ children then some tree.count else tree.parent id
  layout := Function.update tree.layout tree.count .new
  children_lt id child hchild := by
    by_cases hid : id = tree.count
    · subst hid
      rw [Function.update_self] at hchild
      exact hchildren child hchild
    · rw [Function.update_of_ne hid] at hchild
      exact tree.children_lt id child hchild
  mem_children id p hparent := by
    split_ifs at hparent with hid
    · obtain rfl := Option.some.inj hparent
      rwa [Function.update_self]
    · have hp := tree.parent_lt id p hparent
      rw [Function.update_of_ne (by omega)]
      exact tree.mem_children id p hparent
  parent_lt id p hparent := by
    split_ifs at hparent with hid
    · obtain rfl := Option.some.inj hparent
      exact Nat.lt_succ_self _
    · exact Nat.lt_succ_of_lt (tree.parent_lt id p hparent)

theorem lt_parent {id p : ℕ} (hparent : tree.parent id = some p) : id < p :=
  tree.children_lt p id (tree.mem_children id p hparent)

/-- The node and everything below it. -/
def subtree (id : ℕ) : List ℕ :=
  id :: (tree.children id).attach.flatMap fun child => subtree child.1
termination_by id
decreasing_by exact tree.children_lt id child.1 child.2

/-- The node and everything above it, up to its root. -/
def pathToRoot (id : ℕ) : List ℕ :=
  match _hparent : tree.parent id with
  | none => [id]
  | some p => id :: pathToRoot p
termination_by tree.count - id
decreasing_by
  have hlt := tree.lt_parent _hparent
  have hcount := tree.parent_lt id p _hparent
  omega

/-- The tree with the layouts that are computed for the subtree of a node. -/
def setLayouts (id : ℕ) (layouts : ℕ → Layout) : TaffyTree :=
  { tree with layout := fun x => if x ∈ tree.subtree id then layouts x else tree.layout x }

/-! ## Subtrees and paths -/

variable {tree} {id x y p : ℕ}

theorem subtree_eq (tree : TaffyTree) (id : ℕ) :
    tree.subtree id = id :: (tree.children id).flatMap tree.subtree := by
  rw [subtree, List.flatMap_subtype (g := tree.subtree) fun _ _ => rfl, List.unattach_attach]

theorem mem_subtree : x ∈ tree.subtree id ↔ x = id ∨ ∃ child ∈ tree.children id,
    x ∈ tree.subtree child := by
  rw [subtree_eq, List.mem_cons, List.mem_flatMap]

theorem length_subtree : (tree.subtree id).length =
    ((tree.children id).map fun child => (tree.subtree child).length).sum + 1 := by
  rw [subtree_eq, List.length_cons, List.length_flatMap]

@[simp] theorem self_mem_subtree : id ∈ tree.subtree id := mem_subtree.mpr (Or.inl rfl)

theorem subtree_trans (hx : x ∈ tree.subtree y) (hy : y ∈ tree.subtree id) :
    x ∈ tree.subtree id := by
  induction id using Nat.strong_induction_on with
  | _ id ih =>
    obtain rfl | ⟨child, hchild, hy⟩ := mem_subtree.mp hy
    · exact hx
    · exact mem_subtree.mpr (Or.inr ⟨child, hchild, ih child (tree.children_lt id child hchild) hy⟩)

theorem pathToRoot_of_none (hparent : tree.parent id = none) : tree.pathToRoot id = [id] := by
  rw [pathToRoot]
  split
  · rfl
  · rename_i p hp
    rw [hparent] at hp
    cases hp

theorem pathToRoot_of_some (hparent : tree.parent id = some p) :
    tree.pathToRoot id = id :: tree.pathToRoot p := by
  rw [pathToRoot]
  split
  · rename_i hp
    rw [hparent] at hp
    cases hp
  · rename_i q hq
    obtain rfl := Option.some.inj (hparent.symm.trans hq)
    rfl

/-- What holds of a node as soon as it holds of its parent holds everywhere. -/
theorem induction_up (tree : TaffyTree) {motive : ℕ → Prop}
    (hroot : ∀ id, tree.parent id = none → motive id)
    (hinner : ∀ id p, tree.parent id = some p → motive p → motive id) (id : ℕ) : motive id := by
  induction hn : tree.count - id using Nat.strong_induction_on generalizing id with
  | _ n ih =>
    cases hparent : tree.parent id with
    | none => exact hroot id hparent
    | some p =>
      have hlt := tree.lt_parent hparent
      have hcount := tree.parent_lt id p hparent
      exact hinner id p hparent (ih (tree.count - p) (by omega) p rfl)

theorem self_mem_path (tree : TaffyTree) (x : ℕ) : x ∈ tree.pathToRoot x := by
  cases hparent : tree.parent x with
  | none => rw [pathToRoot_of_none hparent]; exact List.mem_singleton_self x
  | some p => rw [pathToRoot_of_some hparent]; exact List.mem_cons_self

/-- A node is below everything on its way to the root. -/
theorem mem_subtree_of_mem_path (hy : y ∈ tree.pathToRoot x) : x ∈ tree.subtree y := by
  induction x using tree.induction_up with
  | hroot x hparent =>
    rw [pathToRoot_of_none hparent, List.mem_singleton] at hy
    exact hy ▸ self_mem_subtree
  | hinner x p hparent ih =>
    rw [pathToRoot_of_some hparent] at hy
    obtain rfl | hy := List.mem_cons.mp hy
    · exact self_mem_subtree
    · have hx : x ∈ tree.subtree p :=
        mem_subtree.mpr (Or.inr ⟨x, tree.mem_children x p hparent, self_mem_subtree⟩)
      exact subtree_trans hx (ih hy)

/-- Two trees with the same parents along a path have the same path. -/
theorem pathToRoot_congr {tree' : TaffyTree}
    (hsame : ∀ y ∈ tree.pathToRoot x, tree'.parent y = tree.parent y) :
    tree'.pathToRoot x = tree.pathToRoot x := by
  induction x using tree.induction_up with
  | hroot x hparent =>
    rw [pathToRoot_of_none hparent] at hsame ⊢
    rw [pathToRoot_of_none ((hsame x (by simp)).trans hparent)]
  | hinner x p hparent ih =>
    rw [pathToRoot_of_some hparent] at hsame ⊢
    rw [pathToRoot_of_some ((hsame x (by simp)).trans hparent),
      ih fun y hy => hsame y (List.mem_cons_of_mem _ hy)]

@[simp] theorem pathToRoot_setLayouts (id x : ℕ) (layouts : ℕ → Layout) :
    (tree.setLayouts id layouts).pathToRoot x = tree.pathToRoot x :=
  pathToRoot_congr fun _ _ => rfl

/-- A sum along a path stays the same when a node is added that counts nothing, unless a node
on the path is given to another parent. -/
theorem sum_pathToRoot_newWithChildren {children : List ℕ}
    (hchildren : ∀ child ∈ children, child < tree.count) (f f' : ℕ → ℚ)
    (hsame : ∀ y < tree.count, f' y = f y) (hnew : f' tree.count = 0) (hx : x < tree.count)
    (hkeep : ∀ y ∈ tree.pathToRoot x, y ∈ children → tree.parent y = none) :
    (((tree.newWithChildren children hchildren).pathToRoot x).map f').sum =
      ((tree.pathToRoot x).map f).sum := by
  set tree' := tree.newWithChildren children hchildren
  have hparent_of_mem {y : ℕ} (hy : y ∈ children) : tree'.parent y = some tree.count := if_pos hy
  have hparent_of_not_mem {y : ℕ} (hy : y ∉ children) : tree'.parent y = tree.parent y := if_neg hy
  induction x using tree.induction_up with
  | hroot x hparent =>
    rw [pathToRoot_of_none hparent]
    by_cases hmem : x ∈ children
    · -- the root gets the new node as its parent
      have hcount : tree.count ∉ children := fun h => absurd (hchildren _ h) (lt_irrefl _)
      have hroot : tree'.parent tree.count = none := by
        rw [hparent_of_not_mem hcount]
        cases hp : tree.parent tree.count with
        | none => rfl
        | some p => exact absurd (tree.parent_lt _ p hp) (tree.lt_parent hp).not_gt
      rw [pathToRoot_of_some (hparent_of_mem hmem), pathToRoot_of_none hroot]
      simp [hsame x hx, hnew]
    · rw [pathToRoot_of_none ((hparent_of_not_mem hmem).trans hparent)]
      simp [hsame x hx]
  | hinner x p hparent ih =>
    have hmem : x ∉ children := by
      intro hmem
      have hnone := hkeep x (self_mem_path tree x) hmem
      rw [hparent] at hnone
      cases hnone
    rw [pathToRoot_of_some hparent] at hkeep ⊢
    rw [pathToRoot_of_some ((hparent_of_not_mem hmem).trans hparent), List.map_cons, List.map_cons,
      List.sum_cons, List.sum_cons, hsame x hx,
      ih (tree.parent_lt x p hparent) fun y hy => hkeep y (List.mem_cons_of_mem _ hy)]

end TaffyTree

end Lucie.LayoutEngine
