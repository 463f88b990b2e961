import Lucie.BoundsTree.Tree
import Lucie.Foundation.RootedTree
import Mathlib.Logic.Relation

/-!
# The shape of a bounds tree

The nodes of the arena that are internal form a rooted tree through their children.
Every leaf of the arena hangs in that tree, below nodes that cover its bounds and
have at least its order.
-/

set_option autoImplicit false

namespace Lucie

open Relation

section Arena

variable {U : Type}

/-- The child indices of a node; a leaf has none. -/
def Node.children (node : Node U) : List ℕ :=
  match node.kind with
  | .leaf _ => []
  | .internal children => children.indices

/-- The rectangle and the order that a leaf records. -/
def Node.entry (node : Node U) : Option (Bounds U × ℕ) :=
  match node.kind with
  | .leaf order => some (node.bounds, order)
  | .internal _ => none

theorem Node.entry_fst {node : Node U} {entry : Bounds U × ℕ} (h : node.entry = some entry) :
    entry.1 = node.bounds := by
  cases hkind : node.kind with
  | leaf order =>
    simp only [Node.entry, hkind, Option.some.injEq] at h
    rw [← h]
  | internal children => simp [Node.entry, hkind] at h

theorem Node.children_of_entry {node : Node U} (h : node.entry = none) :
    ∃ children, node.kind = .internal children ∧ node.children = children.indices := by
  cases hkind : node.kind with
  | leaf order => simp [Node.entry, hkind] at h
  | internal children => exact ⟨children, rfl, by simp [Node.children, hkind]⟩

namespace BoundsTree

/-- The child relation of an arena. -/
def IsChild (nodes : List (Node U)) (p c : ℕ) : Prop :=
  ∃ node, nodes[p]? = some node ∧ c ∈ node.children

/-- The entry of the leaf at an index. -/
def IsEntry (nodes : List (Node U)) (i : ℕ) (entry : Bounds U × ℕ) : Prop :=
  ∃ node, nodes[i]? = some node ∧ node.entry = some entry

theorem exists_node {nodes : List (Node U)} {i : ℕ} (h : i < nodes.length) :
    ∃ node, nodes[i]? = some node := ⟨nodes[i], List.getElem?_eq_getElem h⟩

theorem not_isChild_of_entry {nodes : List (Node U)} {i : ℕ} {entry : Bounds U × ℕ}
    (h : IsEntry nodes i entry) (c : ℕ) : ¬ IsChild nodes i c := by
  obtain ⟨node, hnode, hentry⟩ := h
  rintro ⟨node', hnode', hc⟩
  obtain rfl : node = node' := Option.some.inj (hnode.symm.trans hnode')
  cases hkind : node.kind <;> simp_all [Node.entry, Node.children]

/-- The nodes reachable from `root` form a tree that holds every leaf. -/
structure Shape (nodes : List (Node U)) (root : ℕ) : Prop where
  root_lt : root < nodes.length
  tree : Foundation.RootedTree (IsChild nodes) root nodes.length
  reach : ∀ i entry, IsEntry nodes i entry → ReflTransGen (IsChild nodes) root i

end BoundsTree

end Arena

variable {U : Type} [AddCommGroup U] [LinearOrder U]

/-- One node bounds another: it covers its rectangle and has at least its order. -/
def Node.Dominates (node child : Node U) : Prop :=
  node.bounds.Covers child.bounds ∧ child.maxOrder ≤ node.maxOrder

theorem Node.Dominates.refl (a : Node U) : a.Dominates a := ⟨.refl _, le_refl _⟩

theorem Node.Dominates.trans {a b c : Node U} (hab : a.Dominates b) (hbc : b.Dominates c) :
    a.Dominates c := ⟨hab.1.trans hbc.1, hbc.2.trans hab.2⟩

/-- What one node owes to the arena. A leaf has its own order; an internal node has at
least two children, bounds them all, and has the order of its last child. -/
structure Node.Sound (nodes : List (Node U)) (node : Node U) : Prop where
  leaf : ∀ entry, node.entry = some entry → node.maxOrder = entry.2
  two : ∀ children, node.kind = .internal children → 2 ≤ children.indices.length
  nodup : node.children.Nodup
  dominates : ∀ c ∈ node.children, ∃ child, nodes[c]? = some child ∧ node.Dominates child
  last : ∀ c ∈ node.children.getLast?, ∃ child, nodes[c]? = some child ∧
    child.maxOrder = node.maxOrder

namespace BoundsTree

/-- Every node of the arena is sound. -/
def Sound (nodes : List (Node U)) : Prop :=
  ∀ (i : ℕ) (node : Node U), nodes[i]? = some node → node.Sound nodes

variable {nodes : List (Node U)}

/-- Children are in range. -/
theorem Sound.closed (hsound : Sound nodes) {p c : ℕ} (hchild : IsChild nodes p c) :
    c < nodes.length := by
  obtain ⟨node, hnode, hc⟩ := hchild
  obtain ⟨child, hget, -⟩ := (hsound p node hnode).dominates c hc
  exact (List.getElem?_eq_some_iff.mp hget).1

/-- A node bounds everything below it. -/
theorem Sound.dominates (hsound : Sound nodes) {i j : ℕ}
    (hreach : ReflTransGen (IsChild nodes) i j) {node below : Node U}
    (hi : nodes[i]? = some node) (hj : nodes[j]? = some below) : node.Dominates below := by
  induction hreach generalizing below with
  | refl =>
    obtain rfl : node = below := Option.some.inj (hi.symm.trans hj)
    exact .refl node
  | @tail p c _ hchild ih =>
    obtain ⟨parent, hp, hc⟩ := hchild
    obtain ⟨child, hget, hdom⟩ := (hsound p parent hp).dominates c hc
    obtain rfl : child = below := Option.some.inj (hget.symm.trans hj)
    exact (ih hp).trans hdom

end BoundsTree

end Lucie
