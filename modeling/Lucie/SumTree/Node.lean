import Mathlib.Algebra.BigOperators.Group.List.Basic
import Mathlib.Tactic.Common

/-!
# Nodes of a sum tree

A B+ tree whose leaves hold items and the summary of every item, and whose
internal nodes hold the summary of every child. Each node also caches the
summary of everything below it. Summaries form a monoid that need not be
commutative; the context that `Summary` threads through every call is fixed
throughout a tree and is part of the monoid here.
-/

set_option autoImplicit false

namespace Lucie

/-- The maximum number of entries in a node is `2 * TREE_BASE`. -/
def TREE_BASE : ℕ := 6

/-- An item that can be stored in a `SumTree`, with the type of its summary. -/
class Item (α : Type) (σ : outParam Type) where
  /-- The summary of one item. -/
  summary : α → σ

/-- `SumTree` is a shared pointer to a `Node`; sharing is not observable. -/
inductive SumTree (α : Type) (σ : Type)
  | internal (height : ℕ) (summary : σ) (childSummaries : List σ)
      (childTrees : List (SumTree α σ))
  | leaf (summary : σ) (items : List α) (itemSummaries : List σ)

/-- Filling an `ArrayVec` of capacity `2 * TREE_BASE`, which panics on overflow. -/
def arrayVec {β : Type} (entries : List β) : Option (List β) :=
  if entries.length ≤ 2 * TREE_BASE then some entries else none

theorem arrayVec_eq_some {β : Type} {entries : List β} (h : entries.length ≤ 2 * TREE_BASE) :
    arrayVec entries = some entries := if_pos h

/-- The source's `sum`: start from zero and add from left to right. -/
def sum {σ : Type} [AddMonoid σ] (summaries : List σ) : σ :=
  summaries.foldl (fun acc value => acc + value) 0

theorem sum_eq {σ : Type} [AddMonoid σ] (summaries : List σ) : sum summaries = summaries.sum :=
  List.sum_eq_foldl.symm

namespace SumTree

variable {α σ : Type}

/-- The cached summary of a node. -/
def summary : SumTree α σ → σ
  | .internal _ summary _ _ => summary
  | .leaf summary _ _ => summary

/-- The height field of a node; leaves are at height zero. -/
def height : SumTree α σ → ℕ
  | .internal height _ _ _ => height
  | .leaf _ _ _ => 0

def isLeaf : SumTree α σ → Bool
  | .internal _ _ _ _ => false
  | .leaf _ _ _ => true

/-- Only a leaf can be empty. -/
def isEmpty : SumTree α σ → Bool
  | .internal _ _ _ _ => false
  | .leaf _ items _ => items.isEmpty

/-- Summaries of the children of an internal node or of the items of a leaf. -/
def childSummaries : SumTree α σ → List σ
  | .internal _ _ childSummaries _ => childSummaries
  | .leaf _ _ itemSummaries => itemSummaries

/-- The children of an internal node; the accessor panics on a leaf. -/
def childTrees : SumTree α σ → Option (List (SumTree α σ))
  | .internal _ _ _ childTrees => some childTrees
  | .leaf _ _ _ => none

/-- The items of a leaf; the accessor panics on an internal node. -/
def items : SumTree α σ → Option (List α)
  | .internal _ _ _ _ => none
  | .leaf _ items _ => some items

def isUnderflowing : SumTree α σ → Bool
  | .internal _ _ _ childTrees => childTrees.length < TREE_BASE
  | .leaf _ items _ => items.length < TREE_BASE

mutual

/-- The abstract contents of a tree: all items, from left to right. -/
def toList : SumTree α σ → List α
  | .internal _ _ _ childTrees => toLists childTrees
  | .leaf _ items _ => items

/-- The contents of a row of trees. -/
def toLists : List (SumTree α σ) → List α
  | [] => []
  | tree :: trees => toList tree ++ toLists trees

end

@[simp] theorem toList_internal (height : ℕ) (summary : σ) (childSummaries : List σ)
    (childTrees : List (SumTree α σ)) :
    toList (.internal height summary childSummaries childTrees) = toLists childTrees := by
  simp only [toList]

@[simp] theorem toList_leaf (summary : σ) (items : List α) (itemSummaries : List σ) :
    toList (.leaf summary items itemSummaries) = items := by
  simp only [toList]

@[simp] theorem toLists_nil : toLists ([] : List (SumTree α σ)) = [] := by
  simp only [toLists]

@[simp] theorem toLists_cons (tree : SumTree α σ) (trees : List (SumTree α σ)) :
    toLists (tree :: trees) = toList tree ++ toLists trees := by
  simp only [toLists]

@[simp] theorem toLists_append (left right : List (SumTree α σ)) :
    toLists (left ++ right) = toLists left ++ toLists right := by
  induction left with
  | nil => simp
  | cons tree trees ih => simp [ih]

/-- The left-to-right sum of the summaries of a list of items. -/
def measure [AddMonoid σ] [Item α σ] (items : List α) : σ :=
  (items.map Item.summary).sum

section Measure

variable [AddMonoid σ] [Item α σ]

@[simp] theorem measure_nil : measure ([] : List α) = 0 := rfl

@[simp] theorem measure_append (left right : List α) :
    measure (left ++ right) = measure left + measure right := by
  simp [measure]

end Measure

/-- A well-formed tree whose leaves are all `height` levels below it. Every
node has at most `2 * TREE_BASE` entries, records its own height, the summaries
of its children and the sum of the items below it, and only a root leaf can be
empty. -/
inductive WellFormed [AddMonoid σ] [Item α σ] : ℕ → SumTree α σ → Prop
  | leaf {items : List α} (capacity : items.length ≤ 2 * TREE_BASE) :
      WellFormed 0 (.leaf (measure items) items (items.map Item.summary))
  | internal {height : ℕ} {childTrees : List (SumTree α σ)}
      (nonempty : childTrees ≠ []) (capacity : childTrees.length ≤ 2 * TREE_BASE)
      (children : ∀ tree ∈ childTrees, WellFormed height tree)
      (occupied : ∀ tree ∈ childTrees, toList tree ≠ []) :
      WellFormed (height + 1) (.internal (height + 1) (measure (toLists childTrees))
        (childTrees.map summary) childTrees)

namespace WellFormed

variable [AddMonoid σ] [Item α σ] {h : ℕ} {tree : SumTree α σ}

/-- The height field of a node is its distance to the leaves. -/
theorem height_eq (wf : WellFormed h tree) : tree.height = h := by
  cases wf <;> rfl

/-- The cached summary is the sum of the summaries of the items below. -/
theorem summary_eq (wf : WellFormed h tree) : tree.summary = measure (toList tree) := by
  cases wf with
  | leaf => simp [SumTree.summary]
  | internal => simp [SumTree.summary]

end WellFormed

/-- Adding up the cached summaries of well-formed children gives the sum of
their items. -/
theorem sum_map_summary [AddMonoid σ] [Item α σ] {h : ℕ} {trees : List (SumTree α σ)}
    (wf : ∀ tree ∈ trees, WellFormed h tree) :
    (trees.map summary).sum = measure (toLists trees) := by
  induction trees with
  | nil => simp
  | cons tree trees ih =>
    rw [List.map_cons, List.sum_cons, (wf tree (by simp)).summary_eq,
      ih (fun t ht => wf t (by simp [ht])), toLists_cons, measure_append]

/-- A row of occupied trees that is not empty has contents. -/
theorem toLists_ne_nil {trees : List (SumTree α σ)} (hne : trees ≠ [])
    (occupied : ∀ tree ∈ trees, toList tree ≠ []) : toLists trees ≠ [] := by
  cases trees with
  | nil => exact absurd rfl hne
  | cons tree trees => simp [occupied tree (by simp)]

/-- A well-formed tree is empty exactly when it has no items. -/
theorem WellFormed.isEmpty_iff [AddMonoid σ] [Item α σ] {h : ℕ} {tree : SumTree α σ}
    (wf : WellFormed h tree) : tree.isEmpty = true ↔ toList tree = [] := by
  cases wf with
  | leaf => simp [isEmpty]
  | internal nonempty _ _ occupied =>
    simpa [isEmpty] using toLists_ne_nil nonempty occupied

/-- A well-formed tree with an item is not empty. -/
theorem WellFormed.isEmpty_eq_false [AddMonoid σ] [Item α σ] {h i : ℕ} {tree : SumTree α σ}
    {item : α} (wf : WellFormed h tree) (hget : (toList tree)[i]? = some item) :
    tree.isEmpty = false := by
  rw [← Bool.not_eq_true, wf.isEmpty_iff]
  intro hnil
  simp [hnil] at hget

end SumTree

end Lucie
