import Lucie.SumTree.Node

/-!
# Building and appending sum trees

The construction and concatenation routines of a sum tree. Every `ArrayVec` that
overflows, every `unwrap` of a missing child and every access to the wrong kind
of node is a panic and returns `none`.
-/

set_option autoImplicit false

namespace Lucie.SumTree

variable {α σ : Type} [AddMonoid σ] [Item α σ]

/-- `SumTree::new`: an empty leaf. -/
def new : SumTree α σ := .leaf 0 [] []

/-- The leaf that `from_iter` builds from one run of items; its summary starts
from the first item summary, whose absence would panic. -/
def chunkLeaf (items : List α) : Option (SumTree α σ) := do
  let items ← arrayVec items
  let itemSummaries ← arrayVec (items.map Item.summary)
  match itemSummaries with
  | [] => none
  | first :: rest =>
    some (.leaf (rest.foldl (fun acc value => acc + value) first) items itemSummaries)

/-- The first loop of `from_iter`: cut the items into leaves. -/
def chunkLeaves : ℕ → List α → Option (List (SumTree α σ))
  | _, [] => some []
  | 0, _ :: _ => none
  | fuel + 1, items => do
    let node ← chunkLeaf (items.take (2 * TREE_BASE))
    let nodes ← chunkLeaves fuel (items.drop (2 * TREE_BASE))
    some (node :: nodes)

/-- The inner loop of `from_iter`: hand the nodes of one level to parents, starting
a new parent whenever the current one is full. The current parent is given by
its summary, child summaries and children. -/
def groupNodes (height : ℕ) :
    Option (σ × List σ × List (SumTree α σ)) → List (SumTree α σ) → Option (List (SumTree α σ))
  | none, [] => some []
  | some (summary, childSummaries, childTrees), [] =>
    some [.internal height summary childSummaries childTrees]
  | current, childNode :: nodes => do
    let (summary, childSummaries, childTrees) := current.getD (0, [], [])
    let summary := summary + childNode.summary
    let childSummaries ← arrayVec (childSummaries ++ [childNode.summary])
    let childTrees ← arrayVec (childTrees ++ [childNode])
    if childTrees.length = 2 * TREE_BASE then
      let parents ← groupNodes height none nodes
      some (.internal height summary childSummaries childTrees :: parents)
    else
      groupNodes height (some (summary, childSummaries, childTrees)) nodes

/-- The outer loop of `from_iter`: build levels until at most one node is left. -/
def buildLevels : ℕ → ℕ → List (SumTree α σ) → Option (List (SumTree α σ))
  | 0, _, _ => none
  | fuel + 1, height, nodes =>
    if nodes.length > 1 then do
      let parents ← groupNodes (height + 1) none nodes
      buildLevels fuel (height + 1) parents
    else
      some nodes

/-- `SumTree::from_iter`. A level has fewer nodes than the one below it, so the
number of items bounds the rounds of both loops. -/
def fromIter (iter : List α) : Option (SumTree α σ) := do
  let nodes ← chunkLeaves iter.length iter
  let nodes ← buildLevels (iter.length + 1) 0 nodes
  match nodes with
  | [] => some new
  | node :: _ => some node

/-- The end of `push_tree_recursive` on an internal node: take over the trees to
append, or split into two nodes of the same height. -/
def pushChildren (height : ℕ) (summary : σ) (childSummaries : List σ)
    (childTrees : List (SumTree α σ)) (summariesToAppend : List σ)
    (treesToAppend : List (SumTree α σ)) : Option (SumTree α σ × Option (SumTree α σ)) :=
  let childCount := childTrees.length + treesToAppend.length
  if childCount > 2 * TREE_BASE then do
    let midpoint := (childCount + childCount % 2) / 2
    let leftSummaries ← arrayVec ((childSummaries ++ summariesToAppend).take midpoint)
    let rightSummaries ← arrayVec ((childSummaries ++ summariesToAppend).drop midpoint)
    let leftTrees ← arrayVec ((childTrees ++ treesToAppend).take midpoint)
    let rightTrees ← arrayVec ((childTrees ++ treesToAppend).drop midpoint)
    some (.internal height (sum leftSummaries) leftSummaries leftTrees,
      some (.internal height (sum rightSummaries) rightSummaries rightTrees))
  else do
    let childSummaries ← arrayVec (childSummaries ++ summariesToAppend)
    let childTrees ← arrayVec (childTrees ++ treesToAppend)
    some (.internal height summary childSummaries childTrees, none)

/-- The leaf branch of `push_tree_recursive`. -/
def pushItems (summary : σ) (items : List α) (itemSummaries : List σ) (other : SumTree α σ) :
    Option (SumTree α σ × Option (SumTree α σ)) := do
  let otherItems ← other.items
  let childCount := items.length + otherItems.length
  if childCount > 2 * TREE_BASE then
    let midpoint := (childCount + childCount % 2) / 2
    let leftItems ← arrayVec ((items ++ otherItems).take midpoint)
    let rightItems ← arrayVec ((items ++ otherItems).drop midpoint)
    let leftSummaries ← arrayVec ((itemSummaries ++ other.childSummaries).take midpoint)
    let rightSummaries ← arrayVec ((itemSummaries ++ other.childSummaries).drop midpoint)
    some (.leaf (sum leftSummaries) leftItems leftSummaries,
      some (.leaf (sum rightSummaries) rightItems rightSummaries))
  else
    let items ← arrayVec (items ++ otherItems)
    let itemSummaries ← arrayVec (itemSummaries ++ other.childSummaries)
    some (.leaf (summary + other.summary) items itemSummaries, none)

/-- `SumTree::push_tree_recursive`: the tree after the call, and the node split
off to its right, if any. The `u8` subtraction of heights panics on underflow. -/
def pushTreeRecursive : SumTree α σ → SumTree α σ → Option (SumTree α σ × Option (SumTree α σ))
  | .internal height summary childSummaries childTrees, other =>
    if height < other.height then
      none
    else if height - other.height = 0 then do
      let trees ← other.childTrees
      let summariesToAppend ← arrayVec other.childSummaries
      let treesToAppend ← arrayVec trees
      pushChildren height (summary + other.summary) childSummaries childTrees
        summariesToAppend treesToAppend
    else if height - other.height = 1 ∧ other.isUnderflowing = false then
      pushChildren height (summary + other.summary) childSummaries childTrees
        [other.summary] [other]
    else
      match hlast : childTrees.getLast? with
      | none => none
      | some last => do
        have : sizeOf last < sizeOf childTrees :=
          List.sizeOf_lt_of_mem (List.mem_of_getLast? hlast)
        let (last, treeToAppend) ← pushTreeRecursive last other
        if childSummaries = [] then none else
        let childTrees := childTrees.dropLast ++ [last]
        let childSummaries := childSummaries.dropLast ++ [last.summary]
        let treesToAppend := treeToAppend.toList
        pushChildren height (summary + other.summary) childSummaries childTrees
          (treesToAppend.map SumTree.summary) treesToAppend
  | .leaf summary items itemSummaries, other => pushItems summary items itemSummaries other
  termination_by tree => sizeOf tree
  decreasing_by simp; omega

/-- `SumTree::merge_into_right` for two nodes of the same height: the new large
node, and the node split off to its left, if any. -/
def mergeIntoRight : SumTree α σ → SumTree α σ → Option (SumTree α σ × Option (SumTree α σ))
  | .internal _ smallSummary smallChildSummaries smallChildTrees,
    .internal height summary childSummaries childTrees =>
    let totalChildCount := childTrees.length + smallChildTrees.length
    if totalChildCount ≤ 2 * TREE_BASE then do
      let allTrees ← arrayVec (smallChildTrees ++ childTrees)
      let allSummaries ← arrayVec (smallChildSummaries ++ childSummaries)
      some (.internal height (smallSummary + summary) allSummaries allTrees, none)
    else do
      let midpoint := (totalChildCount + 1) / 2
      let leftTrees ← arrayVec ((smallChildTrees ++ childTrees).take midpoint)
      let rightTrees ← arrayVec ((smallChildTrees ++ childTrees).drop midpoint)
      let leftSummaries ← arrayVec ((smallChildSummaries ++ childSummaries).take midpoint)
      let rightSummaries ← arrayVec ((smallChildSummaries ++ childSummaries).drop midpoint)
      some (.internal height (sum rightSummaries) rightSummaries rightTrees,
        some (.internal height (sum leftSummaries) leftSummaries leftTrees))
  | .leaf smallSummary smallItems smallItemSummaries, .leaf summary items itemSummaries =>
    let totalChildCount := smallItems.length + items.length
    if totalChildCount ≤ 2 * TREE_BASE then do
      let allItems ← arrayVec (smallItems ++ items)
      let allSummaries ← arrayVec (smallItemSummaries ++ itemSummaries)
      some (.leaf (smallSummary + summary) allItems allSummaries, none)
    else do
      let midpoint := (totalChildCount + 1) / 2
      let leftItems ← arrayVec ((smallItems ++ items).take midpoint)
      let rightItems ← arrayVec ((smallItems ++ items).drop midpoint)
      let leftSummaries ← arrayVec ((smallItemSummaries ++ itemSummaries).take midpoint)
      let rightSummaries ← arrayVec ((smallItemSummaries ++ itemSummaries).drop midpoint)
      some (.leaf (sum rightSummaries) rightItems rightSummaries,
        some (.leaf (sum leftSummaries) leftItems leftSummaries))
  | _, _ => none

/-- The end of `append_large` on an internal node: put the tree that came back
from the first child in front, or split it off together with the first
`TREE_BASE` children. -/
def pushFront (height : ℕ) (summary : σ) (childSummaries : List σ)
    (childTrees : List (SumTree α σ)) (tree : SumTree α σ) :
    Option (SumTree α σ × Option (SumTree α σ)) :=
  if childTrees.length < 2 * TREE_BASE then do
    let childSummaries ← arrayVec (tree.summary :: childSummaries)
    let childTrees ← arrayVec (tree :: childTrees)
    some (.internal height summary childSummaries childTrees, none)
  else if childSummaries.length < TREE_BASE then
    none
  else do
    let newChildSummaries ← arrayVec (tree.summary :: childSummaries.take TREE_BASE)
    let newChildTrees ← arrayVec (tree :: childTrees.take TREE_BASE)
    let childSummaries := childSummaries.drop TREE_BASE
    let childTrees := childTrees.drop TREE_BASE
    some (.internal height (sum childSummaries) childSummaries childTrees,
      some (.internal height (sum newChildSummaries) newChildSummaries newChildTrees))

/-- `SumTree::append_large`: put `small` in front of the contents of `large`,
descending along its first children. Returns the new large tree, and the node
split off to its left, if any. -/
def appendLarge (small : SumTree α σ) :
    SumTree α σ → Option (SumTree α σ × Option (SumTree α σ))
  | .internal height summary childSummaries childTrees =>
    if small.height = height then
      if small.isUnderflowing then
        mergeIntoRight small (.internal height summary childSummaries childTrees)
      else
        some (.internal height summary childSummaries childTrees, some small)
    else
      match childTrees, childSummaries with
      | first :: restTrees, _ :: restSummaries => do
        let (first, res) ← appendLarge small first
        let childTrees := first :: restTrees
        let childSummaries := first.summary :: restSummaries
        match res with
        | none => some (.internal height (small.summary + summary) childSummaries childTrees, none)
        | some tree => pushFront height (small.summary + summary) childSummaries childTrees tree
      | _, _ => none
  | .leaf summary items itemSummaries =>
    if small.height = 0 then
      if small.isUnderflowing then
        mergeIntoRight small (.leaf summary items itemSummaries)
      else
        some (.leaf summary items itemSummaries, some small)
    else
      none

/-- `SumTree::from_child_trees`: a root with two children. -/
def fromChildTrees (left right : SumTree α σ) : SumTree α σ :=
  .internal (left.height + 1) (sum [left.summary, right.summary])
    [left.summary, right.summary] [left, right]

/-- `SumTree::append`. Testing whether the other tree has items looks at the
items of a leaf only. -/
def append (tree other : SumTree α σ) : Option (SumTree α σ) :=
  if tree.isEmpty then
    some other
  else if !other.isLeaf || !other.isEmpty then
    if tree.height < other.height then do
      let (other, left) ← appendLarge tree other
      match left with
      | some left => some (fromChildTrees left other)
      | none => some other
    else do
      let (tree, splitTree) ← pushTreeRecursive tree other
      match splitTree with
      | some splitTree => some (fromChildTrees tree splitTree)
      | none => some tree
  else
    some tree

/-- `SumTree::push`: append a leaf with a single item. -/
def push (tree : SumTree α σ) (item : α) : Option (SumTree α σ) :=
  append tree (.leaf (Item.summary item) [item] [Item.summary item])

/-- `SumTree::extend`: append a tree built from the new items. -/
def extend (tree : SumTree α σ) (iter : List α) : Option (SumTree α σ) := do
  let other ← fromIter iter
  append tree other

end Lucie.SumTree
