import Lucie.Foundation.Loop
import Lucie.Geometry.Bounds
import Mathlib

/-!
# The bounds tree

An R-tree in an arena: nodes refer to their children by index. Its only query is
the order that a new rectangle gets, one more than the greatest order among the
rectangles that it overlaps. Orders are 32-bit. An index out of range, a push onto
full children and an unreachable branch are panics and return `none`.
-/

set_option autoImplicit false

namespace Lucie

/-- Maximum children per internal node. -/
def MAX_CHILDREN : ℕ := 12

/-- Child indices of an internal node, at most `MAX_CHILDREN` of them. -/
structure NodeChildren where
  indices : List ℕ
  capacity : indices.length ≤ MAX_CHILDREN

namespace NodeChildren

/-- `NodeChildren::push`. -/
def push (children : NodeChildren) (index : ℕ) : Option NodeChildren :=
  if h : children.indices.length < MAX_CHILDREN then
    some ⟨children.indices ++ [index], by rw [List.length_append]; exact h⟩
  else none

/-- `children.indices.swap(i, j)`. -/
def swap (children : NodeChildren) (i j : ℕ) : NodeChildren :=
  ⟨children.indices.swap i j,
    (List.swap_perm children.indices i j).length_eq ▸ children.capacity⟩

/-- `children.indices[i] = index`. -/
def set (children : NodeChildren) (i index : ℕ) : NodeChildren :=
  ⟨children.indices.set i index, by rw [List.length_set]; exact children.capacity⟩

/-- Two children, the second of which has the greater order. -/
def pair (first second : ℕ) : NodeChildren :=
  ⟨[first, second], show 2 ≤ 12 by decide⟩

/-- Swap a child to the end. -/
def moveLast (children : NodeChildren) (index : ℕ) : NodeChildren :=
  match children.indices.idxOf? index with
  | some pos =>
    let last := children.indices.length - 1
    if pos ≠ last then children.swap pos last else children
  | none => children

end NodeChildren

inductive NodeKind
  | leaf (order : ℕ)
  | internal (children : NodeChildren)

/-- A node in the bounds tree. -/
structure Node (U : Type) where
  bounds : Bounds U
  maxOrder : ℕ
  kind : NodeKind

/-- The stacks that the source keeps for reuse are cleared before every use and are
local to the functions here. -/
structure BoundsTree (U : Type) where
  nodes : List (Node U)
  root : Option ℕ
  maxLeaf : Option ℕ

namespace BoundsTree

variable {U : Type} [AddCommGroup U] [LinearOrder U]

/-- `BoundsTree::default`, and what `clear` leaves. -/
def empty : BoundsTree U := ⟨[], none, none⟩

/-- Push the children that can improve the result, the last one on top. -/
def pushChildren (nodes : List (Node U)) (maxFound : ℕ) :
    List ℕ → List ℕ → Option (List ℕ)
  | [], stack => some stack
  | child :: children, stack => do
    let node ← nodes[child]?
    pushChildren nodes maxFound children
      (if node.maxOrder > maxFound then child :: stack else stack)

/-- One round of the search: the stack, with its top first, and the greatest order
found so far. -/
def searchRound (nodes : List (Node U)) (query : Bounds U) :
    List ℕ × ℕ → Option (Foundation.Round (List ℕ × ℕ) ℕ)
  | ([], maxFound) => some (.done maxFound)
  | (index :: stack, maxFound) => do
    let node ← nodes[index]?
    if node.maxOrder ≤ maxFound then some (.next (stack, maxFound))
    else if query.intersects node.bounds = false then some (.next (stack, maxFound))
    else
      match node.kind with
      | .leaf order => some (.next (stack, max maxFound order))
      | .internal children => do
        let stack ← pushChildren nodes maxFound children.indices stack
        some (.next (stack, maxFound))

/-- The slow path of `find_max_ordering`, with fuel for a tree whose height is less
than its number of nodes. -/
def searchTree (nodes : List (Node U)) (root : ℕ) (query : Bounds U) : Option ℕ :=
  Foundation.loop (searchRound nodes query) ((MAX_CHILDREN + 1) ^ nodes.length + 1) ([root], 0)

/-- `BoundsTree::find_max_ordering`. -/
def findMaxOrdering (tree : BoundsTree U) (query : Bounds U) : Option ℕ :=
  match tree.root with
  | none => some 0
  | some root =>
    match tree.maxLeaf with
    | none => searchTree tree.nodes root query
    | some maxIndex => do
      let maxNode ← tree.nodes[maxIndex]?
      if query.intersects maxNode.bounds then some maxNode.maxOrder
      else searchTree tree.nodes root query

/-- The best child of a node: the first whose union with the new bounds has the
least half perimeter, with its position. -/
def bestChild (nodes : List (Node U)) (bounds : Bounds U) :
    List ℕ → ℕ → ℕ → ℕ → U → Option (ℕ × ℕ)
  | [], _, bestIndex, bestPos, _ => some (bestIndex, bestPos)
  | child :: children, pos, bestIndex, bestPos, bestCost => do
    let node ← nodes[child]?
    let cost := (bounds.union node.bounds).halfPerimeter
    if cost < bestCost then bestChild nodes bounds children (pos + 1) child pos cost
    else bestChild nodes bounds children (pos + 1) bestIndex bestPos bestCost

/-- One round of the descent to the node to insert into: the current node and the
insert path above it, with its end first. The result is the insert path, the best
child of its end, which is a leaf, and the position of that child. -/
def descendRound (nodes : List (Node U)) (bounds : Bounds U) :
    ℕ × List ℕ → Option (Foundation.Round (ℕ × List ℕ) (ℕ × List ℕ × ℕ × ℕ))
  | (current, path) => do
    let node ← nodes[current]?
    match node.kind with
    | .leaf _ => none
    | .internal children =>
      match children.indices with
      | [] => none
      | first :: rest => do
        let firstNode ← nodes[first]?
        let (bestIndex, bestPos) ← bestChild nodes bounds rest 1 first 0
          (bounds.union firstNode.bounds).halfPerimeter
        let best ← nodes[bestIndex]?
        match best.kind with
        | .leaf _ => some (.done (current, path, bestIndex, bestPos))
        | .internal _ => some (.next (bestIndex, current :: path))

/-- Insert the new leaf below the node at the end of the insert path: next to its
best child if there is room, and otherwise in a new internal node that takes the
place of the best child. -/
def attach (nodes : List (Node U)) (current bestIndex bestPos newLeaf : ℕ) (bounds : Bounds U)
    (order : ℕ) : Option (List (Node U)) := do
  let node ← nodes[current]?
  match node.kind with
  | .leaf _ => none
  | .internal children =>
    if children.indices.length < MAX_CHILDREN then do
      let children ← children.push newLeaf
      let last := children.indices.length - 1
      let children := if order ≤ node.maxOrder then children.swap (last - 1) last else children
      some (nodes.set current
        ⟨node.bounds.union bounds, max node.maxOrder order, .internal children⟩)
    else do
      let sibling ← nodes[bestIndex]?
      let newChildren := if order > sibling.maxOrder then NodeChildren.pair bestIndex newLeaf
        else NodeChildren.pair newLeaf bestIndex
      let newInternal := nodes.length
      let newInternalMax := max sibling.maxOrder order
      let nodes := nodes ++ [⟨sibling.bounds.union bounds, newInternalMax, .internal newChildren⟩]
      let children := children.set bestPos newInternal
      let children := if newInternalMax > node.maxOrder then
          children.swap bestPos (children.indices.length - 1)
        else children
      some (nodes.set current { node with kind := .internal children })

/-- What the propagation does to a node of the insert path. -/
def updateNode (bounds : Bounds U) (order : ℕ) (updatedChild : Option ℕ) (node : Node U) : Node U :=
  let bounds := node.bounds.union bounds
  if node.maxOrder < order then
    { bounds
      maxOrder := order
      kind :=
        match updatedChild, node.kind with
        | some child, .internal children => .internal (children.moveLast child)
        | _, kind => kind }
  else { node with bounds }

/-- Propagate bounds and orders up the insert path, which has its end first. -/
def propagate (bounds : Bounds U) (order : ℕ) :
    List (Node U) → Option ℕ → List ℕ → Option (List (Node U))
  | nodes, _, [] => some nodes
  | nodes, updatedChild, index :: path => do
    let node ← nodes[index]?
    propagate bounds order (nodes.set index (updateNode bounds order updatedChild node))
      (some index) path

/-- `BoundsTree::insert_leaf`: the nodes and the root after the insertion. The new
leaf is the first new node. -/
def insertLeaf (nodes : List (Node U)) (root : Option ℕ) (bounds : Bounds U) (order : ℕ) :
    Option (List (Node U) × ℕ) := do
  let newLeaf := nodes.length
  let nodes := nodes ++ [⟨bounds, order, .leaf order⟩]
  match root with
  | none => some (nodes, newLeaf)
  | some root => do
    let rootNode ← nodes[root]?
    match rootNode.kind with
    | .leaf _ =>
      let children := if order > rootNode.maxOrder then NodeChildren.pair root newLeaf
        else NodeChildren.pair newLeaf root
      some (nodes ++ [⟨rootNode.bounds.union bounds, max rootNode.maxOrder order,
        .internal children⟩], nodes.length)
    | .internal _ => do
      let (current, path, bestIndex, bestPos) ←
        Foundation.loop (descendRound nodes bounds) (nodes.length + 1) (root, [])
      let nodes ← attach nodes current bestIndex bestPos newLeaf bounds order
      let nodes ← propagate bounds order nodes none (current :: path)
      some (nodes, root)

/-- `BoundsTree::insert`: the tree after the insertion and the order of the new
rectangle. -/
def insert (tree : BoundsTree U) (newBounds : Bounds U) : Option (BoundsTree U × ℕ) := do
  let maxIntersecting ← tree.findMaxOrdering newBounds
  let ordering := (maxIntersecting + 1) % 2 ^ 32
  let newLeaf := tree.nodes.length
  let (nodes, root) ← insertLeaf tree.nodes tree.root newBounds ordering
  let maxLeaf ←
    match tree.maxLeaf with
    | none => some newLeaf
    | some old => do
      let oldNode ← nodes[old]?
      some (if oldNode.maxOrder < ordering then newLeaf else old)
  some (⟨nodes, some root, some maxLeaf⟩, ordering)

end BoundsTree

end Lucie
