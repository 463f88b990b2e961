import Lucie.Foundation.Loop
import Lucie.SumTree.Append

/-!
# Cursors

A cursor walks a sum tree with a stack of at most sixteen entries, each a node, an
index into it and a position in some dimension. Stacks are lists with the top
first. A failed assertion, an index out of range, an overflow of the stack and an
unreachable branch are panics and return `none`.
-/

set_option autoImplicit false

namespace Lucie

/-- A dimension that accumulates summaries. -/
class Dimension (δ : Type) (σ : outParam Type) where
  /-- The dimension of nothing. -/
  zero : δ
  /-- The dimension after one more summary. -/
  addSummary : δ → σ → δ

/-- How a seek settles on one of two neighbours at an equal position. -/
inductive Bias
  | left
  | right
  deriving DecidableEq

/-- A seek target knows how it compares with a cursor location. -/
structure SeekTarget (δ : Type) where
  cmp : δ → Ordering

/-- A value of an ordered dimension is a target for that dimension. -/
def SeekTarget.ofOrd {δ : Type} [Ord δ] (target : δ) : SeekTarget δ := ⟨compare target⟩

/-- The target `End` lies behind every location. -/
def SeekTarget.endTarget {δ : Type} : SeekTarget δ := ⟨fun _ => .gt⟩

/-- The test by which a seek goes past an entry that ends at `childEnd`. -/
def SeekTarget.passes {δ : Type} (target : SeekTarget δ) (bias : Bias) (childEnd : δ) : Bool :=
  target.cmp childEnd = .gt || (target.cmp childEnd = .eq && bias = .right)

structure StackEntry (α σ δ : Type) where
  tree : SumTree α σ
  index : ℕ
  position : δ

structure Cursor (α σ δ : Type) where
  tree : SumTree α σ
  stack : List (StackEntry α σ δ)
  position : δ
  didSeek : Bool
  atEnd : Bool

namespace SumTree

variable {α σ : Type}

mutual

/-- A bound on the rounds that a walk spends in a subtree. -/
def weight : SumTree α σ → ℕ
  | .internal _ _ _ childTrees => 2 + weights childTrees
  | .leaf _ _ itemSummaries => 2 + itemSummaries.length

def weights : List (SumTree α σ) → ℕ
  | [] => 0
  | tree :: trees => weight tree + weights trees

end

/-- `leftmost_leaf`; a node without children panics. -/
def leftmostLeaf : SumTree α σ → Option (SumTree α σ)
  | .leaf summary items itemSummaries => some (.leaf summary items itemSummaries)
  | .internal _ _ _ [] => none
  | .internal _ _ _ (first :: _) => leftmostLeaf first

/-- `rightmost_leaf`; a node without children panics. -/
def rightmostLeaf : SumTree α σ → Option (SumTree α σ)
  | .leaf summary items itemSummaries => some (.leaf summary items itemSummaries)
  | .internal _ _ _ childTrees =>
    match h : childTrees.getLast? with
    | none => none
    | some last =>
      have : sizeOf last < sizeOf childTrees := List.sizeOf_lt_of_mem (List.mem_of_getLast? h)
      rightmostLeaf last
  termination_by tree => sizeOf tree
  decreasing_by simp; omega

/-- `SumTree::first`. -/
def first (tree : SumTree α σ) : Option (Option α) := do
  let leaf ← leftmostLeaf tree
  let items ← leaf.items
  some items.head?

/-- `SumTree::last`. -/
def last (tree : SumTree α σ) : Option (Option α) := do
  let leaf ← rightmostLeaf tree
  let items ← leaf.items
  some items.getLast?

end SumTree

/-- What a seek does with the entries that it passes. -/
structure SeekAggregate (α σ A : Type) where
  beginLeaf : A → Option A
  endLeaf : A → Option A
  pushItem : A → α → σ → Option A
  pushTree : A → SumTree α σ → σ → Option A

/-- `impl SeekAggregate for ()`. -/
def unitAggregate {α σ : Type} : SeekAggregate α σ Unit :=
  ⟨some, some, fun a _ _ => some a, fun a _ _ => some a⟩

structure SliceSeekAggregate (α σ : Type) where
  tree : SumTree α σ
  leafItems : List α
  leafItemSummaries : List σ
  leafSummary : σ

/-- `impl SeekAggregate for SliceSeekAggregate`: items of a leaf are collected
until the leaf ends, whole trees are appended at once. -/
def sliceAggregate {α σ : Type} [AddMonoid σ] :
    SeekAggregate α σ (SliceSeekAggregate α σ) where
  beginLeaf := some
  endLeaf a := do
    let tree ← a.tree.append (.leaf a.leafSummary a.leafItems a.leafItemSummaries)
    some ⟨tree, [], [], 0⟩
  pushItem a item summary := do
    let leafItems ← arrayVec (a.leafItems ++ [item])
    let leafItemSummaries ← arrayVec (a.leafItemSummaries ++ [summary])
    some ⟨a.tree, leafItems, leafItemSummaries, a.leafSummary + summary⟩
  pushTree a tree _ := do
    let tree ← a.tree.append tree
    some { a with tree }

/-- `impl SeekAggregate for SummarySeekAggregate`. -/
def summaryAggregate {α σ ω : Type} [Dimension ω σ] : SeekAggregate α σ ω :=
  ⟨some, some, fun a _ summary => some (Dimension.addSummary a summary),
    fun a _ summary => some (Dimension.addSummary a summary)⟩

namespace Cursor

variable {α σ δ : Type} [Dimension δ σ]

/-- The stack of a cursor is an `ArrayVec` of capacity 16. -/
def pushEntry (stack : List (StackEntry α σ δ)) (entry : StackEntry α σ δ) :
    Option (List (StackEntry α σ δ)) :=
  if stack.length < 16 then some (entry :: stack) else none

/-- `Cursor::new`. -/
def new (tree : SumTree α σ) : Cursor α σ δ :=
  ⟨tree, [], Dimension.zero, false, tree.isEmpty⟩

/-- `Cursor::reset`. -/
def reset (c : Cursor α σ δ) : Cursor α σ δ :=
  { c with didSeek := false, atEnd := c.tree.isEmpty, stack := [], position := Dimension.zero }

/-- `Cursor::start`. -/
def start (c : Cursor α σ δ) : δ := c.position

/-- `Cursor::item`. -/
def item (c : Cursor α σ δ) : Option (Option α) :=
  if !c.didSeek then none
  else
    match c.stack with
    | [] => some none
    | entry :: _ =>
      match entry.tree with
      | .leaf _ items _ =>
        if entry.index = items.length then some none
        else do
          let item ← items[entry.index]?
          some (some item)
      | .internal _ _ _ _ => none

/-- `Cursor::item_summary`. -/
def itemSummary (c : Cursor α σ δ) : Option (Option σ) :=
  if !c.didSeek then none
  else
    match c.stack with
    | [] => some none
    | entry :: _ =>
      match entry.tree with
      | .leaf _ _ itemSummaries =>
        if entry.index = itemSummaries.length then some none
        else do
          let summary ← itemSummaries[entry.index]?
          some (some summary)
      | .internal _ _ _ _ => none

/-- The loop of `Cursor::next_leaf`, over the stack without its top. -/
def nextLeaf : List (StackEntry α σ δ) → Option (Option (SumTree α σ))
  | [] => some none
  | entry :: rest => do
    let childTrees ← entry.tree.childTrees
    if childTrees.length = 0 then none
    else if entry.index < childTrees.length - 1 then do
      let child ← childTrees[entry.index + 1]?
      let leaf ← child.leftmostLeaf
      some (some leaf)
    else nextLeaf rest

/-- `Cursor::next_item`. -/
def nextItem (c : Cursor α σ δ) : Option (Option α) :=
  if !c.didSeek then none
  else
    match c.stack with
    | entry :: rest => do
      let items ← entry.tree.items
      if items.length = 0 then none
      else if entry.index = items.length - 1 then do
        match ← nextLeaf rest with
        | some leaf =>
          let items ← leaf.items
          let item ← items.head?
          some (some item)
        | none => some none
      else do
        let item ← items[entry.index + 1]?
        some (some item)
    | [] => if c.atEnd then some none else c.tree.first

/-- The loop of `Cursor::prev_leaf`, over the stack without its top. -/
def prevLeaf : List (StackEntry α σ δ) → Option (Option (SumTree α σ))
  | [] => some none
  | entry :: rest =>
    if entry.index ≠ 0 then do
      let childTrees ← entry.tree.childTrees
      let child ← childTrees[entry.index - 1]?
      let leaf ← child.rightmostLeaf
      some (some leaf)
    else prevLeaf rest

/-- `Cursor::prev_item`. -/
def prevItem (c : Cursor α σ δ) : Option (Option α) :=
  if !c.didSeek then none
  else
    match c.stack with
    | entry :: rest =>
      if entry.index = 0 then do
        match ← prevLeaf rest with
        | some leaf =>
          let items ← leaf.items
          let item ← items.getLast?
          some (some item)
        | none => some none
      else do
        let items ← entry.tree.items
        let item ← items[entry.index - 1]?
        some (some item)
    | [] => if c.atEnd then c.tree.last else some none

/-- The position of the entry below the top, from which `search_backward` starts. -/
def outerPosition : List (StackEntry α σ δ) → δ
  | [] => Dimension.zero
  | parent :: _ => parent.position

/-- One round of the loop of `search_backward`: the stack, the position and
whether the round before descended. -/
def searchBackwardRound (filterNode : σ → Bool) :
    List (StackEntry α σ δ) × δ × Bool →
      Option (Foundation.Round (List (StackEntry α σ δ) × δ × Bool)
        (List (StackEntry α σ δ) × δ))
  | ([], position, _) => some (.done ([], position))
  | (entry :: rest, _, descending) =>
    let position := outerPosition rest
    if descending = false ∧ entry.index = 0 then
      some (.next (rest, position, false))
    else
      let index := if descending then entry.index else entry.index - 1
      let summaries := entry.tree.childSummaries
      if summaries.length < index then none
      else
        let position := (summaries.take index).foldl Dimension.addSummary position
        let entry := { entry with index, position }
        match summaries[index]? with
        | none => none
        | some summary =>
          let descending := filterNode summary
          match entry.tree with
          | .internal _ _ _ childTrees =>
            if descending then
              match childTrees[index]? with
              | none => none
              | some tree =>
                if tree.childSummaries.length = 0 then none
                else do
                  let stack ← pushEntry (entry :: rest)
                    ⟨tree, tree.childSummaries.length - 1, Dimension.zero⟩
                  some (.next (stack, position, true))
            else some (.next (entry :: rest, position, false))
          | .leaf _ _ _ =>
            if descending then some (.done (entry :: rest, position))
            else some (.next (entry :: rest, position, false))

/-- The stack, the position and the end flag with which `search_backward` starts:
from the end it pushes the root behind its last entry. -/
def searchBackwardStart (c : Cursor α σ δ) : Option (List (StackEntry α σ δ) × δ × Bool) :=
  let atEnd := if c.didSeek then c.atEnd else true
  if atEnd then
    if c.tree.isEmpty then some (c.stack, Dimension.zero, true)
    else do
      let stack ← pushEntry c.stack ⟨c.tree, c.tree.childSummaries.length,
        Dimension.addSummary Dimension.zero c.tree.summary⟩
      some (stack, Dimension.zero, false)
  else some (c.stack, c.position, false)

/-- `Cursor::search_backward`. -/
def searchBackward (filterNode : σ → Bool) (c : Cursor α σ δ) : Option (Cursor α σ δ) := do
  let (stack, position, atEnd) ← c.searchBackwardStart
  let (stack, position) ←
    Foundation.loop (searchBackwardRound filterNode) c.tree.weight (stack, position, false)
  some { c with didSeek := true, atEnd, stack, position }

/-- `Cursor::prev`. -/
def prev (c : Cursor α σ δ) : Option (Cursor α σ δ) := searchBackward (fun _ => true) c

/-- The inner loops of `search_forward`: skip entries until the filter accepts
one, moving the position of the entry and of the cursor along. -/
def skipEntries (filterNode : σ → Bool) : List σ → ℕ → δ → δ → ℕ × δ × δ
  | [], index, entryPosition, position => (index, entryPosition, position)
  | summary :: rest, index, entryPosition, position =>
    if filterNode summary then (index, entryPosition, position)
    else skipEntries filterNode rest (index + 1) (Dimension.addSummary entryPosition summary)
      (Dimension.addSummary position summary)

/-- One round of the loop of `search_forward`: the stack, the position and whether
the round before descended. The result says whether the loop was left by `return`. -/
def searchForwardRound (filterNode : σ → Bool) :
    List (StackEntry α σ δ) × δ × Bool →
      Option (Foundation.Round (List (StackEntry α σ δ) × δ × Bool)
        (List (StackEntry α σ δ) × δ × Bool))
  | ([], position, _) => some (.done ([], position, false))
  | (entry :: rest, position, descend) =>
    match entry.tree with
    | .internal _ _ childSummaries childTrees =>
      let entry := if descend then entry
        else { entry with index := entry.index + 1, position }
      let (index, entryPosition, position) := skipEntries filterNode
        (childSummaries.drop entry.index) entry.index entry.position position
      let entry := { entry with index, position := entryPosition }
      match childTrees[index]? with
      | some subtree => do
        let stack ← pushEntry (entry :: rest) ⟨subtree, 0, position⟩
        some (.next (stack, position, true))
      | none => some (.next (rest, position, false))
    | .leaf _ _ itemSummaries => do
      let (entry, position) ←
        if descend then some (entry, position)
        else do
          let summary ← itemSummaries[entry.index]?
          some ({ entry with
            index := entry.index + 1
            position := Dimension.addSummary entry.position summary },
            Dimension.addSummary position summary)
      let (index, entryPosition, position) := skipEntries filterNode
        (itemSummaries.drop entry.index) entry.index entry.position position
      let entry := { entry with index, position := entryPosition }
      if index < itemSummaries.length then some (.done (entry :: rest, position, true))
      else some (.next (rest, position, false))

/-- `Cursor::search_forward`. -/
def searchForward (filterNode : σ → Bool) (c : Cursor α σ δ) : Option (Cursor α σ δ) := do
  let (stack, descend) ←
    match c.stack with
    | [] =>
      if c.atEnd then some ([], false)
      else do
        let stack ← pushEntry [] ⟨c.tree, 0, Dimension.zero⟩
        some (stack, true)
    | stack => some (stack, false)
  let didSeek := c.didSeek || c.stack.isEmpty
  let (stack, position, returned) ←
    Foundation.loop (searchForwardRound filterNode) c.tree.weight (stack, c.position, descend)
  let atEnd := if returned then c.atEnd else stack.isEmpty
  some { c with didSeek, atEnd, stack, position }

/-- `Cursor::next`. -/
def next (c : Cursor α σ δ) : Option (Cursor α σ δ) := searchForward (fun _ => true) c

variable {A : Type}

/-- The loop of `seek_internal` over the children of an internal node, from the
entry's index on. It ends with the child to descend into, if there is one. -/
def seekChildren (target : SeekTarget δ) (bias : Bias) (aggregate : SeekAggregate α σ A) :
    List (SumTree α σ × σ) → ℕ → δ → δ → A → Option (ℕ × δ × δ × A × Option (SumTree α σ))
  | [], index, entryPosition, position, a => some (index, entryPosition, position, a, none)
  | (childTree, childSummary) :: rest, index, entryPosition, position, a =>
    let childEnd := Dimension.addSummary position childSummary
    if target.passes bias childEnd then do
      let a ← aggregate.pushTree a childTree childSummary
      seekChildren target bias aggregate rest (index + 1) childEnd childEnd a
    else some (index, entryPosition, position, a, some childTree)

/-- The loop of `seek_internal` over the items of a leaf, from the entry's index
on. It ends with whether an item was found. -/
def seekItems (target : SeekTarget δ) (bias : Bias) (aggregate : SeekAggregate α σ A) :
    List (α × σ) → ℕ → δ → A → Option (ℕ × δ × A × Bool)
  | [], index, position, a => some (index, position, a, false)
  | (item, itemSummary) :: rest, index, position, a =>
    let childEnd := Dimension.addSummary position itemSummary
    if target.passes bias childEnd then do
      let a ← aggregate.pushItem a item itemSummary
      seekItems target bias aggregate rest (index + 1) childEnd a
    else some (index, position, a, true)

/-- One round of the outer loop of `seek_internal`: the stack, the position,
whether the walk ascends, and the aggregate. -/
def seekRound (target : SeekTarget δ) (bias : Bias) (aggregate : SeekAggregate α σ A) :
    List (StackEntry α σ δ) × δ × Bool × A →
      Option (Foundation.Round (List (StackEntry α σ δ) × δ × Bool × A)
        (List (StackEntry α σ δ) × δ × A))
  | ([], position, _, a) => some (.done ([], position, a))
  | (entry :: rest, position, ascending, a) =>
    match entry.tree with
    | .internal _ _ childSummaries childTrees => do
      let entry := if ascending then { entry with index := entry.index + 1, position } else entry
      if childTrees.length < entry.index ∨ childSummaries.length < entry.index then none
      else
        let (index, entryPosition, position, a, child) ← seekChildren target bias aggregate
          ((childTrees.drop entry.index).zip (childSummaries.drop entry.index)) entry.index
          entry.position position a
        let entry := { entry with index, position := entryPosition }
        match child with
        | some childTree =>
          let stack ← pushEntry (entry :: rest) ⟨childTree, 0, position⟩
          some (.next (stack, position, false, a))
        | none => some (.next (rest, position, true, a))
    | .leaf _ items itemSummaries => do
      let a ← aggregate.beginLeaf a
      if items.length < entry.index ∨ itemSummaries.length < entry.index then none
      else
        let (index, position, a, found) ← seekItems target bias aggregate
          ((items.drop entry.index).zip (itemSummaries.drop entry.index)) entry.index position a
        let a ← aggregate.endLeaf a
        if found then some (.done ({ entry with index } :: rest, position, a))
        else some (.next (rest, position, true, a))

/-- The stack with which `seek_internal` starts: the root is pushed before the
first walk. -/
def seekStack (c : Cursor α σ δ) : Option (List (StackEntry α σ δ)) :=
  if c.didSeek then some c.stack else pushEntry c.stack ⟨c.tree, 0, Dimension.zero⟩

/-- The position with which `seek_internal` compares its target at the end: behind
the current item when the bias is to the left. -/
def endPosition (bias : Bias) (c : Cursor α σ δ) : Option δ :=
  if bias = .left then do
    match ← c.itemSummary with
    | some summary => some (Dimension.addSummary c.position summary)
    | none => some c.position
  else some c.position

/-- `Cursor::seek_internal`: the cursor and the aggregate after the walk, and
whether the target was found. Seeking backward is a panic. -/
def seekInternal (target : SeekTarget δ) (bias : Bias) (aggregate : SeekAggregate α σ A) (a : A)
    (c : Cursor α σ δ) : Option (Cursor α σ δ × A × Bool) := do
  if target.cmp c.position = .lt then none
  else
    let stack ← c.seekStack
    let (stack, position, a) ← Foundation.loop (seekRound target bias aggregate) c.tree.weight
      (stack, c.position, false, a)
    let c := { c with didSeek := true, atEnd := stack.isEmpty, stack, position }
    let endPosition ← c.endPosition bias
    some (c, a, target.cmp endPosition = .eq)

/-- `Cursor::seek`. -/
def seek (target : SeekTarget δ) (bias : Bias) (c : Cursor α σ δ) :
    Option (Cursor α σ δ × Bool) := do
  let (c, _, found) ← seekInternal target bias unitAggregate () c.reset
  some (c, found)

/-- `Cursor::seek_forward`. -/
def seekForward (target : SeekTarget δ) (bias : Bias) (c : Cursor α σ δ) :
    Option (Cursor α σ δ × Bool) := do
  let (c, _, found) ← seekInternal target bias unitAggregate () c
  some (c, found)

/-- `Cursor::slice`. -/
def slice [AddMonoid σ] (target : SeekTarget δ) (bias : Bias) (c : Cursor α σ δ) :
    Option (Cursor α σ δ × SumTree α σ) := do
  let (c, a, _) ← seekInternal target bias sliceAggregate ⟨SumTree.new, [], [], 0⟩ c
  some (c, a.tree)

/-- `Cursor::suffix`. -/
def suffix [AddMonoid σ] (c : Cursor α σ δ) : Option (Cursor α σ δ × SumTree α σ) :=
  slice SeekTarget.endTarget .right c

/-- `Cursor::summary`, into any output dimension. -/
def summary {ω : Type} [Dimension ω σ] (target : SeekTarget δ) (bias : Bias) (c : Cursor α σ δ) :
    Option (Cursor α σ δ × ω) := do
  let (c, a, _) ← seekInternal target bias summaryAggregate Dimension.zero c
  some (c, a)

end Cursor

end Lucie
