import Lucie.SumTree.InsertOrReplace

/-!
# Tab stops

Focus handles are inserted with the tab indices of the groups around them. A sum tree keeps the
nodes in the order of their paths of tab indices, and nodes with equal paths in the order of
their insertion. Its cursors seek by the last node of every subtree.
-/

set_option autoImplicit false

namespace Lucie.TabStop

/-- `FocusHandle`, as far as tab stops use it. -/
structure FocusHandle where
  id : ℕ
  tabIndex : ℤ
  tabStop : Bool
  deriving DecidableEq

/-- `TabStopOperation`. -/
inductive TabStopOperation
  | insert (handle : FocusHandle)
  | group (tabIndex : ℤ)
  | groupEnd
  deriving DecidableEq

/-- `TabStopOperation::focus_handle`. -/
def TabStopOperation.focusHandle : TabStopOperation → Option FocusHandle
  | insert handle => some handle
  | _ => none

/-- `TabStopNode`. -/
structure TabStopNode where
  path : List ℤ
  nodeInsertionIndex : ℕ
  tabStop : Bool
  deriving DecidableEq

/-- What nodes are compared by: their paths, and then the order of their insertion. -/
def TabStopNode.key (node : TabStopNode) : List ℤ ×ₗ ℕ := toLex (node.path, node.nodeInsertionIndex)

/-- `TabStopNode::cmp`; a seek for a node compares it with the location of the cursor in the
same way. -/
instance : Ord TabStopNode := ⟨fun node other => LinearOrder.toOrd.compare node.key other.key⟩

/-- `TabStopOrderNodeSummary`: the path and the index of the last node, and the number of tab
stops. The summary of no nodes has no last node, so that adding it to another one changes
nothing; sum trees never do that. -/
@[ext] structure TabStopOrderNodeSummary where
  last : Option (List ℤ × ℕ)
  tabStops : ℕ
  deriving DecidableEq

namespace TabStopOrderNodeSummary

instance : Zero TabStopOrderNodeSummary := ⟨⟨none, 0⟩⟩

/-- `add_summary` takes over the last node of the summary that is added. -/
instance : Add TabStopOrderNodeSummary where
  add summary other := ⟨other.last.or summary.last, summary.tabStops + other.tabStops⟩

@[simp] theorem last_zero : (0 : TabStopOrderNodeSummary).last = none := rfl

@[simp] theorem tabStops_zero : (0 : TabStopOrderNodeSummary).tabStops = 0 := rfl

@[simp] theorem last_add (summary other : TabStopOrderNodeSummary) :
    (summary + other).last = other.last.or summary.last := rfl

@[simp] theorem tabStops_add (summary other : TabStopOrderNodeSummary) :
    (summary + other).tabStops = summary.tabStops + other.tabStops := rfl

instance : AddMonoid TabStopOrderNodeSummary where
  add_assoc _ _ _ := TabStopOrderNodeSummary.ext Option.or_assoc.symm (Nat.add_assoc ..)
  zero_add _ := TabStopOrderNodeSummary.ext Option.or_none (Nat.zero_add _)
  add_zero _ := TabStopOrderNodeSummary.ext Option.none_or (Nat.add_zero _)
  nsmul := nsmulRec

end TabStopOrderNodeSummary

/-- `TabStopNode::summary`. -/
instance : Item TabStopNode TabStopOrderNodeSummary where
  summary node := ⟨some (node.path, node.nodeInsertionIndex), if node.tabStop then 1 else 0⟩

/-- The location of a cursor is the last node before it. -/
instance : Dimension TabStopNode TabStopOrderNodeSummary where
  zero := ⟨[], 0, false⟩
  addSummary node summary :=
    { node with
      path := (summary.last.getD ([], 0)).1
      nodeInsertionIndex := (summary.last.getD ([], 0)).2 }

/-- A sum tree of nodes. -/
abbrev Order := SumTree TabStopNode TabStopOrderNodeSummary

/-- A cursor over a sum tree of nodes. -/
abbrev OrderCursor := Cursor TabStopNode TabStopOrderNodeSummary TabStopNode

/-- `TabStopMap`. -/
structure TabStopMap where
  currentPath : List ℤ
  insertionHistory : List TabStopOperation
  byId : ℕ → Option TabStopNode
  order : Order

/-- One round of the loops of `next_inner` and `prev_inner`: a node that is no tab stop is
stepped over. -/
def skipRound (step : OrderCursor → Option OrderCursor) (cursor : OrderCursor) :
    Option (Foundation.Round OrderCursor OrderCursor) := do
  match ← cursor.item with
  | some item =>
    if item.tabStop then some (.done cursor)
    else do
      let cursor ← step cursor
      some (.next cursor)
  | none => some (.done cursor)

namespace TabStopMap

/-- `TabStopMap::default`; `clear` leaves the same. -/
def new : TabStopMap := ⟨[], [], fun _ => none, SumTree.new⟩

/-- `TabStopMap::insert`. -/
def insert (m : TabStopMap) (handle : FocusHandle) : Option TabStopMap := do
  let insertionHistory := m.insertionHistory ++ [.insert handle]
  let path := m.currentPath ++ [handle.tabIndex]
  let order : TabStopNode := ⟨path, insertionHistory.length - 1, handle.tabStop⟩
  let (tree, _) ← SumTree.insertOrReplace id m.order order
  some { m with
    insertionHistory
    byId := Function.update m.byId handle.id (some order)
    order := tree }

/-- `TabStopMap::begin_group`. -/
def beginGroup (m : TabStopMap) (tabIndex : ℤ) : TabStopMap :=
  { m with
    insertionHistory := m.insertionHistory ++ [.group tabIndex]
    currentPath := m.currentPath ++ [tabIndex] }

/-- `TabStopMap::end_group`. -/
def endGroup (m : TabStopMap) : TabStopMap :=
  { m with
    insertionHistory := m.insertionHistory ++ [.groupEnd]
    currentPath := m.currentPath.dropLast }

/-- One operation of `TabStopMap::replay`. -/
def apply (m : TabStopMap) : TabStopOperation → Option TabStopMap
  | .insert handle => m.insert handle
  | .group tabIndex => some (m.beginGroup tabIndex)
  | .groupEnd => some m.endGroup

/-- `TabStopMap::replay`. -/
def replay (m : TabStopMap) (operations : List TabStopOperation) : Option TabStopMap :=
  operations.foldlM apply m

/-- `TabStopMap::focus_handle_for_order`; an index out of range panics. -/
def focusHandleForOrder (m : TabStopMap) (order : TabStopNode) : Option (Option FocusHandle) := do
  let operation ← m.insertionHistory[order.nodeInsertionIndex]?
  some operation.focusHandle

/-- `TabStopMap::next_inner`. The number of nodes bounds the rounds of the loop. -/
def nextInner (m : TabStopMap) (node : TabStopNode) : Option (Option TabStopNode) := do
  let cursor : OrderCursor := Cursor.new m.order
  let (cursor, _) ← cursor.seek (.ofOrd node) .left
  let cursor ← cursor.next
  let cursor ← Foundation.loop (skipRound Cursor.next) (m.order.toList.length + 1) cursor
  cursor.item

/-- `TabStopMap::prev_inner`. -/
def prevInner (m : TabStopMap) (node : TabStopNode) : Option (Option TabStopNode) := do
  let cursor : OrderCursor := Cursor.new m.order
  let (cursor, _) ← cursor.seek (.ofOrd node) .left
  let cursor ← cursor.prev
  let cursor ← Foundation.loop (skipRound Cursor.prev) (m.order.toList.length + 1) cursor
  cursor.item

/-- `TabStopMap::next` of no handle. -/
def nextNone (m : TabStopMap) : Option (Option FocusHandle) := do
  match ← m.order.first with
  | none => some none
  | some first =>
    if first.tabStop then m.focusHandleForOrder first
    else
      match ← m.nextInner first with
      | some order => m.focusHandleForOrder order
      | none => some none

/-- `TabStopMap::next`. -/
def next (m : TabStopMap) : Option ℕ → Option (Option FocusHandle)
  | none => m.nextNone
  | some focusedId =>
    match m.byId focusedId with
    | none => m.nextNone
    | some node => do
      match ← m.nextInner node with
      | some item => m.focusHandleForOrder item
      | none => m.nextNone

/-- `TabStopMap::prev` of no handle. -/
def prevNone (m : TabStopMap) : Option (Option FocusHandle) := do
  match ← m.order.last with
  | none => some none
  | some last =>
    if last.tabStop then m.focusHandleForOrder last
    else
      match ← m.prevInner last with
      | some order => m.focusHandleForOrder order
      | none => some none

/-- `TabStopMap::prev`. -/
def prev (m : TabStopMap) : Option ℕ → Option (Option FocusHandle)
  | none => m.prevNone
  | some focusedId =>
    match m.byId focusedId with
    | none => m.prevNone
    | some node => do
      match ← m.prevInner node with
      | some item => m.focusHandleForOrder item
      | none => m.prevNone

end TabStopMap

end Lucie.TabStop
