import Lucie.Entity.EntityMap
import Lucie.Keymap.Context

/-!
# The dispatch tree of a frame

Drawing builds a tree of dispatch nodes: each element pushes a node, draws its children
and pops the node again. Focus handles and views are found through maps from their ids to
nodes. A view that is not drawn again has its nodes moved over from the rendered frame,
and a failed attempt at a prepaint has its nodes truncated.

Every element pushes its node before it does anything else, so the stack of open nodes is
never empty where the source takes its last entry; here these functions are total and do
nothing on an empty stack.
-/

set_option autoImplicit false

namespace Lucie.Drawing

/-- `FocusId`. -/
abbrev FocusId := ℕ

variable {D : Type}

/-- `DispatchNode`; `D` stands for the listeners. -/
structure DispatchNode (D : Type) where
  keyListeners : List D
  actionListeners : List D
  modifiersChangedListeners : List D
  context : Option KeyContext
  focusId : Option FocusId
  viewId : Option EntityId
  parent : Option ℕ
  deriving DecidableEq

namespace DispatchNode

/-- A node as `push_node` creates it. -/
def new (parent : Option ℕ) : DispatchNode D := ⟨[], [], [], none, none, none, parent⟩

/-- What is left of a node after `move_node` took its listeners. -/
def withoutListeners (node : DispatchNode D) : DispatchNode D :=
  { node with keyListeners := [], actionListeners := [], modifiersChangedListeners := [] }

end DispatchNode

/-- The part of `DispatchTree` that drawing writes. The stacks have their last entry
first. -/
structure DispatchTree (D : Type) where
  nodeStack : List ℕ
  contextStack : List KeyContext
  viewStack : List EntityId
  nodes : List (DispatchNode D)
  focusableNodeIds : FocusId → Option ℕ
  viewNodeIds : EntityId → Option ℕ

/-- `ReusedSubtree`. -/
structure ReusedSubtree where
  oldStart : ℕ
  newStart : ℕ
  containsFocus : Bool

/-- `ReusedSubtree::refresh_node_id`. -/
def ReusedSubtree.refreshNodeId (reused : ReusedSubtree) (node : ℕ) : ℕ :=
  (node - reused.oldStart) + reused.newStart

namespace DispatchTree

/-- `DispatchTree::new`; `clear` leaves the same. -/
def new : DispatchTree D := ⟨[], [], [], [], fun _ => none, fun _ => none⟩

/-- `DispatchTree::push_node`. -/
def pushNode (t : DispatchTree D) : DispatchTree D :=
  { t with
    nodes := t.nodes ++ [.new t.nodeStack.head?]
    nodeStack := t.nodes.length :: t.nodeStack }

/-- Change the active node, the last one of the stack. -/
def updateActive (t : DispatchTree D) (change : DispatchNode D → DispatchNode D) :
    DispatchTree D :=
  { t with nodes := t.nodeStack.head?.elim t.nodes fun id => t.nodes.modify id change }

/-- `DispatchTree::set_key_context`. -/
def setKeyContext (t : DispatchTree D) (context : KeyContext) : DispatchTree D :=
  { t.updateActive (fun node => { node with context := some context }) with
    contextStack := context :: t.contextStack }

/-- `DispatchTree::set_focus_id`. -/
def setFocusId (t : DispatchTree D) (id : FocusId) : DispatchTree D :=
  match t.nodeStack with
  | [] => t
  | active :: _ =>
    { t.updateActive (fun node => { node with focusId := some id }) with
      focusableNodeIds := Function.update t.focusableNodeIds id (some active) }

/-- `DispatchTree::set_view_id`. -/
def setViewId (t : DispatchTree D) (id : EntityId) : DispatchTree D :=
  if t.viewStack.head? = some id then t
  else
    match t.nodeStack with
    | [] => t
    | active :: _ =>
      { t.updateActive (fun node => { node with viewId := some id }) with
        viewNodeIds := Function.update t.viewNodeIds id (some active)
        viewStack := id :: t.viewStack }

/-- `DispatchTree::pop_node`. -/
def popNode (t : DispatchTree D) : DispatchTree D :=
  let node := t.nodeStack.head?.bind (t.nodes[·]?)
  { t with
    nodeStack := t.nodeStack.tail
    contextStack :=
      if (node.bind (·.context)).isSome then t.contextStack.tail else t.contextStack
    viewStack := if (node.bind (·.viewId)).isSome then t.viewStack.tail else t.viewStack }

/-- `DispatchTree::move_node`: open a node with the data of a node of another tree. -/
def moveNode (t : DispatchTree D) (source : DispatchNode D) : DispatchTree D :=
  let t := t.pushNode
  let t := source.context.elim t t.setKeyContext
  let t := source.focusId.elim t t.setFocusId
  let t := source.viewId.elim t t.setViewId
  t.updateActive fun target =>
    { target with
      keyListeners := source.keyListeners
      actionListeners := source.actionListeners
      modifiersChangedListeners := source.modifiersChangedListeners }

/-- The inner loop of `reuse_subtree`: close nodes until the top of the source stack is
the given parent. -/
def closeTo (parent : Option ℕ) : DispatchTree D → List ℕ → DispatchTree D × List ℕ
  | t, [] => (t, [])
  | t, top :: rest => if parent = some top then (t, top :: rest) else closeTo parent t.popNode rest

/-- The outer loop of `reuse_subtree` over the nodes of the range, the first of which has
the given id in the source. -/
def reuseNodes : DispatchTree D → List ℕ → ℕ → List (DispatchNode D) → DispatchTree D
  | t, sourceStack, _, [] => sourceStack.foldl (fun t _ => t.popNode) t
  | t, sourceStack, id, node :: rest =>
    let closed := t.closeTo node.parent sourceStack
    reuseNodes (closed.1.moveNode node) (id :: closed.2) (id + 1) rest

/-- `DispatchTree::reuse_subtree`: move the nodes of a range of another tree. The other
tree keeps its nodes, without their listeners. -/
def reuseSubtree (t : DispatchTree D) (start stop : ℕ) (source : DispatchTree D)
    (focus : Option FocusId) : ReusedSubtree × DispatchTree D × DispatchTree D :=
  let range := (source.nodes.drop start).take (stop - start)
  let containsFocus := range.any fun node => node.focusId.isSome && node.focusId == focus
  let left := source.nodes.take start ++ range.map .withoutListeners ++
    (source.nodes.drop start).drop (stop - start)
  (⟨start, t.nodes.length, containsFocus⟩, t.reuseNodes [] start range,
    { source with nodes := left })

/-- `DispatchTree::truncate`. -/
def truncate (t : DispatchTree D) (index : ℕ) : DispatchTree D :=
  let removed := t.nodes.drop index
  { t with
    nodes := t.nodes.take index
    focusableNodeIds := removed.foldl (fun ids node =>
      node.focusId.elim ids fun id => Function.update ids id none) t.focusableNodeIds
    viewNodeIds := removed.foldl (fun ids node =>
      node.viewId.elim ids fun id => Function.update ids id none) t.viewNodeIds }

/-- The first loop of `DispatchTree::set_active_node`: close nodes until the top of the node
stack is the given parent or the stack is empty. -/
def closeUntil (parent : Option ℕ) : DispatchTree D → List ℕ → DispatchTree D
  | t, [] => t
  | t, top :: rest => if parent = some top then t else closeUntil parent t.popNode rest

/-- A node and its ancestors; `fuel` bounds their number. -/
def ancestors (t : DispatchTree D) : ℕ → Option ℕ → List ℕ
  | 0, _ => []
  | _, none => []
  | fuel + 1, some id => id :: t.ancestors fuel (t.nodes[id]?.bind (·.parent))

/-- Open a node of the tree again, below the nodes that are open. -/
def reopen (t : DispatchTree D) (id : ℕ) : DispatchTree D :=
  let node := t.nodes[id]?
  { t with
    nodeStack := id :: t.nodeStack
    viewStack := (node.bind (·.viewId)).toList ++ t.viewStack
    contextStack := (node.bind (·.context)).toList ++ t.contextStack }

/-- Open a node of the tree and its ancestors when no node is open. -/
def reopenPath (t : DispatchTree D) (id : ℕ) : DispatchTree D :=
  let path := t.ancestors t.nodes.length (some id)
  let nodes := path.filterMap (t.nodes[·]?)
  { t with
    nodeStack := t.nodeStack.reverse ++ path
    viewStack := t.viewStack.reverse ++ nodes.filterMap (·.viewId)
    contextStack := t.contextStack.reverse ++ nodes.filterMap (·.context) }

/-- `DispatchTree::set_active_node`. -/
def setActiveNode (t : DispatchTree D) (id : ℕ) : DispatchTree D :=
  let parent := t.nodes[id]?.bind (·.parent)
  let t := t.closeUntil parent t.nodeStack
  if t.nodeStack.head? = parent then t.reopen id else t.reopenPath id

/-- `DispatchTree::on_key_event`. -/
def onKeyEvent (t : DispatchTree D) (listener : D) : DispatchTree D :=
  t.updateActive fun node => { node with keyListeners := node.keyListeners ++ [listener] }

/-- `DispatchTree::on_modifiers_changed`. -/
def onModifiersChanged (t : DispatchTree D) (listener : D) : DispatchTree D :=
  t.updateActive fun node =>
    { node with modifiersChangedListeners := node.modifiersChangedListeners ++ [listener] }

/-- `DispatchTree::on_action`. -/
def onAction (t : DispatchTree D) (listener : D) : DispatchTree D :=
  t.updateActive fun node => { node with actionListeners := node.actionListeners ++ [listener] }

/-- The loop of `dispatch_path`; `none` is a lack of fuel. -/
def dispatchLoop (t : DispatchTree D) : ℕ → Option ℕ → Option (List ℕ)
  | _, none => some []
  | 0, some _ => none
  | fuel + 1, some id => (t.dispatchLoop fuel (t.nodes[id]?.bind (·.parent))).map (id :: ·)

/-- `DispatchTree::dispatch_path`. -/
def dispatchPath (t : DispatchTree D) (fuel target : ℕ) : Option (List ℕ) :=
  (t.dispatchLoop fuel (some target)).map List.reverse

/-- The loop of `focus_path`; `none` is a lack of fuel or the panic of a missing node. -/
def focusLoop (t : DispatchTree D) : ℕ → Option ℕ → Option (List FocusId)
  | _, none => some []
  | 0, some _ => none
  | fuel + 1, some id => do
    let node ← t.nodes[id]?
    let path ← t.focusLoop fuel node.parent
    some (node.focusId.toList ++ path)

/-- `DispatchTree::focus_path`. -/
def focusPath (t : DispatchTree D) (fuel : ℕ) (id : FocusId) : Option (List FocusId) :=
  (t.focusLoop fuel (t.focusableNodeIds id)).map List.reverse

/-- The loop of `focus_contains`; `none` is a lack of fuel or the panic of a missing node. -/
def containsLoop (t : DispatchTree D) (ancestor : ℕ) : ℕ → Option ℕ → Option Bool
  | _, none => some false
  | 0, some _ => none
  | fuel + 1, some id =>
    if id = ancestor then some true
    else do
      let node ← t.nodes[id]?
      t.containsLoop ancestor fuel node.parent

/-- `DispatchTree::focus_contains`. -/
def focusContains (t : DispatchTree D) (fuel : ℕ) (parent child : FocusId) : Option Bool :=
  if parent = child then some true
  else
    match t.focusableNodeIds parent with
    | none => some false
    | some ancestor => t.containsLoop ancestor fuel (t.focusableNodeIds child)

end DispatchTree

end Lucie.Drawing
