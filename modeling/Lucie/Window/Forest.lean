import Lucie.Window.DispatchTree
import Lucie.Foundation.Register

/-!
# Forests of dispatch nodes

The nodes that elements push are the nodes of a forest in the order of their first visit.
Opening the nodes of a forest appends them to the nodes of the tree, registers their ids, and
leaves the stacks as they are. Reusing a range of nodes that lists a forest opens the forest:
the nodes are closed lazily, when the next node belongs to another parent, but every node is
closed before a node is opened that is not inside it.
-/

set_option autoImplicit false

namespace Lucie.Drawing

open Foundation.Register

variable {D : Type}

/-- A forest of nodes: the first node, the forest inside it, and the nodes behind it. The
parents in the labels are not used. -/
inductive Forest (D : Type)
  | nil
  | node (label : DispatchNode D) (children siblings : Forest D)

namespace Forest

/-- The number of nodes. -/
def size : Forest D → ℕ
  | nil => 0
  | node _ children siblings => children.size + 1 + siblings.size

/-- The nodes in the order of their first visit; the first one has the id `start`. -/
def flatten : Forest D → Option ℕ → ℕ → List (DispatchNode D)
  | nil, _, _ => []
  | node label children siblings, parent, start =>
    { label with parent } :: (children.flatten (some start) (start + 1) ++
      siblings.flatten parent (start + 1 + children.size))

/-- No node has the view id of the innermost view around it. -/
def Guarded : Forest D → Option EntityId → Prop
  | nil, _ => True
  | node label children siblings, top =>
    (label.viewId.isSome → label.viewId ≠ top) ∧ children.Guarded (label.viewId.or top) ∧
      siblings.Guarded top

variable {forest : Forest D}

@[simp] theorem length_flatten (parent : Option ℕ) (start : ℕ) :
    (forest.flatten parent start).length = forest.size := by
  induction forest generalizing parent start with
  | nil => rfl
  | node label children siblings ihc ihs =>
    simp only [flatten, size, List.length_cons, List.length_append, ihc, ihs]
    omega

end Forest

namespace DispatchTree

/-- The ids that nodes show, with the nodes; the first node has the id `start`. -/
def shown {A : Type} (label : DispatchNode D → Option A) :
    ℕ → List (DispatchNode D) → List (A × ℕ)
  | _, [] => []
  | start, node :: nodes => (label node).toList.map (·, start) ++ shown label (start + 1) nodes

theorem shown_append {A : Type} (label : DispatchNode D → Option A) (start : ℕ)
    (nodes nodes' : List (DispatchNode D)) :
    shown label start (nodes ++ nodes') =
      shown label start nodes ++ shown label (start + nodes.length) nodes' := by
  induction nodes generalizing start with
  | nil => simp [shown]
  | cons node nodes ih =>
    simp only [List.cons_append, shown, ih, List.length_cons, List.append_assoc]
    rw [show start + 1 + nodes.length = start + (nodes.length + 1) by omega]

/-- The tree with more nodes, whose ids are registered. -/
def grow (t : DispatchTree D) (nodes : List (DispatchNode D)) : DispatchTree D :=
  { t with
    nodes := t.nodes ++ nodes
    focusableNodeIds :=
      record (shown DispatchNode.focusId t.nodes.length nodes) t.focusableNodeIds
    viewNodeIds := record (shown DispatchNode.viewId t.nodes.length nodes) t.viewNodeIds }

variable (t : DispatchTree D)

@[simp] theorem grow_nil : t.grow [] = t := by
  simp [grow, shown, record_nil]

@[simp] theorem grow_grow (nodes nodes' : List (DispatchNode D)) :
    (t.grow nodes).grow nodes' = t.grow (nodes ++ nodes') := by
  simp only [grow, List.append_assoc, shown_append, record_append, List.length_append]

/-- Open the nodes of a forest and close each of them behind the nodes inside it. -/
def openForest : DispatchTree D → Forest D → DispatchTree D
  | t, .nil => t
  | t, .node label children siblings =>
    openForest ((t.moveNode label).openForest children).popNode siblings

/-- The tree in which a node was just opened. -/
def opened (label : DispatchNode D) : DispatchTree D :=
  { t.grow [{ label with parent := t.nodeStack.head? }] with
    nodeStack := t.nodes.length :: t.nodeStack
    contextStack := label.context.toList ++ t.contextStack
    viewStack := label.viewId.toList ++ t.viewStack }

theorem modify_last {α : Type} (nodes : List α) (node : α) (change : α → α) :
    (nodes ++ [node]).modify nodes.length change = nodes ++ [change node] := by
  induction nodes with
  | nil => rfl
  | cons first nodes ih => simp only [List.cons_append, List.length_cons, List.modify_succ_cons, ih]

theorem moveNode_eq {label : DispatchNode D}
    (hview : label.viewId.isSome → label.viewId ≠ t.viewStack.head?) :
    t.moveNode label = t.opened label := by
  obtain ⟨keys, actions, modifiers, context, focusId, viewId, parent⟩ := label
  have hstack : ∀ id, viewId = some id → t.viewStack.head? ≠ some id := by
    rintro id rfl heq
    exact hview rfl heq.symm
  cases context <;> cases focusId <;> cases viewId <;>
    simp_all [moveNode, opened, pushNode, setKeyContext, setFocusId, setViewId, updateActive,
      modify_last, grow, shown, DispatchNode.new, record_nil, record_singleton]

/-- Closing the node takes back what it has put on the stacks. -/
theorem popNode_opened (label : DispatchNode D) (nodes : List (DispatchNode D)) :
    ((t.opened label).grow nodes).popNode =
      t.grow ({ label with parent := t.nodeStack.head? } :: nodes) := by
  have hnode : ((t.opened label).grow nodes).nodes[t.nodes.length]? =
      some { label with parent := t.nodeStack.head? } := by
    simp [opened, grow]
  have hgrow : (t.opened label).grow nodes =
      { t.grow ({ label with parent := t.nodeStack.head? } :: nodes) with
        nodeStack := t.nodes.length :: t.nodeStack
        contextStack := label.context.toList ++ t.contextStack
        viewStack := label.viewId.toList ++ t.viewStack } := by
    simp [opened, grow, shown, record_append]
  rw [hgrow] at hnode ⊢
  unfold popNode
  simp only [List.head?_cons, Option.bind_some, hnode]
  cases hcontext : label.context <;> cases hview : label.viewId <;> simp [grow]

/-- Opening a forest appends its nodes to the tree. -/
theorem openForest_eq {forest : Forest D} (h : forest.Guarded t.viewStack.head?) :
    t.openForest forest = t.grow (forest.flatten t.nodeStack.head? t.nodes.length) := by
  induction forest generalizing t with
  | nil => simp [openForest, Forest.flatten]
  | node label children siblings ihc ihs =>
    obtain ⟨hlabel, hchildren, hsiblings⟩ := h
    have htop : (t.opened label).viewStack.head? = label.viewId.or t.viewStack.head? := by
      cases hview : label.viewId <;> simp [opened, hview]
    have hlength : (t.opened label).nodes.length = t.nodes.length + 1 := by
      simp [opened, grow]
    rw [openForest, moveNode_eq t hlabel, ihc _ (htop ▸ hchildren), hlength, popNode_opened]
    have hrest : ∀ nodes, (t.grow nodes).openForest siblings = (t.grow nodes).grow
        (siblings.flatten t.nodeStack.head? (t.grow nodes).nodes.length) :=
      fun nodes => ihs (t.grow nodes) hsiblings
    rw [hrest, grow_grow, Forest.flatten, List.cons_append]
    simp [grow, opened, Nat.add_assoc, Nat.add_comm 1]

/-! ## Reusing the nodes of a forest -/

/-- Close a number of nodes. -/
def closeNodes (t : DispatchTree D) : ℕ → DispatchTree D
  | 0 => t
  | count + 1 => t.popNode.closeNodes count

theorem closeTo_append {parent : Option ℕ} {stack rest : List ℕ}
    (hstack : ∀ node ∈ stack, parent ≠ some node) (hrest : rest ≠ [] → parent = rest.head?) :
    t.closeTo parent (stack ++ rest) = (t.closeNodes stack.length, rest) := by
  induction stack generalizing t with
  | nil =>
    cases rest with
    | nil => rfl
    | cons node rest =>
      have hparent : parent = some node := hrest (List.cons_ne_nil _ _)
      simp [closeTo, hparent, closeNodes]
  | cons node stack ih =>
    rw [List.cons_append, closeTo, if_neg (hstack node List.mem_cons_self),
      ih t.popNode fun other hother => hstack other (List.mem_cons_of_mem _ hother)]
    rfl

theorem closeNodes_add (count count' : ℕ) :
    t.closeNodes (count + count') = (t.closeNodes count).closeNodes count' := by
  induction count generalizing t with
  | zero => rw [Nat.zero_add, closeNodes]
  | succ count ih => rw [Nat.succ_add, closeNodes, ih, closeNodes]

theorem foldl_popNode (stack : List ℕ) (t : DispatchTree D) :
    stack.foldl (fun t _ => t.popNode) t = t.closeNodes stack.length := by
  induction stack generalizing t with
  | nil => rfl
  | cons _ stack ih => exact ih t.popNode

/-- Reusing the nodes of a forest opens the forest, up to the nodes `late` that are still open
behind it. -/
theorem reuseNodes_flatten (forest : Forest D) (parent : Option ℕ) (late stack : List ℕ)
    (id : ℕ) (hid : ∀ node, parent = some node → node < id)
    (hlate : ∀ node ∈ late, parent ≠ some node) (hstack : stack ≠ [] → parent = stack.head?)
    (rest : List (DispatchNode D)) :
    ∃ t' late', t.reuseNodes (late ++ stack) id (forest.flatten parent id ++ rest) =
        reuseNodes t' (late' ++ stack) (id + forest.size) rest ∧
      t'.closeNodes late'.length = (t.closeNodes late.length).openForest forest ∧
      ∀ node ∈ late', node ∈ late ∨ id ≤ node := by
  induction forest generalizing t parent late stack id rest with
  | nil => exact ⟨t, late, rfl, rfl, fun node hnode => .inl hnode⟩
  | node label children siblings ihc ihs =>
    obtain ⟨t₁, late₁, hrun₁, hclosed₁, hmem₁⟩ := ihc
      ((t.closeNodes late.length).moveNode label) (some id) [] (id :: stack) (id + 1) (by simp)
      (by simp) (by simp) (siblings.flatten parent (id + 1 + children.size) ++ rest)
    have hlate₁ : ∀ node ∈ late₁ ++ [id], parent ≠ some node ∧ id ≤ node := by
      intro node hnode
      have hle : id ≤ node := by
        obtain hnode | hnode := List.mem_append.mp hnode
        · obtain hnode | hnode := hmem₁ node hnode
          · simp at hnode
          · omega
        · rw [List.mem_singleton.mp hnode]
      refine ⟨fun heq => ?_, hle⟩
      have := hid node heq
      omega
    have hid₂ : ∀ node, parent = some node → node < id + 1 + children.size := by
      intro node heq
      have := hid node heq
      omega
    obtain ⟨t₂, late₂, hrun₂, hclosed₂, hmem₂⟩ := ihs t₁ parent (late₁ ++ [id]) stack
      (id + 1 + children.size) hid₂ (fun node hnode => (hlate₁ node hnode).1) hstack rest
    refine ⟨t₂, late₂, ?_, ?_, ?_⟩
    · have hclose := closeTo_append t hlate hstack
      have hmove : ((t.closeNodes late.length).moveNode { label with parent }) =
          (t.closeNodes late.length).moveNode label := rfl
      rw [Forest.flatten, List.cons_append, List.append_assoc, reuseNodes, hclose, hmove]
      refine hrun₁.trans ?_
      rw [List.append_cons late₁, hrun₂, Forest.size]
      congr 1
      omega
    · rw [hclosed₂, List.length_append, closeNodes_add, hclosed₁]
      rfl
    · intro node hnode
      refine (hmem₂ node hnode).elim (fun hmem => .inr (hlate₁ node hmem).2) fun hle => ?_
      exact .inr (by omega)

/-- Reusing a range of nodes that lists a forest opens the forest. -/
theorem reuseNodes_eq (forest : Forest D) {parent : Option ℕ} {start : ℕ}
    (hparent : ∀ node, parent = some node → node < start) :
    t.reuseNodes [] start (forest.flatten parent start) = t.openForest forest := by
  obtain ⟨t', late, hrun, hclosed, -⟩ := reuseNodes_flatten t forest parent [] [] start hparent
    (by simp) (by simp) []
  rw [List.append_nil, List.append_nil, List.append_nil] at hrun
  rw [hrun, reuseNodes, foldl_popNode, hclosed]
  rfl

/-- It appends the nodes of the forest, with their parents moved. -/
theorem reuseNodes_eq_grow {forest : Forest D} (h : forest.Guarded t.viewStack.head?)
    {parent : Option ℕ} {start : ℕ} (hparent : ∀ node, parent = some node → node < start) :
    t.reuseNodes [] start (forest.flatten parent start) =
      t.grow (forest.flatten t.nodeStack.head? t.nodes.length) := by
  rw [reuseNodes_eq t forest hparent, openForest_eq t h]

end DispatchTree

end Lucie.Drawing
