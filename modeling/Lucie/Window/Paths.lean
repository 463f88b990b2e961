import Lucie.Window.Effect

/-!
# The stacks of a dispatch tree

While a frame is drawn, the stack of open nodes is the path from a root to the active node,
and the two other stacks list the contexts and the views on this path. Parents are older than
their children. All operations on the tree keep this.
-/

set_option autoImplicit false

namespace Lucie.Drawing.DispatchTree

variable {D : Type}

/-- A list of nodes is the path from its first node up to a root. -/
def IsPath (nodes : List (DispatchNode D)) : List ℕ → Prop
  | [] => True
  | id :: path => nodes[id]?.map DispatchNode.parent = some path.head? ∧ IsPath nodes path

/-- The stacks describe the path to the active node, and parents are older than children. -/
structure WellStacked (t : DispatchTree D) : Prop where
  path : IsPath t.nodes t.nodeStack
  contexts : t.contextStack = t.nodeStack.filterMap t.contextAt
  views : t.viewStack = t.nodeStack.filterMap t.viewIdAt
  older : ∀ id parent, t.nodes[id]?.map DispatchNode.parent = some (some parent) → parent < id

/-- Focus ids are registered for the nodes that have them. -/
structure Registered (t : DispatchTree D) : Prop where
  inRange : ∀ focus id, t.focusableNodeIds focus = some id → id < t.nodes.length
  owner : ∀ focus id, t.focusIdAt id = some focus → t.focusableNodeIds focus = some id

section Path

variable {nodes nodes' : List (DispatchNode D)} {id : ℕ} {path : List ℕ}

/-- Only the parents of the nodes on a path matter. -/
theorem IsPath.congr (h : IsPath nodes path)
    (hparent : ∀ id ∈ path,
      nodes'[id]?.map DispatchNode.parent = nodes[id]?.map DispatchNode.parent) :
    IsPath nodes' path := by
  induction path with
  | nil => trivial
  | cons id path ih =>
    constructor
    · rw [hparent id List.mem_cons_self]
      exact h.1
    · exact ih h.2 fun id hid => hparent id (List.mem_cons_of_mem _ hid)

theorem IsPath.lt_length (h : IsPath nodes path) : ∀ id ∈ path, id < nodes.length := by
  induction path with
  | nil => simp
  | cons id path ih =>
    intro other hother
    obtain rfl | hother := List.mem_cons.mp hother
    · by_contra hlt
      have hnone : nodes[other]? = none := List.getElem?_eq_none (not_lt.mp hlt)
      have hparent := h.1
      rw [hnone] at hparent
      cases hparent
    · exact ih h.2 other hother

/-- The nodes of a path are older and older. -/
theorem IsPath.lt_of_mem (h : IsPath nodes (id :: path))
    (holder : ∀ id parent, nodes[id]?.map DispatchNode.parent = some (some parent) → parent < id) :
    ∀ other ∈ path, other < id := by
  induction path generalizing id with
  | nil => simp
  | cons parent path ih =>
    have hlt := holder id parent h.1
    intro other hother
    obtain rfl | hother := List.mem_cons.mp hother
    · exact hlt
    · exact (ih h.2 other hother).trans hlt

/-- Any part of a path above one of its nodes is a path. -/
theorem IsPath.tail (h : IsPath nodes path) : IsPath nodes path.tail := by
  cases path with
  | nil => trivial
  | cons id path => exact h.2

end Path

section Operations

variable {t t' : DispatchTree D} {active : ℕ} {rest : List ℕ} {node : DispatchNode D}

theorem wellStacked_new : (new : DispatchTree D).WellStacked := by
  constructor
  · trivial
  · rfl
  · rfl
  · intro id parent hparent
    cases hparent

/-- Opening a node. -/
theorem WellStacked.pushNode (h : t.WellStacked) : t.pushNode.WellStacked := by
  have hlt := h.path.lt_length
  have hold : ∀ id ∈ t.nodeStack, t.pushNode.nodes[id]? = t.nodes[id]? := by
    intro id hid
    rw [pushNode_getElem?, if_neg (Nat.ne_of_lt (hlt id hid))]
  have hnew : t.pushNode.nodes[t.nodes.length]? = some (.new t.nodeStack.head?) := by
    rw [pushNode_getElem?, if_pos rfl]
  constructor
  · constructor
    · rw [hnew]
      rfl
    · exact h.path.congr fun id hid => by rw [hold id hid]
  · change t.contextStack = (t.nodes.length :: t.nodeStack).filterMap t.pushNode.contextAt
    have hcontext : t.pushNode.contextAt t.nodes.length = none := by
      rw [contextAt, hnew]
      rfl
    rw [List.filterMap_cons, hcontext, h.contexts]
    exact List.filterMap_congr fun id hid => by rw [contextAt, contextAt, hold id hid]
  · change t.viewStack = (t.nodes.length :: t.nodeStack).filterMap t.pushNode.viewIdAt
    have hview : t.pushNode.viewIdAt t.nodes.length = none := by
      rw [viewIdAt, hnew]
      rfl
    rw [List.filterMap_cons, hview, h.views]
    exact List.filterMap_congr fun id hid => by rw [viewIdAt, viewIdAt, hold id hid]
  · intro id parent hparent
    rw [pushNode_getElem?] at hparent
    split_ifs at hparent with hid
    · subst hid
      have hhead : t.nodeStack.head? = some parent := Option.some.inj hparent
      exact hlt parent (List.mem_of_mem_head? hhead)
    · exact h.older id parent hparent

/-- Closing a node. -/
theorem WellStacked.popNode (h : t.WellStacked) : t.popNode.WellStacked := by
  have hnodes : t.popNode.nodes = t.nodes := rfl
  cases hstack : t.nodeStack with
  | nil =>
    have hcontexts := h.contexts
    have hviews := h.views
    rw [hstack] at hcontexts hviews
    constructor
    · simp [DispatchTree.popNode, hstack, IsPath]
    · simp [DispatchTree.popNode, hstack, hcontexts]
    · simp [DispatchTree.popNode, hstack, hviews]
    · exact h.older
  | cons active rest =>
    have hcontexts := h.contexts
    have hviews := h.views
    have hpath := h.path
    rw [hstack] at hcontexts hviews hpath
    constructor
    · simpa [DispatchTree.popNode, hstack] using hpath.2
    · simp only [DispatchTree.popNode, hstack, List.head?_cons, Option.bind_some, List.tail_cons]
      rw [hcontexts, List.filterMap_cons, contextAt]
      cases t.nodes[active]?.bind (·.context) <;> rfl
    · simp only [DispatchTree.popNode, hstack, List.head?_cons, Option.bind_some, List.tail_cons]
      rw [hviews, List.filterMap_cons, viewIdAt]
      cases t.nodes[active]?.bind (·.viewId) <;> rfl
    · exact h.older

theorem filterMap_cons_toList {α β : Type} (f : α → Option β) (a : α) (l : List α) :
    (a :: l).filterMap f = (f a).toList ++ l.filterMap f := by
  rw [List.filterMap_cons]
  cases f a <;> rfl

/-- What the stacks of contexts and views begin with. -/
theorem WellStacked.stacks (h : t.WellStacked) (hstack : t.nodeStack = active :: rest)
    (hnode : t.nodes[active]? = some node) :
    t.contextStack = node.context.toList ++ rest.filterMap t.contextAt ∧
      t.viewStack = node.viewId.toList ++ rest.filterMap t.viewIdAt := by
  constructor
  · rw [h.contexts, hstack, filterMap_cons_toList, contextAt, hnode, Option.bind_some]
  · rw [h.views, hstack, filterMap_cons_toList, viewIdAt, hnode, Option.bind_some]

/-- A change of the active node and of what it puts on the stacks. -/
theorem WellStacked.update (h : t.WellStacked) (hstack : t.nodeStack = active :: rest)
    (hnode : t.nodes[active]? = some node) (change : DispatchNode D → DispatchNode D)
    (hparent : (change node).parent = node.parent)
    (hnodes : t'.nodes = (t.updateActive change).nodes) (hsame : t'.nodeStack = t.nodeStack)
    (hcontexts : t'.contextStack = (change node).context.toList ++ rest.filterMap t.contextAt)
    (hviews : t'.viewStack = (change node).viewId.toList ++ rest.filterMap t.viewIdAt) :
    t'.WellStacked := by
  have hpath := h.path
  rw [hstack] at hpath
  have hget : ∀ id, t'.nodes[id]? =
      if active = id then t.nodes[id]?.map change else t.nodes[id]? := by
    intro id
    rw [hnodes, updateActive_getElem? hstack]
  have hactive : t'.nodes[active]? = some (change node) := by
    rw [hget, if_pos rfl, hnode, Option.map_some]
  have hrest : ∀ id ∈ rest, t'.nodes[id]? = t.nodes[id]? := by
    intro id hid
    rw [hget, if_neg (hpath.lt_of_mem h.older id hid).ne']
  have hparents : ∀ id : ℕ, t'.nodes[id]?.map DispatchNode.parent =
      t.nodes[id]?.map DispatchNode.parent := by
    intro id
    rw [hget]
    split_ifs with hid
    · subst hid
      rw [hnode, Option.map_some, Option.map_some, Option.map_some, hparent]
    · rfl
  constructor
  · rw [hsame]
    apply h.path.congr
    intro id _
    exact hparents id
  · rw [hsame, hstack, filterMap_cons_toList, contextAt, hactive, hcontexts, Option.bind_some]
    congr 1
    exact List.filterMap_congr fun id hid => by rw [contextAt, contextAt, hrest id hid]
  · rw [hsame, hstack, filterMap_cons_toList, viewIdAt, hactive, hviews, Option.bind_some]
    congr 1
    exact List.filterMap_congr fun id hid => by rw [viewIdAt, viewIdAt, hrest id hid]
  · intro id parent hid
    rw [hparents] at hid
    exact h.older id parent hid

/-- The active node of a tree with open nodes. -/
theorem WellStacked.exists_active (h : t.WellStacked) (hstack : t.nodeStack = active :: rest) :
    ∃ node, t.nodes[active]? = some node := by
  have hlt := h.path.lt_length active (by rw [hstack]; exact List.mem_cons_self)
  exact ⟨_, List.getElem?_eq_getElem hlt⟩

/-- A change of the listeners or the focus id of the active node. -/
theorem WellStacked.updateActive (h : t.WellStacked) {change : DispatchNode D → DispatchNode D}
    (hparent : ∀ node, (change node).parent = node.parent)
    (hcontext : ∀ node, (change node).context = node.context)
    (hview : ∀ node, (change node).viewId = node.viewId) : (t.updateActive change).WellStacked := by
  cases hstack : t.nodeStack with
  | nil =>
    have hnodes : (t.updateActive change).nodes = t.nodes := by
      simp [DispatchTree.updateActive, hstack]
    have hsame : t.updateActive change = t := by
      rw [DispatchTree.updateActive]
      exact congrArg (fun nodes => { t with nodes := nodes }) hnodes
    rwa [hsame]
  | cons active rest =>
    obtain ⟨node, hnode⟩ := h.exists_active hstack
    obtain ⟨hcontexts, hviews⟩ := h.stacks hstack hnode
    refine h.update hstack hnode change (hparent node) rfl rfl ?_ ?_
    · rw [hcontext]
      exact hcontexts
    · rw [hview]
      exact hviews

/-- Setting the context of an active node that has none. -/
theorem WellStacked.setKeyContext (h : t.WellStacked) (hstack : t.nodeStack = active :: rest)
    (hnone : t.contextAt active = none) (context : KeyContext) :
    (t.setKeyContext context).WellStacked := by
  obtain ⟨node, hnode⟩ := h.exists_active hstack
  obtain ⟨hcontexts, hviews⟩ := h.stacks hstack hnode
  have hcontext : node.context = none := by
    rw [contextAt, hnode] at hnone
    exact hnone
  refine h.update hstack hnode (fun node => { node with context := some context }) rfl rfl rfl
    ?_ ?_
  · change context :: t.contextStack = _
    rw [hcontexts, hcontext]
    rfl
  · exact hviews

/-- Setting the view of an active node that has none; the view around it is not repeated. -/
theorem WellStacked.setViewId (h : t.WellStacked) (hstack : t.nodeStack = active :: rest)
    (hnone : t.viewIdAt active = none) (id : EntityId) : (t.setViewId id).WellStacked := by
  unfold DispatchTree.setViewId
  split_ifs with htop
  · exact h
  · obtain ⟨node, hnode⟩ := h.exists_active hstack
    obtain ⟨hcontexts, hviews⟩ := h.stacks hstack hnode
    have hview : node.viewId = none := by
      rw [viewIdAt, hnode] at hnone
      exact hnone
    rw [hstack]
    refine h.update hstack hnode (fun node => { node with viewId := some id }) rfl rfl rfl ?_ ?_
    · exact hcontexts
    · change id :: t.viewStack = _
      rw [hviews, hview]
      rfl

theorem setFocusId_eq (hstack : t.nodeStack = active :: rest) (id : FocusId) :
    t.setFocusId id = { t.updateActive fun node => { node with focusId := some id } with
      focusableNodeIds := Function.update t.focusableNodeIds id (some active) } := by
  rw [DispatchTree.setFocusId, hstack]

theorem WellStacked.setFocusId (h : t.WellStacked) (id : FocusId) :
    (t.setFocusId id).WellStacked := by
  cases hstack : t.nodeStack with
  | nil =>
    have hsame : t.setFocusId id = t := by
      rw [DispatchTree.setFocusId, hstack]
    rwa [hsame]
  | cons active rest =>
    obtain ⟨node, hnode⟩ := h.exists_active hstack
    obtain ⟨hcontexts, hviews⟩ := h.stacks hstack hnode
    rw [setFocusId_eq hstack]
    exact h.update hstack hnode (fun node => { node with focusId := some id }) rfl rfl rfl
      hcontexts hviews

/-- Closing nodes until a parent is open keeps the stacks well; it ends at the parent or when no
node is open. The induction is on the open nodes. -/
theorem WellStacked.closeUntil (h : t.WellStacked) (parent : Option ℕ) {stack : List ℕ}
    (hstack : t.nodeStack = stack) :
    (DispatchTree.closeUntil parent t stack).WellStacked ∧
      (DispatchTree.closeUntil parent t stack).nodes = t.nodes ∧
      (DispatchTree.closeUntil parent t stack).focusableNodeIds = t.focusableNodeIds ∧
      ((DispatchTree.closeUntil parent t stack).nodeStack = [] ∨
        (DispatchTree.closeUntil parent t stack).nodeStack.head? = parent) := by
  induction stack generalizing t with
  | nil => exact ⟨h, rfl, rfl, .inl hstack⟩
  | cons top rest ih =>
    rw [DispatchTree.closeUntil]
    split_ifs with htop
    · refine ⟨h, rfl, rfl, .inr ?_⟩
      rw [hstack, htop]
      rfl
    · have hpop : t.popNode.nodeStack = rest := by
        rw [DispatchTree.popNode, hstack, List.tail_cons]
      exact ih h.popNode hpop

/-- The ancestors of a node are the path to it. -/
theorem isPath_ancestors (holder : ∀ id parent,
      t.nodes[id]?.map DispatchNode.parent = some (some parent) → parent < id)
    {fuel id : ℕ} (hfuel : id < fuel) (hid : id < t.nodes.length) :
    IsPath t.nodes (t.ancestors fuel (some id)) ∧ (t.ancestors fuel (some id)).head? = some id := by
  induction fuel generalizing id with
  | zero => omega
  | succ fuel ih =>
    obtain ⟨node, hnode⟩ : ∃ node, t.nodes[id]? = some node := ⟨_, List.getElem?_eq_getElem hid⟩
    rw [ancestors, hnode, Option.bind_some]
    refine ⟨?_, rfl⟩
    cases hparent : node.parent with
    | none =>
      have hnil : t.ancestors fuel none = [] := by
        cases fuel <;> rfl
      rw [hnil]
      exact ⟨by rw [hnode, Option.map_some, hparent]; rfl, trivial⟩
    | some parent =>
      have hlt := holder id parent (by rw [hnode, Option.map_some, hparent])
      obtain ⟨hpath, hhead⟩ := ih (show parent < fuel by omega) (by omega)
      exact ⟨by rw [hnode, Option.map_some, hparent, hhead], hpath⟩

/-- Opening a node of the tree below its parent. -/
theorem WellStacked.reopen (h : t.WellStacked) {id : ℕ}
    (hparent : t.nodes[id]?.map DispatchNode.parent = some t.nodeStack.head?) :
    (t.reopen id).WellStacked := by
  constructor
  · exact ⟨hparent, h.path⟩
  · change (t.contextAt id).toList ++ t.contextStack = (id :: t.nodeStack).filterMap t.contextAt
    rw [filterMap_cons_toList, h.contexts]
  · change (t.viewIdAt id).toList ++ t.viewStack = (id :: t.nodeStack).filterMap t.viewIdAt
    rw [filterMap_cons_toList, h.views]
  · exact h.older

/-- Opening a node and its ancestors when no node is open. -/
theorem WellStacked.reopenPath (h : t.WellStacked) (hstack : t.nodeStack = []) {id : ℕ}
    (hid : id < t.nodes.length) : (t.reopenPath id).WellStacked := by
  have hcontexts := h.contexts
  have hviews := h.views
  rw [hstack] at hcontexts hviews
  constructor
  · simpa [DispatchTree.reopenPath, hstack] using (isPath_ancestors h.older hid hid).1
  · simp only [DispatchTree.reopenPath, hstack, hcontexts, List.filterMap_nil, List.reverse_nil,
      List.nil_append, List.filterMap_filterMap]
    rfl
  · simp only [DispatchTree.reopenPath, hstack, hviews, List.filterMap_nil, List.reverse_nil,
      List.nil_append, List.filterMap_filterMap]
    rfl
  · exact h.older

/-- Making any node of the tree the active one. -/
theorem WellStacked.setActiveNode (h : t.WellStacked) {id : ℕ} (hid : id < t.nodes.length) :
    (t.setActiveNode id).WellStacked ∧ (t.setActiveNode id).nodes = t.nodes ∧
      (t.setActiveNode id).focusableNodeIds = t.focusableNodeIds := by
  obtain ⟨node, hnode⟩ : ∃ node, t.nodes[id]? = some node := ⟨_, List.getElem?_eq_getElem hid⟩
  obtain ⟨hclosed, hnodes, hfocus, hstop⟩ := h.closeUntil node.parent rfl
  unfold DispatchTree.setActiveNode
  rw [hnode, Option.bind_some]
  dsimp only
  split_ifs with hparent
  · refine ⟨hclosed.reopen ?_, hnodes, hfocus⟩
    rw [hnodes, hnode, Option.map_some, hparent]
  · refine ⟨hclosed.reopenPath (hstop.resolve_right hparent) ?_, hnodes, hfocus⟩
    rwa [hnodes]

/-! ### Focus ids -/

/-- A change of the active node that keeps some label of it keeps this label of all nodes. -/
theorem label_updateActive {A : Type} {label : DispatchNode D → Option A}
    {change : DispatchNode D → DispatchNode D} (hlabel : ∀ node, label (change node) = label node)
    (id : ℕ) : (t.updateActive change).nodes[id]?.bind label = t.nodes[id]?.bind label := by
  cases hstack : t.nodeStack with
  | nil =>
    rw [DispatchTree.updateActive, hstack]
    rfl
  | cons active rest =>
    rw [updateActive_getElem? hstack]
    split_ifs
    · cases t.nodes[id]? with
      | none => rfl
      | some node => exact hlabel node
    · rfl

@[simp] theorem length_updateActive (change : DispatchNode D → DispatchNode D) :
    (t.updateActive change).nodes.length = t.nodes.length := by
  rw [DispatchTree.updateActive]
  cases t.nodeStack.head? <;> simp

/-- What keeps the focus ids of the nodes keeps them registered. -/
theorem Registered.congr (h : t.Registered) (hfocus : t'.focusableNodeIds = t.focusableNodeIds)
    (hlength : t.nodes.length ≤ t'.nodes.length)
    (hlabel : ∀ id, t'.focusIdAt id = t.focusIdAt id) : t'.Registered := by
  constructor
  · intro focus id hid
    rw [hfocus] at hid
    exact (h.inRange focus id hid).trans_le hlength
  · intro focus id hid
    rw [hlabel] at hid
    rw [hfocus]
    exact h.owner focus id hid

theorem registered_new : (new : DispatchTree D).Registered := by
  constructor
  · intro focus id hid
    cases hid
  · intro focus id hid
    cases hid

theorem focusIdAt_pushNode (id : ℕ) : t.pushNode.focusIdAt id = t.focusIdAt id := by
  rw [focusIdAt, focusIdAt, pushNode_getElem?]
  split_ifs with hid
  · have hnone : t.nodes[id]? = none := List.getElem?_eq_none hid.ge
    rw [hnone]
    rfl
  · rfl

theorem Registered.pushNode (h : t.Registered) : t.pushNode.Registered :=
  h.congr rfl (by simp [DispatchTree.pushNode]) focusIdAt_pushNode

theorem Registered.updateActive (h : t.Registered) {change : DispatchNode D → DispatchNode D}
    (hlabel : ∀ node, (change node).focusId = node.focusId) :
    (t.updateActive change).Registered :=
  h.congr rfl (length_updateActive change).ge (label_updateActive hlabel)

theorem Registered.setKeyContext (h : t.Registered) (context : KeyContext) :
    (t.setKeyContext context).Registered :=
  h.congr rfl (length_updateActive _).ge (label_updateActive fun _ => rfl)

theorem Registered.setViewId (h : t.Registered) (id : EntityId) :
    (t.setViewId id).Registered := by
  unfold DispatchTree.setViewId
  split_ifs
  · exact h
  · cases hstack : t.nodeStack with
    | nil => exact h
    | cons active rest =>
      exact h.congr rfl (length_updateActive _).ge (label_updateActive fun _ => rfl)

/-- Setting a focus id that no node has. -/
theorem Registered.setFocusId (h : t.Registered) (hstacked : t.WellStacked) {id : FocusId}
    (hfresh : t.focusableNodeIds id = none) : (t.setFocusId id).Registered := by
  cases hstack : t.nodeStack with
  | nil =>
    have hsame : t.setFocusId id = t := by
      rw [DispatchTree.setFocusId, hstack]
    rwa [hsame]
  | cons active rest =>
    have hactive : active < t.nodes.length :=
      hstacked.path.lt_length active (by rw [hstack]; exact List.mem_cons_self)
    rw [setFocusId_eq hstack]
    constructor
    · intro focus node hnode
      change node < (t.updateActive _).nodes.length
      rw [length_updateActive]
      change Function.update t.focusableNodeIds id (some active) focus = some node at hnode
      by_cases hfocus : focus = id
      · subst hfocus
        rw [Function.update_self] at hnode
        obtain rfl := Option.some.inj hnode
        exact hactive
      · rw [Function.update_of_ne hfocus] at hnode
        exact h.inRange focus node hnode
    · intro focus node hnode
      change Function.update t.focusableNodeIds id (some active) focus = some node
      rw [focusIdAt] at hnode
      change (t.updateActive _).nodes[node]?.bind DispatchNode.focusId = some focus at hnode
      rw [updateActive_getElem? hstack] at hnode
      split_ifs at hnode with hnode'
      · subst hnode'
        rw [List.getElem?_eq_getElem hactive, Option.map_some, Option.bind_some] at hnode
        obtain rfl := Option.some.inj hnode
        exact Function.update_self ..
      · have howner := h.owner focus node hnode
        have hne : focus ≠ id := by
          rintro rfl
          rw [hfresh] at howner
          cases howner
        rw [Function.update_of_ne hne]
        exact howner

/-- The stacks are well and the focus ids registered. -/
structure Sound (t : DispatchTree D) : Prop where
  stacked : t.WellStacked
  registered : t.Registered

/-- The focus id that a node shows is not registered. -/
def Fresh (t : DispatchTree D) (node : DispatchNode D) : Prop :=
  ∀ focus, node.focusId = some focus → t.focusableNodeIds focus = none

theorem setViewId_focusable (id : EntityId) :
    (t.setViewId id).focusableNodeIds = t.focusableNodeIds := by
  unfold DispatchTree.setViewId
  split_ifs
  · rfl
  · cases t.nodeStack <;> rfl

theorem Sound.pushNode (h : t.Sound) : t.pushNode.Sound :=
  ⟨h.stacked.pushNode, h.registered.pushNode⟩

theorem Sound.popNode (h : t.Sound) : t.popNode.Sound :=
  ⟨h.stacked.popNode, h.registered.congr rfl (Nat.le_refl _) fun _ => rfl⟩

theorem Sound.setKeyContext (h : t.Sound) (hstack : t.nodeStack = active :: rest)
    (hnone : t.contextAt active = none) (context : KeyContext) : (t.setKeyContext context).Sound :=
  ⟨h.stacked.setKeyContext hstack hnone context, h.registered.setKeyContext context⟩

theorem Sound.setViewId (h : t.Sound) (hstack : t.nodeStack = active :: rest)
    (hnone : t.viewIdAt active = none) (id : EntityId) : (t.setViewId id).Sound :=
  ⟨h.stacked.setViewId hstack hnone id, h.registered.setViewId id⟩

theorem Sound.setFocusId (h : t.Sound) {id : FocusId} (hfresh : t.focusableNodeIds id = none) :
    (t.setFocusId id).Sound :=
  ⟨h.stacked.setFocusId id, h.registered.setFocusId h.stacked hfresh⟩

theorem Sound.setActiveNode (h : t.Sound) {id : ℕ} (hid : id < t.nodes.length) :
    (t.setActiveNode id).Sound := by
  obtain ⟨hstacked, hnodes, hfocus⟩ := h.stacked.setActiveNode hid
  refine ⟨hstacked, h.registered.congr hfocus ?_ ?_⟩
  · rw [hnodes]
  · intro node
    rw [focusIdAt, focusIdAt, hnodes]

/-- A change of the listeners of the active node. -/
theorem Sound.updateActive (h : t.Sound) {change : DispatchNode D → DispatchNode D}
    (hchange : ∀ node, (change node).withoutListeners = node.withoutListeners) :
    (t.updateActive change).Sound := by
  constructor
  · apply h.stacked.updateActive
    · exact fun node => congrArg (fun node => node.parent) (hchange node)
    · exact fun node => congrArg (fun node => node.context) (hchange node)
    · exact fun node => congrArg (fun node => node.viewId) (hchange node)
  · exact h.registered.updateActive fun node =>
      congrArg (fun node => node.focusId) (hchange node)

/-- Moving a node opens one with its ids, and registers its focus id. -/
theorem Sound.moveNode (h : t.Sound) {source : DispatchNode D} (hfresh : t.Fresh source) :
    (t.moveNode source).Sound ∧ (t.moveNode source).focusableNodeIds =
      source.focusId.elim t.focusableNodeIds fun focus =>
        Function.update t.focusableNodeIds focus (some t.nodes.length) := by
  have hnew : t.pushNode.nodes[t.nodes.length]? = some (.new t.nodeStack.head?) := by
    rw [pushNode_getElem?, if_pos rfl]
  obtain ⟨t₂, ht₂, hsound₂, hstack₂, hview₂, hfocus₂⟩ : ∃ t₂ : DispatchTree D,
      source.context.elim t.pushNode t.pushNode.setKeyContext = t₂ ∧ t₂.Sound ∧
        t₂.nodeStack = t.nodes.length :: t.nodeStack ∧ t₂.viewIdAt t.nodes.length = none ∧
        t₂.focusableNodeIds = t.focusableNodeIds := by
    refine ⟨_, rfl, ?_⟩
    cases source.context with
    | none =>
      refine ⟨h.pushNode, rfl, ?_, rfl⟩
      rw [Option.elim_none, viewIdAt, hnew]
      rfl
    | some context =>
      have hnone : t.pushNode.contextAt t.nodes.length = none := by
        rw [contextAt, hnew]
        rfl
      refine ⟨h.pushNode.setKeyContext rfl hnone context, rfl, ?_, rfl⟩
      have hlabel := @label_updateActive _ t.pushNode _ DispatchNode.viewId
        (fun node => { node with context := some context }) (fun _ => rfl) t.nodes.length
      rw [hnew] at hlabel
      exact hlabel
  obtain ⟨t₃, ht₃, hsound₃, hstack₃, hview₃, hfocus₃⟩ : ∃ t₃ : DispatchTree D,
      source.focusId.elim t₂ t₂.setFocusId = t₃ ∧ t₃.Sound ∧
        t₃.nodeStack = t.nodes.length :: t.nodeStack ∧ t₃.viewIdAt t.nodes.length = none ∧
        t₃.focusableNodeIds = source.focusId.elim t.focusableNodeIds fun focus =>
          Function.update t.focusableNodeIds focus (some t.nodes.length) := by
    refine ⟨_, rfl, ?_⟩
    cases hsource : source.focusId with
    | none => exact ⟨hsound₂, hstack₂, hview₂, hfocus₂⟩
    | some focus =>
      have hfree : t₂.focusableNodeIds focus = none := by
        rw [hfocus₂]
        exact hfresh focus hsource
      have hset := hsound₂.setFocusId hfree
      rw [Option.elim_some, Option.elim_some]
      rw [setFocusId_eq hstack₂] at hset ⊢
      refine ⟨hset, hstack₂, ?_, ?_⟩
      · have hlabel := @label_updateActive _ t₂ _ DispatchNode.viewId
          (fun node => { node with focusId := some focus }) (fun _ => rfl) t.nodes.length
        exact hlabel.trans hview₂
      · rw [hfocus₂]
  have hview : (source.viewId.elim t₃ t₃.setViewId).Sound ∧
      (source.viewId.elim t₃ t₃.setViewId).focusableNodeIds = t₃.focusableNodeIds := by
    cases source.viewId with
    | none => exact ⟨hsound₃, rfl⟩
    | some id => exact ⟨hsound₃.setViewId hstack₃ hview₃ id, setViewId_focusable id⟩
  unfold DispatchTree.moveNode
  dsimp only
  rw [ht₂, ht₃]
  refine ⟨hview.1.updateActive fun _ => rfl, ?_⟩
  exact hview.2.trans hfocus₃

/-- Closing nodes for the next node of a reused range. -/
theorem Sound.closeTo (h : t.Sound) (parent : Option ℕ) (stack : List ℕ) :
    (DispatchTree.closeTo parent t stack).1.Sound ∧
      (DispatchTree.closeTo parent t stack).1.focusableNodeIds = t.focusableNodeIds := by
  induction stack generalizing t with
  | nil => exact ⟨h, rfl⟩
  | cons top rest ih =>
    rw [DispatchTree.closeTo]
    split_ifs
    · exact ⟨h, rfl⟩
    · exact ih h.popNode

/-- The focus ids of nodes. -/
def focusIds (nodes : List (DispatchNode D)) : List FocusId := nodes.filterMap DispatchNode.focusId

/-- Reusing any nodes whose focus ids are new and distinct. The induction is on the nodes. -/
theorem Sound.reuseNodes (h : t.Sound) {nodes : List (DispatchNode D)}
    (hnodup : (focusIds nodes).Nodup)
    (hfresh : ∀ focus ∈ focusIds nodes, t.focusableNodeIds focus = none) (stack : List ℕ)
    (id : ℕ) : (t.reuseNodes stack id nodes).Sound := by
  induction nodes generalizing t stack id with
  | nil =>
    rw [DispatchTree.reuseNodes]
    induction stack generalizing t with
    | nil => exact h
    | cons _ stack ih => exact ih h.popNode hfresh
  | cons node nodes ih =>
    obtain ⟨hclosed, hfocus⟩ := h.closeTo node.parent stack
    have hfreshNode : (DispatchTree.closeTo node.parent t stack).1.Fresh node := by
      intro focus hsome
      rw [hfocus]
      apply hfresh
      simp [focusIds, hsome]
    obtain ⟨hmoved, hmovedFocus⟩ := hclosed.moveNode hfreshNode
    rw [DispatchTree.reuseNodes]
    cases hsome : node.focusId with
    | none =>
      have hids : focusIds (node :: nodes) = focusIds nodes := by
        simp [focusIds, hsome]
      rw [hids] at hnodup hfresh
      apply ih hmoved hnodup
      intro focus hmem
      rw [hmovedFocus, hsome, Option.elim_none, hfocus]
      exact hfresh focus hmem
    | some first =>
      have hids : focusIds (node :: nodes) = first :: focusIds nodes := by
        simp [focusIds, hsome]
      rw [hids] at hnodup hfresh
      obtain ⟨hnot, hnodup⟩ := List.nodup_cons.mp hnodup
      apply ih hmoved hnodup
      intro focus hmem
      have hne : focus ≠ first := fun heq => hnot (heq ▸ hmem)
      rw [hmovedFocus, hsome, Option.elim_some, Function.update_of_ne hne, hfocus]
      exact hfresh focus (List.mem_cons_of_mem _ hmem)

end Operations

end Lucie.Drawing.DispatchTree
