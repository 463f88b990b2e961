import Lucie.Window.Forest
import Lucie.Window.Walks

/-!
# The views of a frame

A node gets a context and a view at most once, and a view before nodes are pushed under it. Then
a node shows a view only if this is not the innermost view around it, whatever is opened, closed,
moved from another frame, or removed after a failed attempt.
-/

set_option autoImplicit false

namespace Lucie.Drawing.DispatchTree

variable {D : Type}

/-! ## Frames -/

/-- What happens to the tree of a frame: an operation, the removal of the nodes of a failed
attempt, or that a range of its nodes is moved to the tree of the next frame. -/
inductive Edit (D : Type)
  | operation (operation : Operation D)
  | truncate (index : ℕ)
  | moved (start stop : ℕ)

/-- What `reuse_subtree` leaves of the tree whose nodes it moves. -/
def leave (t : DispatchTree D) (start stop : ℕ) : DispatchTree D :=
  (new.reuseSubtree start stop t none).2.2

/-- The tree after an edit. -/
def edit (t : DispatchTree D) : Edit D → DispatchTree D
  | .operation operation => t.apply operation
  | .truncate index => t.truncate index
  | .moved start stop => t.leave start stop

/-- Make an edit as a step of a run. -/
def editStep (t : DispatchTree D) (edit : Edit D) : Option (DispatchTree D) := some (t.edit edit)

/-- A node gets a context and a view at most once, nodes are closed only if one is open, an
existing node is made active, and open nodes are not removed. -/
def SetsOnce (t : DispatchTree D) : Edit D → Prop
  | .operation .pushNode | .operation (.reuseSubtree ..) => True
  | .operation .popNode | .operation (.setFocusId _) | .operation (.onKeyEvent _)
  | .operation (.onModifiersChanged _) | .operation (.onAction _) => t.nodeStack ≠ []
  | .operation (.setActiveNode id) => id < t.nodes.length
  | .operation (.setKeyContext _) => ∃ active ∈ t.nodeStack.head?, t.contextAt active = none
  | .operation (.setViewId _) => ∃ active ∈ t.nodeStack.head?, t.viewIdAt active = none
  | .truncate index => ∀ id ∈ t.nodeStack, id < index
  | .moved .. => True

/-- No node hangs under a node. -/
def Childless (t : DispatchTree D) (id : ℕ) : Prop :=
  ∀ child : ℕ, t.nodes[child]?.map DispatchNode.parent ≠ some (some id)

/-- The view of a node is set before nodes are pushed under it, and only if the node is one of
those from `start` on. -/
def SetsViewFirst (start : ℕ) (t : DispatchTree D) : Edit D → Prop
  | .operation (.setViewId _) => ∃ active ∈ t.nodeStack.head?, start ≤ active ∧ t.Childless active
  | _ => True

/-! ## Opening nodes -/

/-- A node without the view id if this is the innermost one. -/
def withoutTopView (t : DispatchTree D) (label : DispatchNode D) : DispatchNode D :=
  if label.viewId = t.viewStack.head? then { label with viewId := none } else label

variable {t t' : DispatchTree D}

theorem pushNode_eq (t : DispatchTree D) : t.pushNode = t.opened (.new none) := by
  simp [pushNode, opened, grow, shown, DispatchNode.new, Foundation.Register.record_nil]

theorem withoutTopView_guard (t : DispatchTree D) (label : DispatchNode D) :
    (t.withoutTopView label).viewId.isSome →
      (t.withoutTopView label).viewId ≠ t.viewStack.head? := by
  unfold withoutTopView
  split_ifs with hview
  · simp
  · exact fun _ => hview

/-- Moving a node opens one without the view id if this is the innermost one. -/
theorem moveNode_eq_opened (t : DispatchTree D) (label : DispatchNode D) :
    t.moveNode label = t.opened (t.withoutTopView label) := by
  rw [← moveNode_eq t (t.withoutTopView_guard label)]
  unfold withoutTopView
  split_ifs with hview
  · obtain ⟨keys, actions, modifiers, context, focusId, viewId, parent⟩ := label
    cases viewId with
    | none => rfl
    | some id =>
      have htop : t.viewStack.head? = some id := hview.symm
      cases context <;> cases focusId <;>
        simp [moveNode, pushNode, setKeyContext, setFocusId, setViewId, updateActive, htop]
  · rfl

/-! ## The views of a frame -/

/-- There is one path to a node. -/
theorem IsPath.unique {nodes : List (DispatchNode D)} {id : ℕ} {path path' : List ℕ}
    (h : IsPath nodes (id :: path)) (h' : IsPath nodes (id :: path')) : path = path' := by
  induction path generalizing id path' with
  | nil =>
    have hhead : path'.head? = none := Option.some.inj (h'.1.symm.trans h.1)
    exact (List.head?_eq_none_iff.mp hhead).symm
  | cons parent path ih =>
    have hhead : path'.head? = some parent := Option.some.inj (h'.1.symm.trans h.1)
    obtain ⟨rest, rfl⟩ := List.head?_eq_some_iff.mp hhead
    rw [ih h.2 h'.2]

/-- A node hangs under each node on the path to another one. -/
theorem IsPath.exists_child {nodes : List (DispatchNode D)} {id : ℕ} {path : List ℕ}
    (h : IsPath nodes (id :: path)) :
    ∀ other ∈ path, ∃ child : ℕ, nodes[child]?.map DispatchNode.parent = some (some other) := by
  induction path generalizing id with
  | nil => simp
  | cons parent path ih =>
    intro other hother
    obtain rfl | hother := List.mem_cons.mp hother
    · exact ⟨id, h.1⟩
    · exact ih h.2 other hother

/-- No node shows the view that is the innermost one around it. -/
def NestedViews (t : DispatchTree D) : Prop :=
  ∀ id path, IsPath t.nodes (id :: path) →
    ∀ view, t.viewIdAt id = some view → (path.filterMap t.viewIdAt).head? ≠ some view

/-- Only the parents and the views matter. -/
theorem NestedViews.congr (h : t.NestedViews)
    (hparent : ∀ id : ℕ, t'.nodes[id]?.map DispatchNode.parent =
      t.nodes[id]?.map DispatchNode.parent)
    (hview : ∀ id, t'.viewIdAt id = t.viewIdAt id) : t'.NestedViews := by
  intro id path hpath view hid
  have hold : IsPath t.nodes (id :: path) := hpath.congr fun other _ => (hparent other).symm
  rw [hview] at hid
  rw [List.filterMap_congr fun other _ => hview other]
  exact h id path hold view hid

/-- The state of a frame between two operations. -/
structure Framed (t : DispatchTree D) : Prop where
  stacked : t.WellStacked
  views : t.NestedViews

theorem framed_new : (new : DispatchTree D).Framed := by
  refine ⟨wellStacked_new, fun id path _ view hview => ?_⟩
  cases hview

theorem getElem?_opened (t : DispatchTree D) (label : DispatchNode D) (id : ℕ) :
    (t.opened label).nodes[id]? =
      if id = t.nodes.length then some { label with parent := t.nodeStack.head? }
      else t.nodes[id]? := by
  change (t.nodes ++ [_])[id]? = _
  split_ifs with hid
  · rw [hid, List.getElem?_concat_length]
  · rcases Nat.lt_or_gt_of_ne hid with hlt | hgt
    · rw [List.getElem?_append_left hlt]
    · rw [List.getElem?_eq_none (by simp; omega), List.getElem?_eq_none (by omega)]

/-- The trees agree on a node and the older ones. -/
theorem NestedViews.of_agree (h : t.NestedViews) (hstacked : t'.WellStacked) {id : ℕ}
    {path : List ℕ} (hpath : IsPath t'.nodes (id :: path))
    (hagree : ∀ other ≤ id, t'.nodes[other]? = t.nodes[other]?) {view : EntityId}
    (hview : t'.viewIdAt id = some view) : (path.filterMap t'.viewIdAt).head? ≠ some view := by
  have hle : ∀ other ∈ id :: path, other ≤ id := by
    intro other hother
    obtain rfl | hother := List.mem_cons.mp hother
    · exact le_rfl
    · exact (hpath.lt_of_mem hstacked.older other hother).le
  have hold : IsPath t.nodes (id :: path) :=
    hpath.congr fun other hother => by rw [hagree other (hle other hother)]
  have hlabel : ∀ other ∈ id :: path, t'.viewIdAt other = t.viewIdAt other :=
    fun other hother => by rw [viewIdAt, viewIdAt, hagree other (hle other hother)]
  rw [hlabel id List.mem_cons_self] at hview
  rw [List.filterMap_congr fun other hother => hlabel other (List.mem_cons_of_mem _ hother)]
  exact h id path hold view hview

theorem WellStacked.opened (h : t.WellStacked) (label : DispatchNode D) :
    (t.opened label).WellStacked := by
  have hlt := h.path.lt_length
  have hold : ∀ id ∈ t.nodeStack, (t.opened label).nodes[id]? = t.nodes[id]? := by
    intro id hid
    rw [getElem?_opened, if_neg (Nat.ne_of_lt (hlt id hid))]
  have hnew : (t.opened label).nodes[t.nodes.length]? =
      some { label with parent := t.nodeStack.head? } := by
    rw [getElem?_opened, if_pos rfl]
  constructor
  · refine ⟨by rw [hnew, Option.map_some], ?_⟩
    exact h.path.congr fun id hid => by rw [hold id hid]
  · change label.context.toList ++ t.contextStack =
      (t.nodes.length :: t.nodeStack).filterMap (t.opened label).contextAt
    rw [filterMap_cons_toList, contextAt, hnew, h.contexts]
    exact congrArg (label.context.toList ++ ·) (List.filterMap_congr fun id hid => by
      rw [contextAt, contextAt, hold id hid])
  · change label.viewId.toList ++ t.viewStack =
      (t.nodes.length :: t.nodeStack).filterMap (t.opened label).viewIdAt
    rw [filterMap_cons_toList, viewIdAt, hnew, h.views]
    exact congrArg (label.viewId.toList ++ ·) (List.filterMap_congr fun id hid => by
      rw [viewIdAt, viewIdAt, hold id hid])
  · intro id parent hparent
    rw [getElem?_opened] at hparent
    split_ifs at hparent with hid
    · subst hid
      have hhead : t.nodeStack.head? = some parent := Option.some.inj hparent
      exact hlt parent (List.mem_of_mem_head? hhead)
    · exact h.older id parent hparent

/-- Opening a node with a view that is not the innermost one. -/
theorem Framed.opened (h : t.Framed) {label : DispatchNode D}
    (hguard : label.viewId.isSome → label.viewId ≠ t.viewStack.head?) :
    (t.opened label).Framed := by
  have hstacked := h.stacked.opened label
  refine ⟨hstacked, fun id path hpath view hview => ?_⟩
  have hid : id < t.nodes.length + 1 := by
    simpa [DispatchTree.opened, grow] using hpath.lt_length id List.mem_cons_self
  obtain hlt | rfl := Nat.lt_succ_iff_lt_or_eq.mp hid
  · refine h.views.of_agree hstacked hpath (fun other hother => ?_) hview
    rw [getElem?_opened, if_neg (by omega)]
  · obtain rfl : path = t.nodeStack := hpath.unique hstacked.path
    -- the new node shows the view of its label
    have hlabel : label.viewId = some view := by
      rw [viewIdAt, getElem?_opened, if_pos rfl] at hview
      exact hview
    have hviews : t.nodeStack.filterMap (t.opened label).viewIdAt = t.viewStack := by
      have hstack := hstacked.views
      change label.viewId.toList ++ t.viewStack =
        (t.nodes.length :: t.nodeStack).filterMap (t.opened label).viewIdAt at hstack
      rw [filterMap_cons_toList, hview, hlabel] at hstack
      exact (List.append_cancel_left hstack).symm
    rw [hviews, ← hlabel]
    exact (hguard (by rw [hlabel]; rfl)).symm

theorem Framed.moveNode (h : t.Framed) (source : DispatchNode D) : (t.moveNode source).Framed := by
  rw [moveNode_eq_opened]
  exact h.opened (t.withoutTopView_guard source)

theorem Framed.popNode (h : t.Framed) : t.popNode.Framed :=
  ⟨h.stacked.popNode, h.views.congr (fun _ => rfl) fun _ => rfl⟩

/-- Closing nodes while a range is moved. -/
theorem closeTo_induction {P : ℕ → DispatchTree D → Prop}
    (hpop : ∀ depth t, P (depth + 1) t → P depth t.popNode) (parent : Option ℕ) (depth : ℕ)
    {stack : List ℕ} (h : P (depth + stack.length) t) :
    P (depth + (t.closeTo parent stack).2.length) (t.closeTo parent stack).1 := by
  induction stack generalizing t with
  | nil => exact h
  | cons top rest ih =>
    rw [closeTo]
    split_ifs
    · exact h
    · exact ih (hpop _ _ h)

/-- What opening a node and closing it keep, with a count of the open nodes, moving a range
keeps. -/
theorem reuseNodes_induction {P : ℕ → DispatchTree D → Prop}
    (hpop : ∀ depth t, P (depth + 1) t → P depth t.popNode)
    (hmove : ∀ depth t node, P depth t → P (depth + 1) (t.moveNode node)) (depth : ℕ)
    {stack : List ℕ} (h : P (depth + stack.length) t) (id : ℕ) (nodes : List (DispatchNode D)) :
    P depth (t.reuseNodes stack id nodes) := by
  induction nodes generalizing t stack id with
  | nil =>
    rw [reuseNodes]
    induction stack generalizing t with
    | nil => exact h
    | cons top rest ih => exact ih (hpop _ _ h)
  | cons node nodes ih =>
    rw [reuseNodes]
    refine ih ?_ (id + 1)
    exact hmove _ _ node (closeTo_induction hpop node.parent depth h)

theorem parent_updateActive {change : DispatchNode D → DispatchNode D}
    (hparent : ∀ node, (change node).parent = node.parent) (id : ℕ) :
    (t.updateActive change).nodes[id]?.map DispatchNode.parent =
      t.nodes[id]?.map DispatchNode.parent := by
  rw [Option.map_eq_bind, Option.map_eq_bind]
  exact @label_updateActive _ t _ (fun node => some node.parent) change
    (fun node => congrArg some (hparent node)) id

theorem reuseSubtree_induction {P : ℕ → DispatchTree D → Prop}
    (hpop : ∀ depth t, P (depth + 1) t → P depth t.popNode)
    (hmove : ∀ depth t node, P depth t → P (depth + 1) (t.moveNode node)) (depth : ℕ)
    (h : P depth t) (start stop : ℕ) (source : DispatchTree D) (focus : Option FocusId) :
    P depth (t.reuseSubtree start stop source focus).2.1 := by
  have hnone : P (depth + ([] : List ℕ).length) t := h
  exact reuseNodes_induction hpop hmove depth hnone start _

/-- A change of the listeners or the focus id of the active node. -/
theorem Framed.updateActive (h : t.Framed) {change : DispatchNode D → DispatchNode D}
    (hparent : ∀ node, (change node).parent = node.parent)
    (hcontext : ∀ node, (change node).context = node.context)
    (hview : ∀ node, (change node).viewId = node.viewId) : (t.updateActive change).Framed :=
  ⟨h.stacked.updateActive hparent hcontext hview,
    h.views.congr (parent_updateActive hparent) (label_updateActive hview)⟩

theorem Framed.setKeyContext (h : t.Framed) (context : KeyContext)
    (hnone : ∃ active ∈ t.nodeStack.head?, t.contextAt active = none) :
    (t.setKeyContext context).Framed := by
  obtain ⟨active, hactive, hnone⟩ := hnone
  obtain ⟨rest, hstack⟩ := List.head?_eq_some_iff.mp hactive
  exact ⟨h.stacked.setKeyContext hstack hnone context,
    h.views.congr (parent_updateActive fun _ => rfl) (label_updateActive fun _ => rfl)⟩

theorem Framed.setFocusId (h : t.Framed) (id : FocusId) : (t.setFocusId id).Framed := by
  refine ⟨h.stacked.setFocusId id, ?_⟩
  cases hstack : t.nodeStack with
  | nil =>
    have hsame : t.setFocusId id = t := by
      rw [DispatchTree.setFocusId, hstack]
    rw [hsame]
    exact h.views
  | cons active rest =>
    rw [setFocusId_eq hstack]
    exact h.views.congr (parent_updateActive fun _ => rfl) (label_updateActive fun _ => rfl)

theorem setViewId_eq {active : ℕ} {rest : List ℕ} (hstack : t.nodeStack = active :: rest)
    {id : EntityId} (htop : t.viewStack.head? ≠ some id) :
    t.setViewId id = { t.updateActive fun node => { node with viewId := some id } with
      viewNodeIds := Function.update t.viewNodeIds id (some active)
      viewStack := id :: t.viewStack } := by
  rw [DispatchTree.setViewId, if_neg htop, hstack]

/-- Setting the view of the active node when no node hangs under it. -/
theorem Framed.setViewId (h : t.Framed) (id : EntityId)
    (hnone : ∃ active ∈ t.nodeStack.head?, t.viewIdAt active = none)
    (hchildless : ∃ active ∈ t.nodeStack.head?, t.Childless active) : (t.setViewId id).Framed := by
  obtain ⟨active, hactive, hnone⟩ := hnone
  obtain ⟨rest, hstack⟩ := List.head?_eq_some_iff.mp hactive
  obtain ⟨active', hactive', hchildless⟩ := hchildless
  obtain rfl : active = active' := Option.mem_unique hactive hactive'
  refine ⟨h.stacked.setViewId hstack hnone id, ?_⟩
  by_cases htop : t.viewStack.head? = some id
  · rw [DispatchTree.setViewId, if_pos htop]
    exact h.views
  rw [setViewId_eq hstack htop]
  set t' := t.updateActive fun node => { node with viewId := some id } with ht'
  have hparent : ∀ other : ℕ, t'.nodes[other]?.map DispatchNode.parent =
      t.nodes[other]?.map DispatchNode.parent := parent_updateActive fun _ => rfl
  intro other path hpath view hview
  change IsPath t'.nodes (other :: path) at hpath
  change t'.viewIdAt other = some view at hview
  change (path.filterMap t'.viewIdAt).head? ≠ some view
  have hold : IsPath t.nodes (other :: path) := hpath.congr fun other _ => (hparent other).symm
  have hlabel : ∀ other, other ≠ active → t'.viewIdAt other = t.viewIdAt other := by
    intro other hne
    rw [viewIdAt, viewIdAt, ht', updateActive_getElem? hstack, if_neg hne.symm]
  -- a node without children is on no path to another node
  have hpathLabel : ∀ other ∈ path, t'.viewIdAt other = t.viewIdAt other := by
    intro other hother
    obtain ⟨child, hchild⟩ := hold.exists_child other hother
    refine hlabel other ?_
    rintro rfl
    exact hchildless child hchild
  rw [List.filterMap_congr hpathLabel]
  by_cases hother : other = active
  · subst hother
    have hpath' : rest = path := by
      have hstackPath := h.stacked.path
      rw [hstack] at hstackPath
      exact hstackPath.unique hold
    have hactiveNode : t'.viewIdAt other = some id := by
      obtain ⟨node, hnode⟩ := h.stacked.exists_active hstack
      rw [viewIdAt, ht', updateActive_getElem? hstack, if_pos rfl, hnode]
      rfl
    rw [hactiveNode] at hview
    obtain rfl := Option.some.inj hview
    rw [h.stacked.views, hstack, filterMap_cons_toList, hnone, hpath'] at htop
    exact htop
  · rw [hlabel other hother] at hview
    exact h.views other path hold view hview

theorem Framed.setActiveNode (h : t.Framed) {id : ℕ} (hid : id < t.nodes.length) :
    (t.setActiveNode id).Framed := by
  obtain ⟨hstacked, hnodes, -⟩ := h.stacked.setActiveNode hid
  refine ⟨hstacked, h.views.congr (fun other => ?_) fun other => ?_⟩
  · rw [hnodes]
  · rw [viewIdAt, viewIdAt, hnodes]

/-- Removing nodes that are not open. -/
theorem WellStacked.truncate (h : t.WellStacked) {index : ℕ}
    (hopen : ∀ id ∈ t.nodeStack, id < index) : (t.truncate index).WellStacked := by
  have hkept : ∀ id < index, (t.truncate index).nodes[id]? = t.nodes[id]? :=
    fun id hid => List.getElem?_take_of_lt hid
  have hremoved : ∀ id, index ≤ id → (t.truncate index).nodes[id]? = none :=
    fun id hid => List.getElem?_eq_none (by simp [DispatchTree.truncate]; omega)
  have holder : ∀ id parent, (t.truncate index).nodes[id]?.map DispatchNode.parent =
      some (some parent) → parent < id := by
    intro id parent hparent
    rcases Nat.lt_or_ge id index with hid | hid
    · rw [hkept id hid] at hparent
      exact h.older id parent hparent
    · rw [hremoved id hid] at hparent
      cases hparent
  refine ⟨h.path.congr fun id hid => by rw [hkept id (hopen id hid)], ?_, ?_, holder⟩
  · refine h.contexts.trans (List.filterMap_congr fun id hid => ?_)
    rw [contextAt, contextAt, hkept id (hopen id hid)]
  · refine h.views.trans (List.filterMap_congr fun id hid => ?_)
    rw [viewIdAt, viewIdAt, hkept id (hopen id hid)]

theorem Framed.truncate (h : t.Framed) {index : ℕ} (hopen : ∀ id ∈ t.nodeStack, id < index) :
    (t.truncate index).Framed := by
  have hstacked := h.stacked.truncate hopen
  refine ⟨hstacked, fun id path hpath view hview => ?_⟩
  rcases Nat.lt_or_ge id index with hid | hid
  · exact h.views.of_agree hstacked hpath
      (fun other hother => List.getElem?_take_of_lt (by omega)) hview
  · have hremoved : (t.truncate index).nodes[id]? = none :=
      List.getElem?_eq_none (by simp [DispatchTree.truncate]; omega)
    rw [viewIdAt, hremoved] at hview
    cases hview

/-- What is left of a tree has the nodes of it up to their listeners. -/
theorem map_leave {A : Type} {label : DispatchNode D → A}
    (hlabel : ∀ node, label node.withoutListeners = label node) (start stop id : ℕ) :
    (t.leave start stop).nodes[id]?.map label = t.nodes[id]?.map label := by
  have hcomp : label ∘ DispatchNode.withoutListeners = label := funext hlabel
  have hmap : (t.leave start stop).nodes.map label = t.nodes.map label := by
    simp only [leave, reuseSubtree, List.map_append, List.map_map, hcomp]
    rw [List.append_assoc, ← List.map_append, List.take_append_drop, ← List.map_append,
      List.take_append_drop]
  rw [← List.getElem?_map, ← List.getElem?_map, hmap]

theorem bind_leave {A : Type} {label : DispatchNode D → Option A}
    (hlabel : ∀ node, label node.withoutListeners = label node) (start stop node : ℕ) :
    (t.leave start stop).nodes[node]?.bind label = t.nodes[node]?.bind label := by
  have hmap := congrArg (Option.bind · id) (map_leave (t := t) hlabel start stop node)
  simpa only [Option.bind_map, Function.id_comp] using hmap

theorem length_leave (t : DispatchTree D) (start stop : ℕ) :
    (t.leave start stop).nodes.length = t.nodes.length := by
  simp only [leave, reuseSubtree, List.length_append, List.length_map, List.length_take,
    List.length_drop]
  omega

theorem parent_leave (start stop id : ℕ) : (t.leave start stop).nodes[id]?.map DispatchNode.parent =
    t.nodes[id]?.map DispatchNode.parent :=
  map_leave (fun _ => rfl) start stop id

theorem viewIdAt_leave (start stop id : ℕ) : (t.leave start stop).viewIdAt id = t.viewIdAt id :=
  bind_leave (fun _ => rfl) start stop id

/-- Moving nodes to another tree. -/
theorem WellStacked.leave (h : t.WellStacked) (start stop : ℕ) :
    (t.leave start stop).WellStacked := by
  have hcontext : ∀ id, (t.leave start stop).contextAt id = t.contextAt id :=
    bind_leave (fun _ => rfl) start stop
  refine ⟨?_, ?_, ?_, ?_⟩
  · exact h.path.congr fun id _ => parent_leave start stop id
  · exact h.contexts.trans (List.filterMap_congr fun id _ => (hcontext id).symm)
  · exact h.views.trans (List.filterMap_congr fun id _ => (viewIdAt_leave start stop id).symm)
  · intro id parent hid
    rw [parent_leave] at hid
    exact h.older id parent hid

theorem Framed.leave (h : t.Framed) (start stop : ℕ) : (t.leave start stop).Framed :=
  ⟨h.stacked.leave start stop,
    h.views.congr (parent_leave start stop) (viewIdAt_leave start stop)⟩

/-- Every edit keeps the stacks well. -/
theorem WellStacked.edit (h : t.WellStacked) {edit : Edit D} (honce : t.SetsOnce edit) :
    (t.edit edit).WellStacked := by
  cases edit with
  | truncate index => exact h.truncate honce
  | moved start stop => exact h.leave start stop
  | operation operation =>
    cases operation with
    | pushNode => exact h.pushNode
    | popNode => exact h.popNode
    | setActiveNode id => exact (h.setActiveNode honce).1
    | setKeyContext context =>
      obtain ⟨active, hactive, hnone⟩ := honce
      obtain ⟨rest, hstack⟩ := List.head?_eq_some_iff.mp hactive
      exact h.setKeyContext hstack hnone context
    | setFocusId id => exact h.setFocusId id
    | setViewId id =>
      obtain ⟨active, hactive, hnone⟩ := honce
      obtain ⟨rest, hstack⟩ := List.head?_eq_some_iff.mp hactive
      exact h.setViewId hstack hnone id
    | reuseSubtree start stop source focus =>
      refine reuseSubtree_induction (P := fun _ t => t.WellStacked) (fun _ _ h => h.popNode)
        (fun _ t node h => ?_) 0 h start stop source focus
      rw [moveNode_eq_opened]
      exact h.opened _
    | onKeyEvent listener => exact h.updateActive (fun _ => rfl) (fun _ => rfl) fun _ => rfl
    | onModifiersChanged listener =>
      exact h.updateActive (fun _ => rfl) (fun _ => rfl) fun _ => rfl
    | onAction listener => exact h.updateActive (fun _ => rfl) (fun _ => rfl) fun _ => rfl

/-- Every edit keeps the stacks well and the views nested. -/
theorem Framed.edit (h : t.Framed) {edit : Edit D} (honce : t.SetsOnce edit)
    {start : ℕ} (hfirst : t.SetsViewFirst start edit) : (t.edit edit).Framed := by
  cases edit with
  | truncate index => exact h.truncate honce
  | moved start' stop => exact h.leave start' stop
  | operation operation =>
    cases operation with
    | pushNode =>
      change t.pushNode.Framed
      rw [pushNode_eq]
      exact h.opened fun hview => by cases hview
    | popNode => exact h.popNode
    | setActiveNode id => exact h.setActiveNode honce
    | setKeyContext context => exact h.setKeyContext context honce
    | setFocusId id => exact h.setFocusId id
    | setViewId id =>
      obtain ⟨active, hactive, -, hchildless⟩ := hfirst
      exact h.setViewId id honce ⟨active, hactive, hchildless⟩
    | reuseSubtree start stop source focus =>
      exact reuseSubtree_induction (P := fun _ t => t.Framed) (fun _ _ h => h.popNode)
        (fun _ _ node h => h.moveNode node) 0 h start stop source focus
    | onKeyEvent listener => exact h.updateActive (fun _ => rfl) (fun _ => rfl) fun _ => rfl
    | onModifiersChanged listener =>
      exact h.updateActive (fun _ => rfl) (fun _ => rfl) fun _ => rfl
    | onAction listener => exact h.updateActive (fun _ => rfl) (fun _ => rfl) fun _ => rfl

end Lucie.Drawing.DispatchTree
