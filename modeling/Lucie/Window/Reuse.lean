import Lucie.Window.Session

/-!
# Reusing a recorded range

The copies of a recorded range hang in the other tree as the nodes hang in the range, and those
around which nothing of the range lies hang under its active node. When the next node of the
range belongs to another parent, the nodes that are closed are those behind this parent.
-/

set_option autoImplicit false

namespace Lucie.Drawing

variable {D : Type}

namespace ReusedSubtree

/-- The parent of a copy: the copy of the parent, or the active node for a parent that is
outside the range. -/
def copyParent (reused : ReusedSubtree) (active parent : Option ℕ) : Option ℕ :=
  match parent with
  | some parent =>
    if reused.oldStart ≤ parent then some (reused.refreshNodeId parent) else active
  | none => active

/-- The copy of a node. -/
def copyNode (reused : ReusedSubtree) (active : Option ℕ) (node : DispatchNode D) :
    DispatchNode D :=
  { node with parent := reused.copyParent active node.parent }

end ReusedSubtree

namespace DispatchTree

variable {source t : DispatchTree D} {start stop : ℕ} {base last : List ℕ}

/-- The nodes of a range. -/
def range (t : DispatchTree D) (start stop : ℕ) : List (DispatchNode D) :=
  (t.nodes.drop start).take (stop - start)

/-- The tree with other stacks. -/
def withStacks (t : DispatchTree D) (nodeStack : List ℕ) (contextStack : List KeyContext)
    (viewStack : List EntityId) : DispatchTree D :=
  { t with nodeStack, contextStack, viewStack }

/-- The copies of some nodes of a source from `start` on. -/
def copies (t source : DispatchTree D) (start count : ℕ) : List (DispatchNode D) :=
  ((source.nodes.drop start).take count).map
    (ReusedSubtree.copyNode ⟨start, t.nodes.length, false⟩ t.nodeStack.head?)

/-- The tree with these copies; those of `inner` are open. -/
def copying (t source : DispatchTree D) (start count : ℕ) (inner : List ℕ) : DispatchTree D :=
  (t.grow (t.copies source start count)).withStacks
    (inner.map (ReusedSubtree.refreshNodeId ⟨start, t.nodes.length, false⟩) ++ t.nodeStack)
    (inner.filterMap source.contextAt ++ t.contextStack)
    (inner.filterMap source.viewIdAt ++ t.viewStack)

/-- A path leads from newer to older nodes. -/
theorem IsPath.pairwise {nodes : List (DispatchNode D)} {path : List ℕ} (h : IsPath nodes path)
    (holder : ∀ id parent, nodes[id]?.map DispatchNode.parent = some (some parent) →
      parent < id) : path.Pairwise fun id other => other < id := by
  induction path with
  | nil => exact .nil
  | cons id path ih => exact .cons (h.lt_of_mem holder) (ih h.2)

section Copying

variable {count id : ℕ} {inner : List ℕ}

/-- Closing a copy. -/
theorem popNode_copying (hid : start ≤ id) (hlt : id < start + count)
    (hlength : start + count ≤ source.nodes.length) :
    (t.copying source start count (id :: inner)).popNode = t.copying source start count inner := by
  have hget : source.nodes[id]? = some source.nodes[id] := List.getElem?_eq_getElem (by omega)
  have hnode : (t.copying source start count (id :: inner)).nodes[id - start + t.nodes.length]? =
      some (ReusedSubtree.copyNode ⟨start, t.nodes.length, false⟩ t.nodeStack.head?
        source.nodes[id]) := by
    change (t.nodes ++ t.copies source start count)[_]? = _
    rw [copies, List.getElem?_append_right (by omega), Nat.add_sub_cancel, List.getElem?_map,
      List.getElem?_take_of_lt (by omega), List.getElem?_drop, Nat.add_sub_cancel' hid, hget]
    rfl
  have hcontext : source.contextAt id = source.nodes[id].context := by
    rw [contextAt, hget]
    rfl
  have hview : source.viewIdAt id = source.nodes[id].viewId := by
    rw [viewIdAt, hget]
    rfl
  have htop : (t.copying source start count (id :: inner)).nodeStack.head? =
      some (id - start + t.nodes.length) := rfl
  unfold popNode
  simp only [htop, Option.bind_some, hnode]
  simp only [ReusedSubtree.copyNode, copying, withStacks, List.map_cons, List.cons_append,
    List.tail_cons, filterMap_cons_toList, hcontext, hview]
  cases source.nodes[id].context <;> cases source.nodes[id].viewId <;> rfl

theorem closeNodes_copying {front : List ℕ}
    (hfront : ∀ id ∈ front, start ≤ id ∧ id < start + count)
    (hlength : start + count ≤ source.nodes.length) :
    (t.copying source start count (front ++ inner)).closeNodes front.length =
      t.copying source start count inner := by
  induction front with
  | nil => rfl
  | cons id front ih =>
    obtain ⟨hid, hlt⟩ := hfront id List.mem_cons_self
    rw [List.length_cons, closeNodes, List.cons_append, popNode_copying hid hlt hlength]
    exact ih fun other hother => hfront other (List.mem_cons_of_mem _ hother)

/-- Opening the copy of the next node. -/
theorem moveNode_copying {node : DispatchNode D} (hnode : source.nodes[start + count]? = some node)
    (hinner : ∀ id ∈ inner, start ≤ id) (holder : ∀ id ∈ base, id < start)
    (hparent : node.parent = (inner ++ base).head?)
    (hbase : (base.filterMap source.viewIdAt).head? = t.viewStack.head?)
    (hview : ∀ view, node.viewId = some view →
      ((inner ++ base).filterMap source.viewIdAt).head? ≠ some view) :
    (t.copying source start count inner).moveNode node =
      t.copying source start (count + 1) ((start + count) :: inner) := by
  have hlt : start + count < source.nodes.length := (List.getElem?_eq_some_iff.mp hnode).1
  have hviews : (t.copying source start count inner).viewStack.head? =
      ((inner ++ base).filterMap source.viewIdAt).head? := by
    simp only [copying, withStacks, List.filterMap_append, List.head?_append, hbase]
  have hguard : node.viewId.isSome →
      node.viewId ≠ (t.copying source start count inner).viewStack.head? := by
    intro hsome heq
    obtain ⟨view, hlabel⟩ := Option.isSome_iff_exists.mp hsome
    exact hview view hlabel ((hviews.symm.trans heq.symm).trans hlabel)
  have hcopies : t.copies source start (count + 1) = t.copies source start count ++
      [ReusedSubtree.copyNode ⟨start, t.nodes.length, false⟩ t.nodeStack.head? node] := by
    rw [copies, List.take_add_one, List.getElem?_drop, hnode, List.map_append]
    rfl
  have hcopyParent : (t.copying source start count inner).nodeStack.head? =
      ReusedSubtree.copyParent ⟨start, t.nodes.length, false⟩ t.nodeStack.head? node.parent := by
    rw [hparent]
    cases inner with
    | cons id inner =>
      have hid : start ≤ id := hinner id List.mem_cons_self
      simp [copying, withStacks, ReusedSubtree.copyParent, hid]
    | nil =>
      cases base with
      | nil => rfl
      | cons id base =>
        have hid : ¬ start ≤ id := not_le.mpr (holder id List.mem_cons_self)
        simp [copying, withStacks, ReusedSubtree.copyParent, hid]
  have hlength : (t.copying source start count inner).nodes.length = t.nodes.length + count := by
    simp only [copying, withStacks, grow, copies, List.length_append, List.length_map,
      List.length_take, List.length_drop]
    omega
  have hid : ReusedSubtree.refreshNodeId ⟨start, t.nodes.length, false⟩ (start + count) =
      t.nodes.length + count := by
    simp only [ReusedSubtree.refreshNodeId]
    omega
  have hcontext : source.contextAt (start + count) = node.context := by
    rw [contextAt, hnode, Option.bind_some]
  have hviewId : source.viewIdAt (start + count) = node.viewId := by
    rw [viewIdAt, hnode, Option.bind_some]
  have hstacks : ∀ nodes : List (DispatchNode D), (t.copying source start count inner).grow nodes =
      ((t.grow (t.copies source start count)).grow nodes).withStacks
        (t.copying source start count inner).nodeStack
        (t.copying source start count inner).contextStack
        (t.copying source start count inner).viewStack := fun _ => rfl
  rw [moveNode_eq _ hguard, opened, hcopyParent, hlength, hstacks, grow_grow]
  conv_rhs => rw [copying, hcopies, List.map_cons, hid, filterMap_cons_toList, hcontext,
    filterMap_cons_toList, hviewId, List.append_assoc, List.append_assoc]
  rfl

/-- The loop over the first nodes of a recorded range: the nodes that are open behind them are
those on the path to the last one. -/
theorem reuseNodes_copying (h : source.Framed) (hbasePath : IsPath source.nodes base)
    (holder : ∀ id ∈ base, id < start)
    (hbase : (base.filterMap source.viewIdAt).head? = t.viewStack.head?)
    (hordered : Preordered source.nodes base start count last)
    (hlength : start + count ≤ source.nodes.length) (rest : List (DispatchNode D)) :
    ∃ inner, last = inner ++ base ∧ (∀ id ∈ inner, start ≤ id ∧ id < start + count) ∧
      t.reuseNodes [] start ((source.nodes.drop start).take count ++ rest) =
        (t.copying source start count inner).reuseNodes inner (start + count) rest := by
  induction count generalizing last rest with
  | zero =>
    obtain rfl : last = base := hordered
    refine ⟨[], rfl, by simp, ?_⟩
    have hnone : t.copying source start 0 [] = t := by
      simp [copying, copies, withStacks]
    rw [hnone, List.take_zero, List.nil_append, Nat.add_zero]
  | succ count ih =>
    obtain ⟨before, path, hbefore, hpath, hsuffix, hparent, rfl⟩ := hordered
    have hlt : start + count < source.nodes.length := by omega
    have hnode : source.nodes[start + count]? = some source.nodes[start + count] :=
      List.getElem?_eq_getElem hlt
    set node := source.nodes[start + count] with hdef
    obtain ⟨open', rfl, hopen, hrun⟩ := ih hbefore (by omega) (node :: rest)
    have hbeforePath := (hbefore.isPath hbasePath).1
    have hnodeParent : node.parent = path.head? := by
      rw [hnode] at hparent
      exact Option.some.inj hparent
    -- what is closed lies in front of the path to the parent
    obtain ⟨inner, rfl⟩ := hsuffix
    obtain ⟨front, hfront⟩ := hpath
    obtain rfl : front ++ inner = open' := by
      rw [← List.append_assoc] at hfront
      exact List.append_cancel_right hfront
    have hfrontIds : ∀ id ∈ front, start ≤ id ∧ id < start + count :=
      fun id hid => hopen id (List.mem_append_left _ hid)
    have hinnerIds : ∀ id ∈ inner, start ≤ id ∧ id < start + count :=
      fun id hid => hopen id (List.mem_append_right _ hid)
    have hclose : (t.copying source start count (front ++ inner)).closeTo node.parent
        (front ++ inner) = (t.copying source start count inner, inner) := by
      rw [closeTo_append, closeNodes_copying hfrontIds (by omega)]
      · intro id hid heq
        rw [hnodeParent] at heq
        rw [List.append_assoc] at hbeforePath
        have hnewer := List.pairwise_append.mp (hbeforePath.pairwise h.stacked.older)
        exact lt_irrefl id (hnewer.2.2 id hid id (List.mem_of_mem_head? heq))
      · intro hne
        rw [hnodeParent, List.head?_append_of_ne_nil _ hne]
    have hmove : (t.copying source start count inner).moveNode node =
        t.copying source start (count + 1) ((start + count) :: inner) := by
      refine moveNode_copying hnode (fun id hid => (hinnerIds id hid).1) holder hnodeParent hbase ?_
      intro view hview
      refine h.views (start + count) (inner ++ base) ⟨hparent, ?_⟩ view ?_
      · have hdrop : IsPath source.nodes (front ++ (inner ++ base)) := by
          rwa [← List.append_assoc]
        exact hdrop.of_append
      · rw [viewIdAt, hnode]
        exact hview
    refine ⟨(start + count) :: inner, rfl, ?_, ?_⟩
    · intro id hid
      obtain rfl | hid := List.mem_cons.mp hid
      · omega
      · have := hinnerIds id hid
        omega
    · have htake : (source.nodes.drop start).take (count + 1) ++ rest =
          (source.nodes.drop start).take count ++ node :: rest := by
        rw [List.take_add_one, List.getElem?_drop, hnode, List.append_assoc]
        rfl
      rw [htake, hrun, reuseNodes, hclose, hmove]
      rfl

end Copying

/-- What reusing a range does: the nodes of the range are copied behind the nodes of the tree,
with their contexts, ids and listeners, the stacks are as before, the nodes are left without
their listeners, and the range contains the focus exactly if a node of it has the focused id. -/
structure ReusesRange (t source : DispatchTree D) (start stop : ℕ) (focus : Option FocusId)
    (result : ReusedSubtree × DispatchTree D × DispatchTree D) : Prop where
  oldStart : result.1.oldStart = start
  newStart : result.1.newStart = t.nodes.length
  nodes : result.2.1.nodes =
    t.nodes ++ (source.range start stop).map (result.1.copyNode t.nodeStack.head?)
  nodeStack : result.2.1.nodeStack = t.nodeStack
  contextStack : result.2.1.contextStack = t.contextStack
  viewStack : result.2.1.viewStack = t.viewStack
  left : result.2.2.nodes = source.nodes.take start ++
    (source.range start stop).map DispatchNode.withoutListeners ++
      (source.nodes.drop start).drop (stop - start)
  containsFocus : result.1.containsFocus = true ↔
    ∃ id, focus = some id ∧ ∃ node ∈ source.range start stop, node.focusId = some id

theorem RecordedRange.reusesRange {top : Option EntityId}
    (h : source.RecordedRange start stop base top) (htop : top = t.viewStack.head?)
    (focus : Option FocusId) :
    t.ReusesRange source start stop focus (t.reuseSubtree start stop source focus) := by
  have hcopy : (t.reuseSubtree start stop source focus).2.1 =
      t.grow (t.copies source start (stop - start)) := by
    change t.reuseNodes [] start (source.range start stop) = _
    rcases Nat.lt_or_ge start stop with hlt | hge
    · obtain ⟨last, hlast⟩ := h.preordered
      obtain ⟨hle, hstop⟩ := h.bounds
      obtain ⟨inner, -, hinner, hrun⟩ := reuseNodes_copying h.framed h.isPath h.older
        ((h.views hlt).trans htop) hlast (by omega) []
      rw [List.append_nil] at hrun
      have hclosed : (t.copying source start (stop - start) (inner ++ [])).closeNodes
          inner.length = t.copying source start (stop - start) [] :=
        closeNodes_copying hinner (by omega)
      rw [List.append_nil] at hclosed
      rw [range, hrun, reuseNodes, foldl_popNode, hclosed]
      rfl
    · have hnone : stop - start = 0 := by omega
      simp [range, copies, hnone, reuseNodes]
  constructor
  · rfl
  · rfl
  · rw [hcopy]
    rfl
  · rw [hcopy]
    rfl
  · rw [hcopy]
    rfl
  · rw [hcopy]
    rfl
  · rfl
  · change ((source.range start stop).any fun node =>
      node.focusId.isSome && node.focusId == focus) = true ↔ _
    simp only [List.any_eq_true, Bool.and_eq_true, beq_iff_eq]
    constructor
    · rintro ⟨node, hnode, hsome, rfl⟩
      obtain ⟨id, hid⟩ := Option.isSome_iff_exists.mp hsome
      exact ⟨id, hid, node, hnode, hid⟩
    · rintro ⟨id, rfl, node, hnode, hid⟩
      exact ⟨node, hnode, by rw [hid]; rfl, hid⟩

/-- A session that pushes one node with a view. -/
def oneView : List (Edit Empty) :=
  [.operation .pushNode, .operation (.setViewId ⟨1, 1⟩), .operation .popNode]

/-- The tree after the session. -/
def oneViewTree : DispatchTree Empty := (new.pushNode.setViewId ⟨1, 1⟩).popNode

/-- A session that sets the view of a node behind a node inside it with the same view. -/
def lateView : List (Edit Empty) :=
  [.operation .pushNode, .operation .pushNode, .operation (.setViewId ⟨1, 1⟩),
    .operation .popNode, .operation (.setViewId ⟨1, 1⟩), .operation .popNode]

/-- The tree after the session. -/
def lateViewTree : DispatchTree Empty :=
  ((new.pushNode.pushNode.setViewId ⟨1, 1⟩).popNode.setViewId ⟨1, 1⟩).popNode

end DispatchTree

end Lucie.Drawing
