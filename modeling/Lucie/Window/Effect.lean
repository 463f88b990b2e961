import Lucie.Window.Settings

/-!
# The effect of a prepaint

A prepaint that visits no cached view appends to the vectors of the next frame, makes its
settings on the dispatch tree, may set the focus of the frame, and leaves everything else as
it is. Rolling it back takes the vectors back; what is left are the settings and the focus.
-/

set_option autoImplicit false

namespace Lucie.Drawing

open Foundation.Register

variable {D K : Type}

/-! ## The dispatch tree -/

/-- A node without its ids. -/
def DispatchNode.unlabelled (node : DispatchNode D) : DispatchNode D :=
  { node with focusId := none, viewId := none }

namespace DispatchTree

/-- The focus id of a node. -/
def focusIdAt (t : DispatchTree D) (node : ℕ) : Option FocusId :=
  t.nodes[node]?.bind DispatchNode.focusId

/-- The view id of a node. -/
def viewIdAt (t : DispatchTree D) (node : ℕ) : Option EntityId :=
  t.nodes[node]?.bind DispatchNode.viewId

/-- The context of a node. -/
def contextAt (t : DispatchTree D) (node : ℕ) : Option KeyContext :=
  t.nodes[node]?.bind DispatchNode.context

/-- The active node is a node of the tree. -/
def ActiveValid (t : DispatchTree D) : Prop :=
  ∀ node, t.nodeStack.head? = some node → node < t.nodes.length

/-- A tree that differs from another by new nodes and by settings. -/
structure Effect (t t' : DispatchTree D) (count : ℕ) (focus : List (FocusId × ℕ))
    (views : List (EntityId × ℕ) × List EntityId) : Prop where
  nodeStack : t'.nodeStack = t.nodeStack
  contextStack : t'.contextStack = t.contextStack
  viewStack : t'.viewStack = views.2
  length : t'.nodes.length = t.nodes.length + count
  focusableNodeIds : t'.focusableNodeIds = record focus t.focusableNodeIds
  viewNodeIds : t'.viewNodeIds = record views.1 t.viewNodeIds
  focusIdAt : ∀ node, t'.focusIdAt node = (lastId node focus).or (t.focusIdAt node)
  viewIdAt : ∀ node, t'.viewIdAt node = (lastId node views.1).or (t.viewIdAt node)
  contextAt : ∀ node, t'.contextAt node = t.contextAt node
  unlabelled : ∀ node < t.nodes.length,
    t'.nodes[node]?.map DispatchNode.unlabelled = t.nodes[node]?.map DispatchNode.unlabelled

variable {t t' t'' : DispatchTree D} {count count' : ℕ} {focus focus' : List (FocusId × ℕ)}
  {views views' : List (EntityId × ℕ) × List EntityId}

theorem Effect.refl (t : DispatchTree D) : Effect t t 0 [] ([], t.viewStack) := by
  constructor <;> simp [lastId]

theorem Effect.activeValid (h : Effect t t' count focus views) (hvalid : t.ActiveValid) :
    t'.ActiveValid := by
  intro node hnode
  rw [h.nodeStack] at hnode
  have := hvalid node hnode
  have := h.length
  omega

theorem Effect.trans (h : Effect t t' count focus views)
    (h' : Effect t' t'' count' focus' views') :
    Effect t t'' (count + count') (focus ++ focus') (views.1 ++ views'.1, views'.2) where
  nodeStack := h'.nodeStack.trans h.nodeStack
  contextStack := h'.contextStack.trans h.contextStack
  viewStack := h'.viewStack
  length := by rw [h'.length, h.length, Nat.add_assoc]
  focusableNodeIds := by rw [h'.focusableNodeIds, h.focusableNodeIds, record_append]
  viewNodeIds := by rw [h'.viewNodeIds, h.viewNodeIds, record_append]
  focusIdAt node := by rw [h'.focusIdAt, h.focusIdAt, lastId_append, Option.or_assoc]
  viewIdAt node := by rw [h'.viewIdAt, h.viewIdAt, lastId_append, Option.or_assoc]
  contextAt node := (h'.contextAt node).trans (h.contextAt node)
  unlabelled node hnode :=
    (h'.unlabelled node (by rw [h.length]; omega)).trans (h.unlabelled node hnode)

/-- The nodes after a change of the active one. -/
theorem updateActive_getElem? {active : ℕ} {rest : List ℕ}
    (hstack : t.nodeStack = active :: rest) (change : DispatchNode D → DispatchNode D)
    (node : ℕ) : (t.updateActive change).nodes[node]? =
      if active = node then t.nodes[node]?.map change else t.nodes[node]? := by
  rw [updateActive, hstack]
  simp only [List.head?_cons, Option.elim_some, List.getElem?_modify]
  split_ifs <;> cases t.nodes[node]? <;> rfl

/-- A setting of the active node, recorded in the maps of the tree. -/
theorem Effect.of_updateActive (hvalid : t.ActiveValid) {active : ℕ} {rest : List ℕ}
    (hstack : t.nodeStack = active :: rest) (change : DispatchNode D → DispatchNode D)
    (focusId : Option FocusId) (viewId : Option EntityId)
    (hchange : ∀ node, (change node).focusId = focusId.or node.focusId ∧
      (change node).viewId = viewId.or node.viewId ∧ (change node).context = node.context ∧
      (change node).unlabelled = node.unlabelled)
    (hnodes : t'.nodes = (t.updateActive change).nodes)
    (hstacks : t'.nodeStack = t.nodeStack ∧ t'.contextStack = t.contextStack)
    (hfocus : t'.focusableNodeIds =
      record (focusId.toList.map (·, active)) t.focusableNodeIds)
    (hview : t'.viewNodeIds = record (viewId.toList.map (·, active)) t.viewNodeIds) :
    Effect t t' 0 (focusId.toList.map (·, active))
      (viewId.toList.map (·, active), t'.viewStack) := by
  obtain ⟨node, hnode⟩ : ∃ node, t.nodes[active]? = some node :=
    ⟨_, List.getElem?_eq_getElem (hvalid active (by rw [hstack]; rfl))⟩
  have hget := updateActive_getElem? hstack change
  have hlast : ∀ {A : Type} (m : ℕ) (id : Option A),
      lastId m (id.toList.map (·, active)) = if active = m then id else none := by
    intro A m id
    cases id with
    | none => simp [lastId]
    | some id => by_cases h : active = m <;> simp [lastId, h]
  refine ⟨hstacks.1, hstacks.2, rfl, ?_, hfocus, hview, fun m => ?_, fun m => ?_, fun m => ?_,
    fun m _ => ?_⟩
  · rw [hnodes]
    simp [updateActive, hstack]
  · rw [DispatchTree.focusIdAt, hnodes, hget, hlast, DispatchTree.focusIdAt]
    split_ifs with h
    · rw [← h, hnode]
      exact (hchange node).1
    · rfl
  · rw [DispatchTree.viewIdAt, hnodes, hget, hlast, DispatchTree.viewIdAt]
    split_ifs with h
    · rw [← h, hnode]
      exact (hchange node).2.1
    · rfl
  · rw [DispatchTree.contextAt, hnodes, hget, DispatchTree.contextAt]
    split_ifs with h
    · rw [← h, hnode]
      exact (hchange node).2.2.1
    · rfl
  · rw [hnodes, hget]
    split_ifs with h
    · rw [← h, hnode]
      exact congrArg some (hchange node).2.2.2
    · rfl

theorem setFocusId_effect (hvalid : t.ActiveValid) (id : FocusId) :
    Effect t (t.setFocusId id) 0 (t.nodeStack.head?.toList.map (id, ·)) ([], t.viewStack) := by
  unfold setFocusId
  cases hstack : t.nodeStack with
  | nil => exact Effect.refl t
  | cons active rest =>
    exact .of_updateActive hvalid hstack (fun node => { node with focusId := some id })
      (some id) none (fun _ => ⟨rfl, rfl, rfl, rfl⟩) rfl ⟨rfl, rfl⟩
      record_singleton.symm record_nil.symm

theorem setViewId_effect (hvalid : t.ActiveValid) (id : EntityId) :
    Effect t (t.setViewId id) 0 [] (Prepaint.viewSetting id t.nodeStack.head? t.viewStack) := by
  unfold setViewId Prepaint.viewSetting
  split_ifs with htop
  · exact Effect.refl t
  cases hstack : t.nodeStack with
  | nil => exact Effect.refl t
  | cons active rest =>
    exact .of_updateActive hvalid hstack (fun node => { node with viewId := some id })
      none (some id) (fun _ => ⟨rfl, rfl, rfl, rfl⟩) rfl ⟨rfl, rfl⟩
      record_nil.symm record_singleton.symm

/-- The nodes after one is pushed. -/
theorem pushNode_getElem? (t : DispatchTree D) (node : ℕ) : t.pushNode.nodes[node]? =
    if node = t.nodes.length then some (.new t.nodeStack.head?) else t.nodes[node]? := by
  unfold pushNode
  split_ifs with h
  · subst h
    simp
  · rcases Nat.lt_or_gt_of_ne h with hlt | hgt
    · rw [List.getElem?_append_left hlt]
    · rw [List.getElem?_eq_none (by simp; omega), List.getElem?_eq_none (by omega)]

theorem pushNode_activeValid (t : DispatchTree D) : t.pushNode.ActiveValid := by
  intro node hnode
  obtain ⟨rfl⟩ := hnode
  simp [pushNode]

/-- What calls do inside an element, as an effect of the element. -/
theorem Effect.close (h : Effect t.pushNode t' count focus views) :
    Effect t t'.popNode (count + 1) focus
      (views.1, Prepaint.closeView t.nodes.length views.1 views.2) := by
  have hnone : t.nodes[t.nodes.length]? = none := List.getElem?_eq_none le_rfl
  have htop : t'.nodeStack = t.nodes.length :: t.nodeStack := h.nodeStack
  have hcontext := h.contextAt t.nodes.length
  have hview := h.viewIdAt t.nodes.length
  simp only [DispatchTree.contextAt, DispatchTree.viewIdAt, pushNode_getElem?, if_pos,
    Option.bind_some, DispatchNode.new, Option.or_none] at hcontext hview
  constructor
  · simp [popNode, htop]
  · simp [popNode, htop, hcontext, h.contextStack, pushNode]
  · simp [popNode, htop, hview, h.viewStack, Prepaint.closeView]
  · rw [popNode, h.length]
    simp [pushNode]
    omega
  · exact h.focusableNodeIds
  · exact h.viewNodeIds
  · intro m
    refine (h.focusIdAt m).trans ?_
    simp only [DispatchTree.focusIdAt, pushNode_getElem?]
    split_ifs with hm <;> simp_all [DispatchNode.new]
  · intro m
    refine (h.viewIdAt m).trans ?_
    simp only [DispatchTree.viewIdAt, pushNode_getElem?]
    split_ifs with hm <;> simp_all [DispatchNode.new]
  · intro m
    refine (h.contextAt m).trans ?_
    simp only [DispatchTree.contextAt, pushNode_getElem?]
    split_ifs with hm <;> simp_all [DispatchNode.new]
  · intro m hlt
    refine (h.unlabelled m (by simp [pushNode]; omega)).trans ?_
    rw [pushNode_getElem?, if_neg (by omega)]

/-- Forgetting the ids that removed nodes show. -/
theorem forget_apply {A : Type} [DecidableEq A] (label : DispatchNode D → Option A)
    (removed : List (DispatchNode D)) (register : A → Option ℕ) (id : A) :
    removed.foldl (fun ids node => (label node).elim ids fun id => Function.update ids id none)
        register id =
      if ∃ node ∈ removed, label node = some id then none else register id := by
  induction removed generalizing register with
  | nil => simp
  | cons node removed ih =>
    rw [List.foldl_cons, ih]
    simp only [List.exists_mem_cons_iff]
    cases hlabel : label node with
    | none => simp
    | some other =>
      by_cases hid : other = id
      · subst hid
        simp
      · simp [hid, Function.update_of_ne (Ne.symm hid)]

/-- The removed nodes show the ids that the settings leave on them. -/
theorem exists_removed_iff {A : Type} {label : DispatchNode D → Option A}
    {settings : List (A × ℕ)} {id : A}
    (hlabel : ∀ node, t'.nodes[node]?.bind label =
      (lastId node settings).or (t.nodes[node]?.bind label)) :
    (∃ node ∈ t'.nodes.drop t.nodes.length, label node = some id) ↔
      Left t.nodes.length settings id := by
  have hold : ∀ m, t.nodes.length ≤ m → t'.nodes[m]?.bind label = lastId m settings := by
    intro m hm
    rw [hlabel, List.getElem?_eq_none hm]
    simp
  rw [left_iff]
  constructor
  · rintro ⟨node, hmem, hid⟩
    obtain ⟨m, hm⟩ := List.mem_iff_getElem?.mp hmem
    rw [List.getElem?_drop] at hm
    refine ⟨t.nodes.length + m, by omega, ?_⟩
    rw [← hold _ (by omega), hm]
    exact hid
  · rintro ⟨m, hm, hid⟩
    rw [← hold _ hm, Option.bind_eq_some_iff] at hid
    obtain ⟨node, hnode, hid⟩ := hid
    refine ⟨node, List.mem_iff_getElem?.mpr ⟨m - t.nodes.length, ?_⟩, hid⟩
    rw [List.getElem?_drop, Nat.add_sub_cancel' hm]
    exact hnode

/-- A node is determined by its ids and the rest. -/
theorem Effect.take_nodes_eq_iff (h : Effect t t' count focus views) :
    t'.nodes.take t.nodes.length = t.nodes ↔
      (∀ node < t.nodes.length, (lastId node focus).or (t.focusIdAt node) = t.focusIdAt node) ∧
      ∀ node < t.nodes.length, (lastId node views.1).or (t.viewIdAt node) = t.viewIdAt node := by
  constructor
  · intro heq
    have hnode : ∀ node < t.nodes.length, t'.nodes[node]? = t.nodes[node]? := by
      intro node hlt
      rw [← congrArg (·[node]?) heq]
      exact (List.getElem?_take_of_lt hlt).symm
    constructor
    · intro node hlt
      rw [← h.focusIdAt, DispatchTree.focusIdAt, hnode node hlt]
      rfl
    · intro node hlt
      rw [← h.viewIdAt, DispatchTree.viewIdAt, hnode node hlt]
      rfl
  · rintro ⟨hfocus, hview⟩
    apply List.ext_getElem?
    intro m
    by_cases hlt : m < t.nodes.length
    · rw [List.getElem?_take_of_lt hlt]
      have h1 := (h.focusIdAt m).trans (hfocus m hlt)
      have h2 := (h.viewIdAt m).trans (hview m hlt)
      have h3 := h.unlabelled m hlt
      have hlength := h.length
      have hlt' : m < t'.nodes.length := by omega
      simp only [DispatchTree.focusIdAt, DispatchTree.viewIdAt, List.getElem?_eq_getElem hlt,
        List.getElem?_eq_getElem hlt', Option.bind_some, Option.map_some, Option.some.injEq,
        DispatchNode.unlabelled, DispatchNode.mk.injEq] at h1 h2 h3 ⊢
      cases hnode : t'.nodes[m]
      cases hnode' : t.nodes[m]
      simp_all
    · rw [List.getElem?_eq_none (by simp; omega), List.getElem?_eq_none (by omega)]

/-- Truncating the tree undoes an effect under exactly these conditions. -/
theorem Effect.truncate_eq_iff (h : Effect t t' count focus views) :
    t'.truncate t.nodes.length = t ↔
      views.2 = t.viewStack ∧
      Undone t.nodes.length focus t.focusIdAt t.focusableNodeIds ∧
      Undone t.nodes.length views.1 t.viewIdAt t.viewNodeIds := by
  have hfocus : ∀ id, (t'.truncate t.nodes.length).focusableNodeIds id =
      if Left t.nodes.length focus id then none else record focus t.focusableNodeIds id := by
    intro id
    rw [← h.focusableNodeIds]
    refine (forget_apply DispatchNode.focusId _ _ id).trans ?_
    exact if_congr (exists_removed_iff h.focusIdAt) rfl rfl
  have hview : ∀ id, (t'.truncate t.nodes.length).viewNodeIds id =
      if Left t.nodes.length views.1 id then none else record views.1 t.viewNodeIds id := by
    intro id
    rw [← h.viewNodeIds]
    refine (forget_apply DispatchNode.viewId _ _ id).trans ?_
    exact if_congr (exists_removed_iff h.viewIdAt) rfl rfl
  rw [undone_iff, undone_iff]
  constructor
  · intro heq
    have hnodes := h.take_nodes_eq_iff.mp (congrArg DispatchTree.nodes heq)
    have hstack : (t'.truncate t.nodes.length).viewStack = t.viewStack :=
      congrArg DispatchTree.viewStack heq
    refine ⟨h.viewStack.symm.trans hstack, ⟨hnodes.1, ?_⟩, ⟨hnodes.2, ?_⟩⟩
    · intro id
      rw [← hfocus, heq]
    · intro id
      rw [← hview, heq]
  · rintro ⟨hstack, ⟨hfocusAt, hfocusIds⟩, ⟨hviewAt, hviewIds⟩⟩
    have h1 : (t'.truncate t.nodes.length).focusableNodeIds = t.focusableNodeIds :=
      funext fun id => (hfocus id).trans (hfocusIds id)
    have h2 : (t'.truncate t.nodes.length).viewNodeIds = t.viewNodeIds :=
      funext fun id => (hview id).trans (hviewIds id)
    have h3 : (t'.truncate t.nodes.length).nodes = t.nodes :=
      h.take_nodes_eq_iff.mpr ⟨hfocusAt, hviewAt⟩
    have h4 : (t'.truncate t.nodes.length).viewStack = t.viewStack := h.viewStack.trans hstack
    have h5 : (t'.truncate t.nodes.length).nodeStack = t.nodeStack := h.nodeStack
    have h6 : (t'.truncate t.nodes.length).contextStack = t.contextStack := h.contextStack
    cases t
    cases ht : t'.truncate _
    simp_all

end DispatchTree

/-! ## The frame -/

namespace Window

/-- A window without what a prepaint that visits no cached view may change. -/
def others (w : Window D K) : Window D K :=
  { w with
    nextHitboxId := 0
    nextTooltipId := 0
    nextFrame := { w.nextFrame with
      hitboxes := []
      tooltipRequests := []
      deferredDraws := []
      dispatchTree := .new
      focus := none } }

/-- A window that differs from another by new entries in the vectors of the next frame, by the
dispatch tree and by the focus of the next frame. -/
structure Grows (w w' : Window D K) (handles : List FocusId) : Prop where
  hitboxes : w.nextFrame.hitboxes <+: w'.nextFrame.hitboxes
  tooltips : w.nextFrame.tooltipRequests <+: w'.nextFrame.tooltipRequests
  deferred : w.nextFrame.deferredDraws <+: w'.nextFrame.deferredDraws
  focus : w'.nextFrame.focus =
    if w.focus ∈ handles.map some then w.focus else w.nextFrame.focus
  others : w'.others = w.others

variable {w w' w'' : Window D K} {ids ids' : List FocusId}

theorem Grows.refl (w : Window D K) : Grows w w [] := by
  constructor <;> simp

theorem Grows.focus_eq (h : Grows w w' ids) : w'.focus = w.focus := by
  have := congrArg Window.focus h.others
  exact this

theorem Grows.trans (h : Grows w w' ids) (h' : Grows w' w'' ids') : Grows w w'' (ids ++ ids') where
  hitboxes := h.hitboxes.trans h'.hitboxes
  tooltips := h.tooltips.trans h'.tooltips
  deferred := h.deferred.trans h'.deferred
  focus := by
    rw [h'.focus, h.focus, h.focus_eq, List.map_append]
    by_cases hmem : w.focus ∈ ids'.map some
    · rw [if_pos hmem, if_pos (List.mem_append_right _ hmem)]
    · simp only [hmem, if_false, List.mem_append, or_false]
  others := h'.others.trans h.others

/-- A change of the dispatch tree only. -/
theorem Grows.updateTree (w : Window D K) (change : DispatchTree D → DispatchTree D) :
    Grows w (w.updateTree change) [] := by
  constructor <;> simp [Window.updateTree, Window.others]

theorem Grows.setFocusHandle (w : Window D K) (id : FocusId) :
    Grows w (w.setFocusHandle id) [id] where
  hitboxes := by simp [Window.setFocusHandle, Window.updateTree]
  tooltips := by simp [Window.setFocusHandle, Window.updateTree]
  deferred := by simp [Window.setFocusHandle, Window.updateTree]
  focus := by
    simp only [Window.setFocusHandle, Window.updateTree, List.map_cons, List.map_nil,
      List.mem_singleton]
    split_ifs with h
    · exact h.symm
    · rfl
  others := rfl

/-- What calls do inside an element, as a change by the element. -/
theorem Grows.close {id : Option ElementId} (h : Grows (w.enter id) w' ids) :
    Grows w (w'.leave id) ids where
  hitboxes := h.hitboxes
  tooltips := h.tooltips
  deferred := h.deferred
  focus := h.focus
  others := by
    have hstack := congrArg Window.elementIdStack h.others
    change w'.elementIdStack = id.toList ++ w.elementIdStack at hstack
    have hdrop : (w'.leave id).elementIdStack = w.elementIdStack := by
      simp [Window.leave, Window.updateTree, hstack]
    calc (w'.leave id).others
        = { w'.others with elementIdStack := (w'.leave id).elementIdStack } := rfl
      _ = { (w.enter id).others with elementIdStack := w.elementIdStack } := by
          rw [h.others, hdrop]
      _ = w.others := rfl

end Window

variable [DecidableEq K]

namespace Prepaint

/-- A prepaint that visits no cached view makes its settings. -/
theorem run_effect :
    (∀ call : Prepaint D K, call.cacheFree = true → ∀ w : Window D K,
      w.nextFrame.dispatchTree.ActiveValid →
      ∃ w', call.run w = some w' ∧ Window.Grows w w' call.handles ∧
        DispatchTree.Effect w.nextFrame.dispatchTree w'.nextFrame.dispatchTree call.created
          (call.focusSettings w.nextFrame.dispatchTree.nodeStack.head?
            w.nextFrame.dispatchTree.nodes.length)
          (call.viewSettings w.nextFrame.dispatchTree.nodeStack.head?
            w.nextFrame.dispatchTree.nodes.length w.nextFrame.dispatchTree.viewStack)) ∧
    ∀ calls : List (Prepaint D K), cacheFreeAll calls = true → ∀ w : Window D K,
      w.nextFrame.dispatchTree.ActiveValid →
      ∃ w', runAll calls w = some w' ∧ Window.Grows w w' (handlesAll calls) ∧
        DispatchTree.Effect w.nextFrame.dispatchTree w'.nextFrame.dispatchTree (createdAll calls)
          (focusSettingsAll calls w.nextFrame.dispatchTree.nodeStack.head?
            w.nextFrame.dispatchTree.nodes.length)
          (viewSettingsAll calls w.nextFrame.dispatchTree.nodeStack.head?
            w.nextFrame.dispatchTree.nodes.length w.nextFrame.dispatchTree.viewStack) := by
  apply Prepaint.induction
  · intro data _ w _
    refine ⟨_, rfl, ?_, .refl _⟩
    constructor <;> simp [Window.insertHitbox, Window.others, handles]
  · intro tooltip _ w _
    refine ⟨_, rfl, ?_, .refl _⟩
    constructor <;> simp [Window.setTooltip, Window.others, handles]
  · intro content inherited priority _ w _
    refine ⟨_, rfl, ?_, .refl _⟩
    constructor <;> simp [Window.deferDraw, Window.others, handles]
  · intro id _ w hvalid
    exact ⟨_, rfl, .setFocusHandle w id, DispatchTree.setFocusId_effect hvalid id⟩
  · intro id _ w hvalid
    exact ⟨_, rfl, .updateTree w _, DispatchTree.setViewId_effect hvalid id⟩
  · intro id children ih hfree w _
    obtain ⟨w', hrun, hgrows, heffect⟩ := ih hfree (w.enter id)
      (DispatchTree.pushNode_activeValid _)
    have hlength : (w.enter id).nextFrame.dispatchTree.nodes.length =
        w.nextFrame.dispatchTree.nodes.length + 1 := by
      simp [Window.enter, Window.updateTree, DispatchTree.pushNode]
    rw [hlength] at heffect
    exact ⟨w'.leave id, by rw [run, hrun]; rfl, hgrows.close, heffect.close⟩
  · intro entity cacheKey children _ hfree
    simp [cacheFree] at hfree
  · intro _ w _
    exact ⟨w, rfl, .refl w, .refl _⟩
  · intro call calls ih ihs hfree w hvalid
    rw [cacheFreeAll, Bool.and_eq_true] at hfree
    obtain ⟨w', hrun, hgrows, heffect⟩ := ih hfree.1 w hvalid
    obtain ⟨w'', hrun', hgrows', heffect'⟩ := ihs hfree.2 w' (heffect.activeValid hvalid)
    rw [heffect.nodeStack, heffect.length, heffect.viewStack] at heffect'
    exact ⟨w'', by rw [runAll, hrun]; exact hrun', hgrows.trans hgrows', heffect.trans heffect'⟩

end Prepaint

end Lucie.Drawing
