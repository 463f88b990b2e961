import Lucie.Window.Effect

/-!
# The ranges that cached views record

While a frame is prepainted the list of accessed states only grows, and a cached view that is
visited records a range which starts behind every state accessed before the visit. So the
visit of a cached view always changes the recorded states.
-/

set_option autoImplicit false

namespace Lucie.Drawing

variable {D K : Type}

/-! ## The open nodes -/

namespace DispatchTree

/-- The open nodes are nodes of the tree. -/
def Valid (t : DispatchTree D) : Prop := ∀ node ∈ t.nodeStack, node < t.nodes.length

theorem Valid.activeValid {t : DispatchTree D} (h : t.Valid) : t.ActiveValid := by
  intro node hnode
  exact h node (List.mem_of_mem_head? hnode)

theorem Valid.pushNode {t : DispatchTree D} (h : t.Valid) : t.pushNode.Valid := by
  intro node hnode
  simp only [DispatchTree.pushNode, List.length_append, List.length_singleton] at hnode ⊢
  obtain rfl | hnode := List.mem_cons.mp hnode
  · omega
  · have := h node hnode
    omega

theorem Valid.popNode {t : DispatchTree D} (h : t.Valid) : t.popNode.Valid :=
  fun node hnode => h node (List.mem_of_mem_tail hnode)

theorem Valid.updateActive {t : DispatchTree D} (h : t.Valid)
    (change : DispatchNode D → DispatchNode D) : (t.updateActive change).Valid := by
  intro node hnode
  have hlength : (t.updateActive change).nodes.length = t.nodes.length := by
    unfold DispatchTree.updateActive
    cases t.nodeStack.head? <;> simp
  rw [hlength]
  exact h node hnode

theorem Valid.setFocusId {t : DispatchTree D} (h : t.Valid) (id : FocusId) :
    (t.setFocusId id).Valid := by
  unfold DispatchTree.setFocusId
  split
  · exact h
  · exact h.updateActive _

theorem Valid.setViewId {t : DispatchTree D} (h : t.Valid) (id : EntityId) :
    (t.setViewId id).Valid := by
  unfold DispatchTree.setViewId
  split_ifs
  · exact h
  · split
    · exact h
    · exact h.updateActive _

theorem Valid.elim {A : Type} {t : DispatchTree D} (h : t.Valid) {change : A → DispatchTree D}
    (hchange : ∀ a, (change a).Valid) (value : Option A) : (value.elim t change).Valid := by
  cases value with
  | none => exact h
  | some a => exact hchange a

theorem Valid.moveNode {t : DispatchTree D} (h : t.Valid) (source : DispatchNode D) :
    (t.moveNode source).Valid := by
  have hset : ∀ context, (t.pushNode.setKeyContext context).Valid :=
    fun _ => h.pushNode.updateActive _
  have hcontext := h.pushNode.elim hset source.context
  have hfocus := hcontext.elim (fun id => hcontext.setFocusId id) source.focusId
  have hview := hfocus.elim (fun id => hfocus.setViewId id) source.viewId
  exact hview.updateActive _

theorem Valid.closeTo {t : DispatchTree D} (h : t.Valid) (parent : Option ℕ) (stack : List ℕ) :
    (t.closeTo parent stack).1.Valid := by
  induction stack generalizing t with
  | nil => exact h
  | cons top rest ih =>
    unfold DispatchTree.closeTo
    split_ifs
    · exact h
    · exact ih h.popNode

theorem Valid.reuseNodes {t : DispatchTree D} (h : t.Valid) (stack : List ℕ) (id : ℕ)
    (nodes : List (DispatchNode D)) : (t.reuseNodes stack id nodes).Valid := by
  induction nodes generalizing t stack id with
  | nil =>
    unfold DispatchTree.reuseNodes
    induction stack generalizing t with
    | nil => exact h
    | cons _ rest ih => exact ih h.popNode
  | cons node nodes ih => exact ih ((h.closeTo node.parent stack).moveNode node) _ _

end DispatchTree

/-! ## The recorded states -/

/-- Where the range that a view has recorded starts in the list of accessed states. -/
def AnyViewState.accessedStart (state : AnyViewState K) : ℕ :=
  state.prepaintRange.start.accessedElementStatesIndex

namespace Window

/-- The number of states accessed so far. -/
def accessedCount (w : Window D K) : ℕ := w.nextFrame.accessedElementStates.length

/-- What any prepaint does to the recorded states. -/
structure Advances (w w' : Window D K) : Prop where
  count : w.accessedCount ≤ w'.accessedCount
  states : ∀ id state, w'.nextFrame.elementStates id = some state →
    w.nextFrame.elementStates id = some state ∨
      w.accessedCount < state.accessedStart ∧ state.accessedStart ≤ w'.accessedCount
  kept : ∀ id, (w.nextFrame.elementStates id).isSome → (w'.nextFrame.elementStates id).isSome
  valid : w.nextFrame.dispatchTree.Valid → w'.nextFrame.dispatchTree.Valid

variable {w w' w'' : Window D K}

/-- A prepaint that does not access states. -/
theorem Advances.of_eq
    (haccessed : w'.nextFrame.accessedElementStates = w.nextFrame.accessedElementStates)
    (hstates : w'.nextFrame.elementStates = w.nextFrame.elementStates)
    (hvalid : w.nextFrame.dispatchTree.Valid → w'.nextFrame.dispatchTree.Valid) :
    Advances w w' where
  count := by rw [accessedCount, accessedCount, haccessed]
  states id state h := .inl (by rw [← hstates, h])
  kept id h := by rw [hstates, h]
  valid := hvalid

theorem Advances.trans (h : Advances w w') (h' : Advances w' w'') : Advances w w'' where
  count := h.count.trans h'.count
  states id state hstate := by
    have hle := h.count
    have hle' := h'.count
    obtain hold | hnew := h'.states id state hstate
    · exact (h.states id state hold).imp_right fun hnew => by omega
    · exact .inr (by omega)
  kept id hid := h'.kept id (h.kept id hid)
  valid hvalid := h'.valid (h.valid hvalid)

theorem reusePrepaint_advances {range : Span PrepaintStateIndex}
    (h : w.reusePrepaint range = some w') : Advances w w' := by
  simp only [reusePrepaint, Option.bind_eq_bind, Option.bind_eq_some_iff, Option.some.injEq] at h
  obtain ⟨hitboxes, -, tooltips, -, accessed, -, deferred, -, rfl⟩ := h
  constructor
  · simp [accessedCount]
  · intro id state hstate
    exact .inl hstate
  · intro id hid
    exact hid
  · intro hvalid
    exact hvalid.reuseNodes _ _ _

variable [DecidableEq K]

/-- The visit of a cached view between the access of its state and the end. -/
theorem prepaintCached_advances {entity : EntityId} {cacheKey : K}
    {render : Window D K → Option (Window D K)}
    (hrender : ∀ w w' : Window D K, render w = some w' → Advances w w')
    {found : Option (AnyViewState K)} {held : Bool} {state : AnyViewState K}
    (h : prepaintCached entity cacheKey render found w = some (held, state, w')) :
    Advances w w' ∧ state.accessedStart = w.accessedCount := by
  unfold prepaintCached at h
  cases hreusable : w.reusable entity cacheKey found with
  | some old =>
    simp only [hreusable, Option.bind_eq_bind, Option.bind_eq_some_iff, Option.some.injEq,
      Prod.mk.injEq] at h
    obtain ⟨reused, hreuse, -, rfl, rfl⟩ := h
    exact ⟨reusePrepaint_advances hreuse, rfl⟩
  | none =>
    simp only [hreusable, Option.bind_eq_bind, Option.bind_eq_some_iff, Option.some.injEq,
      Prod.mk.injEq] at h
    obtain ⟨rendered, hrendered, -, rfl, rfl⟩ := h
    have hadv := hrender _ _ hrendered
    exact ⟨⟨hadv.count, hadv.states, hadv.kept, hadv.valid⟩, rfl⟩

/-- The visit of a cached view records a range that starts behind all states accessed so
far. -/
theorem prepaintView_advances {entity : EntityId} {cacheKey : K}
    {render : Window D K → Option (Window D K)}
    (hrender : ∀ w w' : Window D K, render w = some w' → Advances w w')
    (h : w.prepaintView entity cacheKey render = some w') :
    Advances w w' ∧ ∃ id state, w'.nextFrame.elementStates id = some state ∧
      w.accessedCount < state.accessedStart := by
  simp only [prepaintView, withElementState, Option.map_map, Option.map_eq_some_iff] at h
  obtain ⟨⟨held, state, w1⟩, hcached, rfl⟩ := h
  obtain ⟨hadv, hstart⟩ := prepaintCached_advances hrender hcached
  have hcount : ((w.setViewId entity).takeElementState
      (w.setViewId entity).elementIdStack).accessedCount = w.accessedCount + 1 := by
    simp [accessedCount, takeElementState, setViewId, updateTree]
  have hle := hadv.count
  rw [hcount] at hstart hle
  refine ⟨⟨?_, ?_, ?_, ?_⟩, (w.setViewId entity).elementIdStack, state, ?_, by omega⟩
  · change w.accessedCount ≤ w1.accessedCount
    omega
  · intro id other hother
    by_cases hid : id = (w.setViewId entity).elementIdStack
    · subst hid
      simp only [Function.comp_apply, putElementState, Function.update_self,
        Option.some.injEq] at hother
      subst hother
      exact .inr ⟨by omega, by change _ ≤ w1.accessedCount; omega⟩
    · simp only [Function.comp_apply, putElementState, Function.update_of_ne hid] at hother
      obtain hold | hnew := hadv.states id other hother
      · simp only [takeElementState, Function.update_of_ne hid] at hold
        exact .inl hold
      · rw [hcount] at hnew
        exact .inr ⟨by omega, by change _ ≤ w1.accessedCount; omega⟩
  · intro id hid
    by_cases hid' : id = (w.setViewId entity).elementIdStack
    · subst hid'
      simp [putElementState]
    · simp only [Function.comp_apply, putElementState, Function.update_of_ne hid']
      apply hadv.kept
      simp only [takeElementState, Function.update_of_ne hid']
      exact hid
  · intro hvalid
    exact hadv.valid (hvalid.setViewId entity)
  · simp [putElementState]

end Window

namespace Prepaint

variable [DecidableEq K]

/-- What any prepaint does to the recorded states. -/
theorem run_advances :
    (∀ (call : Prepaint D K) (w w' : Window D K), call.run w = some w' → w.Advances w') ∧
    ∀ (calls : List (Prepaint D K)) (w w' : Window D K),
      runAll calls w = some w' → w.Advances w' := by
  apply Prepaint.induction
  · intro data w w' h
    obtain rfl := Option.some.inj h
    exact .of_eq rfl rfl fun hvalid => hvalid
  · intro tooltip w w' h
    obtain rfl := Option.some.inj h
    exact .of_eq rfl rfl fun hvalid => hvalid
  · intro content inherited priority w w' h
    obtain rfl := Option.some.inj h
    exact .of_eq rfl rfl fun hvalid => hvalid
  · intro id w w' h
    obtain rfl := Option.some.inj h
    exact .of_eq rfl rfl fun hvalid => hvalid.setFocusId id
  · intro id w w' h
    obtain rfl := Option.some.inj h
    exact .of_eq rfl rfl fun hvalid => hvalid.setViewId id
  · intro id children ih w w' h
    obtain ⟨w1, h1, rfl⟩ := Option.map_eq_some_iff.mp h
    have henter : w.Advances (w.enter id) := .of_eq rfl rfl fun hvalid => hvalid.pushNode
    have hleave : w1.Advances (w1.leave id) := .of_eq rfl rfl fun hvalid => hvalid.popNode
    exact (henter.trans (ih _ _ h1)).trans hleave
  · intro entity cacheKey children ih w w' h
    obtain ⟨w1, h1, rfl⟩ := Option.map_eq_some_iff.mp h
    have henter : w.Advances (w.enter (some (.view entity))) :=
      .of_eq rfl rfl fun hvalid => hvalid.pushNode
    have hleave : w1.Advances (w1.leave (some (.view entity))) :=
      .of_eq rfl rfl fun hvalid => hvalid.popNode
    exact (henter.trans (Window.prepaintView_advances ih h1).1).trans hleave
  · intro w w' h
    obtain rfl := Option.some.inj h
    exact .of_eq rfl rfl fun hvalid => hvalid
  · intro call calls ih ihs w w' h
    obtain ⟨w1, h1, h2⟩ := Option.bind_eq_some_iff.mp h
    exact (ih _ _ h1).trans (ihs _ _ h2)

/-- A prepaint that visits a cached view records a range that starts behind all states
accessed before. -/
theorem run_records :
    (∀ (call : Prepaint D K), call.cacheFree = false → ∀ w w' : Window D K,
      call.run w = some w' → ∃ id state, w'.nextFrame.elementStates id = some state ∧
        w.accessedCount < state.accessedStart) ∧
    ∀ (calls : List (Prepaint D K)), cacheFreeAll calls = false → ∀ w w' : Window D K,
      runAll calls w = some w' → ∃ id state, w'.nextFrame.elementStates id = some state ∧
        w.accessedCount < state.accessedStart := by
  apply Prepaint.induction
  · intro data h
    simp [cacheFree] at h
  · intro tooltip h
    simp [cacheFree] at h
  · intro content inherited priority h
    simp [cacheFree] at h
  · intro id h
    simp [cacheFree] at h
  · intro id h
    simp [cacheFree] at h
  · intro id children ih hfree w w' h
    obtain ⟨w1, h1, rfl⟩ := Option.map_eq_some_iff.mp h
    exact ih hfree (w.enter id) w1 h1
  · intro entity cacheKey children ih _ w w' h
    obtain ⟨w1, h1, rfl⟩ := Option.map_eq_some_iff.mp h
    exact (Window.prepaintView_advances (run_advances.2 children) h1).2
  · intro h
    simp [cacheFreeAll] at h
  · intro call calls ih ihs hfree w w' h
    obtain ⟨w1, h1, h2⟩ := Option.bind_eq_some_iff.mp h
    have hle := (run_advances.1 call w w1 h1).count
    cases hcall : call.cacheFree with
    | false =>
      obtain ⟨id, state, hstate, hlt⟩ := ih hcall w w1 h1
      have hadv := run_advances.2 calls w1 w' h2
      obtain ⟨state', hstate'⟩ := Option.isSome_iff_exists.mp (hadv.kept id (by simp [hstate]))
      refine ⟨id, state', hstate', ?_⟩
      obtain hold | hnew := hadv.states id state' hstate'
      · rw [hstate, Option.some.injEq] at hold
        subst hold
        exact hlt
      · omega
    | true =>
      obtain ⟨id, state, hstate, hlt⟩ := ihs (by simpa [cacheFreeAll, hcall] using hfree) w1 w' h2
      exact ⟨id, state, hstate, by omega⟩

end Prepaint

namespace Window

/-- A window in which no failed attempt has left its traces: the open nodes are nodes of the
tree, and no recorded range starts behind the list of accessed states. -/
structure WellFormed (w : Window D K) : Prop where
  valid : w.nextFrame.dispatchTree.Valid
  recorded : ∀ id state, w.nextFrame.elementStates id = some state →
    state.accessedStart ≤ w.accessedCount

/-- A window is well formed when it begins to draw a frame. -/
theorem wellFormed_of_new {w : Window D K} (h : w.nextFrame = .new) : w.WellFormed where
  valid := by simp [h, Frame.new, DispatchTree.new, DispatchTree.Valid]
  recorded := by simp [h, Frame.new]

/-- Every prepaint keeps a window well formed. -/
theorem WellFormed.runAll [DecidableEq K] {w w' : Window D K} (h : w.WellFormed)
    {calls : List (Prepaint D K)} (hrun : Prepaint.runAll calls w = some w') : w'.WellFormed := by
  have hadv := Prepaint.run_advances.2 calls w w' hrun
  refine ⟨hadv.valid h.valid, ?_⟩
  intro id state hstate
  obtain hold | hnew := hadv.states id state hstate
  · exact (h.recorded id state hold).trans hadv.count
  · exact hnew.2

end Window

end Lucie.Drawing
