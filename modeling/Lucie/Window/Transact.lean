import Lucie.Window.Recorded

/-!
# Discarding an attempt

A failed attempt is followed by another prepaint. The frame is then the one that this
prepaint alone gives, whatever it does, exactly if the attempt leaves no trace: `transact`
truncates the vectors of the next frame, but neither puts back the focus of the frame and
the states of cached views, nor the ids of the dispatch tree beyond those that it removes.
-/

set_option autoImplicit false

namespace Lucie.Drawing

open Foundation.Register

variable {D K : Type}

/-- A frame up to the fresh ids of its hitboxes and tooltip requests. -/
def Frame.eraseIds (f : Frame D K) : Frame D K :=
  { f with
    hitboxes := f.hitboxes.map fun hitbox => { hitbox with id := 0 }
    tooltipRequests := f.tooltipRequests.map (Option.map fun request => { request with id := 0 }) }

namespace Window

/-- A window up to the fresh ids in its next frame. -/
def eraseIds (w : Window D K) : Window D K :=
  { w with nextHitboxId := 0, nextTooltipId := 0, nextFrame := w.nextFrame.eraseIds }

@[simp] theorem eraseIds_prepaintIndex (w : Window D K) :
    w.eraseIds.prepaintIndex = w.prepaintIndex := by
  simp [eraseIds, Frame.eraseIds, prepaintIndex]

@[simp] theorem eraseIds_eraseIds (w : Window D K) : w.eraseIds.eraseIds = w.eraseIds := by
  simp only [eraseIds, Frame.eraseIds, List.map_map, Option.map_comp_map]
  rfl

/-- A function whose result, up to fresh ids, depends on the window up to fresh ids. -/
def Blind (f : Window D K → Option (Window D K)) : Prop :=
  ∀ w, (f w).map eraseIds = (f w.eraseIds).map eraseIds

variable {f g : Window D K → Option (Window D K)}

theorem Blind.congr (hf : Blind f) {w w' : Window D K} (h : w.eraseIds = w'.eraseIds) :
    (f w).map eraseIds = (f w').map eraseIds := by
  rw [hf w, h, ← hf w']

/-- A change of the window that has nothing to do with fresh ids. -/
theorem Blind.of_commute {change : Window D K → Window D K}
    (h : ∀ w, (change w).eraseIds = change w.eraseIds) : Blind fun w => some (change w) := by
  intro w
  rw [Option.map_some, Option.map_some, h, h, eraseIds_eraseIds]

/-- The function panics on both windows or on none. -/
theorem Blind.cases (hf : Blind f) (w : Window D K) :
    (f w = none ∧ f w.eraseIds = none) ∨
      ∃ w' w'', f w = some w' ∧ f w.eraseIds = some w'' ∧ w''.eraseIds = w'.eraseIds := by
  have h := hf w
  cases hw : f w with
  | none =>
    rw [hw, Option.map_none] at h
    exact .inl ⟨rfl, Option.map_eq_none_iff.mp h.symm⟩
  | some w' =>
    rw [hw, Option.map_some] at h
    obtain ⟨w'', hw'', heq⟩ := Option.map_eq_some_iff.mp h.symm
    exact .inr ⟨w', w'', rfl, hw'', heq⟩

theorem Blind.bind (hf : Blind f) (hg : Blind g) : Blind fun w => (f w).bind g := by
  intro w
  change ((f w).bind g).map eraseIds = ((f w.eraseIds).bind g).map eraseIds
  obtain ⟨hnone, hnone'⟩ | ⟨w', w'', hsome, hsome', heq⟩ := hf.cases w
  · rw [hnone, hnone']
  · rw [hsome, hsome']
    exact hg.congr heq.symm

/-- What happens inside an element. -/
theorem Blind.nested (id : Option ElementId) (hf : Blind f) :
    Blind fun w => (f (w.enter id)).map (·.leave id) := by
  have henter : Blind fun w : Window D K => some (w.enter id) := .of_commute fun _ => rfl
  have hleave : Blind fun w : Window D K => some (w.leave id) := .of_commute fun _ => rfl
  have h := henter.bind (hf.bind hleave)
  simpa only [Option.bind_some, Option.map_eq_bind, Function.comp_def] using h

theorem reusePrepaint_blind (range : Span PrepaintStateIndex) :
    Blind fun w : Window D K => w.reusePrepaint range := by
  intro w
  simp only [reusePrepaint, eraseIds, Frame.eraseIds]
  cases slice w.renderedFrame.hitboxes _ _ <;>
    cases slice w.renderedFrame.tooltipRequests _ _ <;>
    cases slice w.renderedFrame.accessedElementStates _ _ <;>
    cases slice w.renderedFrame.deferredDraws _ _ <;>
    simp [eraseIds, Frame.eraseIds, Function.comp_def]
  rfl

variable [DecidableEq K]

/-- The cached part of a view, with what it returns besides the window. -/
theorem prepaintCached_blind {entity : EntityId} {cacheKey : K}
    {render : Window D K → Option (Window D K)} (hrender : Blind render)
    (state : Option (AnyViewState K)) (w : Window D K) :
    (prepaintCached entity cacheKey render state w).map (fun r => (r.1, r.2.1, r.2.2.eraseIds)) =
      (prepaintCached entity cacheKey render state w.eraseIds).map
        (fun r => (r.1, r.2.1, r.2.2.eraseIds)) := by
  have hreusable : w.eraseIds.reusable entity cacheKey state = w.reusable entity cacheKey state :=
    rfl
  unfold prepaintCached
  simp only [hreusable, eraseIds_prepaintIndex]
  cases w.reusable entity cacheKey state with
  | some state =>
    obtain ⟨hnone, hnone'⟩ | ⟨reused, reused', hsome, hsome', heq⟩ :=
      (reusePrepaint_blind state.prepaintRange).cases w
    · simp [hnone, hnone']
    · simp only [hsome, hsome', bind, Option.bind_some, Option.map_some, heq]
      rw [← eraseIds_prepaintIndex reused', heq, eraseIds_prepaintIndex]
  | none =>
    obtain ⟨hnone, hnone'⟩ | ⟨rendered, rendered', hsome, hsome', heq⟩ :=
      hrender.cases { w with refreshing := true }
    · change render { w.eraseIds with refreshing := true } = none at hnone'
      simp [hnone, hnone']
    · change render { w.eraseIds with refreshing := true } = some rendered' at hsome'
      have hrefresh : ({ rendered with refreshing := w.refreshing } : Window D K).eraseIds =
          ({ rendered' with refreshing := w.eraseIds.refreshing } : Window D K).eraseIds := by
        change ({ rendered.eraseIds with refreshing := w.refreshing } : Window D K) =
          { rendered'.eraseIds with refreshing := w.refreshing }
        rw [heq]
      simp only [hsome, hsome', bind, Option.bind_some, Option.map_some, hrefresh]
      rw [← eraseIds_prepaintIndex rendered', heq, eraseIds_prepaintIndex]

theorem prepaintView_blind {entity : EntityId} {cacheKey : K}
    {render : Window D K → Option (Window D K)} (hrender : Blind render) :
    Blind fun w => w.prepaintView entity cacheKey render := by
  intro w
  let id := w.elementIdStack
  let finish (r : Bool × AnyViewState K × Window D K) : Window D K :=
    { r.2.2.putElementState id r.2.1 with held := Function.update r.2.2.held id r.1 }
  have hcached := @prepaintCached_blind _ _ _ entity cacheKey _ hrender
    ((w.setViewId entity).elementState id)
  have h := congrArg (Option.map finish) (hcached ((w.setViewId entity).takeElementState id))
  rw [Option.map_map, Option.map_map] at h
  simp only [prepaintView, withElementState, Option.map_map]
  exact h

end Window

namespace Prepaint

variable [DecidableEq K]

/-- Whatever a prepaint does, it does not look at fresh ids. -/
theorem run_blind :
    (∀ call : Prepaint D K, Window.Blind call.run) ∧
    ∀ calls : List (Prepaint D K), Window.Blind (runAll calls) := by
  apply Prepaint.induction
  · intro data w
    simp only [run, Option.map_some, Window.insertHitbox, Window.eraseIds, Frame.eraseIds,
      List.map_append, List.map_map, Option.map_comp_map]
    rfl
  · intro tooltip w
    simp only [run, Option.map_some, Window.setTooltip, Window.eraseIds, Frame.eraseIds,
      List.map_append, List.map_map, Option.map_comp_map]
    rfl
  · intro content inherited priority
    exact .of_commute fun w => rfl
  · intro id
    exact .of_commute fun w => rfl
  · intro id
    exact .of_commute fun w => rfl
  · intro id children ih
    exact .nested id ih
  · intro entity cacheKey children ih
    exact .nested _ (Window.prepaintView_blind ih)
  · exact .of_commute fun w => rfl
  · intro call calls ih ihs
    have := ih.bind ihs
    exact this

/-- A closure that makes the calls and then fails. -/
def attempt (calls : List (Prepaint D K)) (w : Window D K) :
    Option (Except Unit Unit × Window D K) :=
  (runAll calls w).map fun w => (.error (), w)

end Prepaint

/-- The attempt leaves no trace on the window once it is rolled back: it visits no cached
view, it sets the focused handle only if the frame has this focus already, each focus id that
it sets is new to the frame and left on a node that it pushed or known for just the node on
which it is set last, and it sets only view ids that are new to the frame, at most one on each
node that it pushes and none on the node around it. -/
structure Traceless (w : Window D K) (calls : List (Prepaint D K)) : Prop where
  cacheFree : Prepaint.cacheFreeAll calls = true
  focus : ∀ id ∈ Prepaint.handlesAll calls, w.focus = some id → w.nextFrame.focus = some id
  focusIds : Undone w.nextFrame.dispatchTree.nodes.length
    (Prepaint.focusSettingsAll calls w.nextFrame.dispatchTree.nodeStack.head?
      w.nextFrame.dispatchTree.nodes.length)
    w.nextFrame.dispatchTree.focusIdAt w.nextFrame.dispatchTree.focusableNodeIds
  viewNodes : ((Prepaint.viewSettingsAll calls w.nextFrame.dispatchTree.nodeStack.head?
    w.nextFrame.dispatchTree.nodes.length w.nextFrame.dispatchTree.viewStack).1.map
      Prod.snd).Nodup
  viewIds : ∀ setting ∈ (Prepaint.viewSettingsAll calls w.nextFrame.dispatchTree.nodeStack.head?
    w.nextFrame.dispatchTree.nodes.length w.nextFrame.dispatchTree.viewStack).1,
    w.nextFrame.dispatchTree.nodes.length ≤ setting.2 ∧
      w.nextFrame.dispatchTree.viewNodeIds setting.1 = none

namespace Window

variable {w w1 : Window D K} {ids : List FocusId}

/-- What rolling back leaves of an attempt that visits no cached view. -/
theorem Grows.rollback (h : Grows w w1 ids) :
    (w1.rollback w.prepaintIndex).eraseIds = { w.eraseIds with
      nextFrame := { w.nextFrame.eraseIds with
        focus := w1.nextFrame.focus
        dispatchTree :=
          w1.nextFrame.dispatchTree.truncate w.nextFrame.dispatchTree.nodes.length } } := by
  have hothers := h.others
  simp only [Window.others, Window.mk.injEq, Frame.mk.injEq] at hothers
  have h1 := List.prefix_iff_eq_take.mp h.hitboxes
  have h2 := List.prefix_iff_eq_take.mp h.tooltips
  have h3 := List.prefix_iff_eq_take.mp h.deferred
  simp only [Window.rollback, prepaintIndex, eraseIds, Frame.eraseIds, ← h1, ← h2, ← h3,
    Window.mk.injEq, Frame.mk.injEq]
  simp [hothers]

variable {w' : Window D K} {f : List (Prepaint D K)}

/-- The rest of `Traceless` for an attempt that visits no cached view. -/
theorem traceless_iff (hvalid : w.nextFrame.dispatchTree.ActiveValid)
    (hfree : Prepaint.cacheFreeAll f = true) : Traceless w f ↔
    (∀ id ∈ Prepaint.handlesAll f, w.focus = some id → w.nextFrame.focus = some id) ∧
    (Prepaint.viewSettingsAll f w.nextFrame.dispatchTree.nodeStack.head?
      w.nextFrame.dispatchTree.nodes.length w.nextFrame.dispatchTree.viewStack).2 =
        w.nextFrame.dispatchTree.viewStack ∧
    Undone w.nextFrame.dispatchTree.nodes.length
      (Prepaint.focusSettingsAll f w.nextFrame.dispatchTree.nodeStack.head?
        w.nextFrame.dispatchTree.nodes.length)
      w.nextFrame.dispatchTree.focusIdAt w.nextFrame.dispatchTree.focusableNodeIds ∧
    Undone w.nextFrame.dispatchTree.nodes.length
      (Prepaint.viewSettingsAll f w.nextFrame.dispatchTree.nodeStack.head?
        w.nextFrame.dispatchTree.nodes.length w.nextFrame.dispatchTree.viewStack).1
      w.nextFrame.dispatchTree.viewIdAt w.nextFrame.dispatchTree.viewNodeIds := by
  constructor
  · intro h
    have hnew := fun setting hmem => (h.viewIds setting hmem).1
    refine ⟨h.focus, (viewStack_eq_iff f hvalid).mpr ⟨h.viewNodes, hnew⟩, h.focusIds, ?_⟩
    rw [undone_iff_of_nodup h.viewNodes hnew]
    intro setting hmem
    exact (h.viewIds setting hmem).2
  · rintro ⟨hfocus, hstack, hfocusIds, hviewIds⟩
    obtain ⟨hnodup, hnew⟩ := (viewStack_eq_iff f hvalid).mp hstack
    rw [undone_iff_of_nodup hnodup hnew] at hviewIds
    exact ⟨hfree, hfocus, hfocusIds, hnodup, fun setting hmem =>
      ⟨hnew setting hmem, hviewIds setting hmem⟩⟩

/-- The focus of the frame after the attempt. -/
theorem Grows.focus_eq_iff (h : Grows w w1 ids) : w1.nextFrame.focus = w.nextFrame.focus ↔
    ∀ id ∈ ids, w.focus = some id → w.nextFrame.focus = some id := by
  rw [h.focus]
  constructor
  · intro heq id hmem hid
    rw [if_pos (by rw [hid]; exact List.mem_map_of_mem hmem)] at heq
    rw [← heq, hid]
  · intro hids
    split_ifs with hmem
    · obtain ⟨id, hid, heq⟩ := List.mem_map.mp hmem
      rw [← heq, hids id hid heq.symm]
    · rfl

/-- A failed attempt followed by any prepaint leaves, up to fresh ids, the frame that this
prepaint alone leaves, exactly if the attempt is traceless. -/
theorem transact_restores_iff [DecidableEq K] (hw : w.WellFormed)
    (h : w.transact (Prepaint.attempt f) = some (.error (), w')) :
    (∀ g : List (Prepaint D K), (Prepaint.runAll g w').map (·.nextFrame.eraseIds) =
      (Prepaint.runAll g w).map (·.nextFrame.eraseIds)) ↔ Traceless w f := by
  obtain ⟨w1, hrun, rfl⟩ : ∃ w1, Prepaint.runAll f w = some w1 ∧
      w1.rollback w.prepaintIndex = w' := by
    simp only [transact, Prepaint.attempt, Option.bind_eq_bind, Option.bind_eq_some_iff,
      Option.map_eq_some_iff] at h
    obtain ⟨-, ⟨w1, hrun, rfl⟩, h⟩ := h
    exact ⟨w1, hrun, by simpa using h⟩
  cases hfree : Prepaint.cacheFreeAll f with
  | false =>
    refine iff_of_false ?_ fun htraceless => by simp [htraceless.cacheFree] at hfree
    intro hall
    obtain ⟨id, state, hstate, hlt⟩ := Prepaint.run_records.2 f hfree w w1 hrun
    have hframe := Option.some.inj (hall [])
    have hold : w.nextFrame.elementStates id = some state := by
      rw [← hstate]
      exact (congrFun (congrArg Frame.elementStates hframe) id).symm
    have := hw.recorded id state hold
    omega
  | true =>
    obtain ⟨w2, hrun', hgrows, heffect⟩ := Prepaint.run_effect.2 f hfree w hw.valid.activeValid
    obtain rfl : w1 = w2 := Option.some.inj (hrun.symm.trans hrun')
    rw [traceless_iff hw.valid.activeValid hfree, ← hgrows.focus_eq_iff,
      ← heffect.truncate_eq_iff]
    constructor
    · intro hall
      have hframe := Option.some.inj (hall [])
      have hfocus := congrArg Frame.focus hframe
      have htree := congrArg Frame.dispatchTree hframe
      exact ⟨hfocus, htree⟩
    · rintro ⟨hfocus, htree⟩ g
      have hsame : (w1.rollback w.prepaintIndex).eraseIds = w.eraseIds := by
        rw [hgrows.rollback, hfocus, htree]
        rfl
      have hblind := (Prepaint.run_blind.2 g).congr hsame
      have := congrArg (Option.map fun w : Window D K => w.nextFrame) hblind
      simpa only [Option.map_map, Function.comp_def, eraseIds] using this

/-- A window before its first frame. -/
def new : Window D K := ⟨.new, .new, none, [], 0, 0, ∅, false, fun _ => false⟩

/-- A new element with a hitbox, a focus handle and a view id. -/
def newElement : List (Prepaint ℕ ℕ) :=
  [.element none [.insertHitbox 3, .setFocusHandle 1, .setViewId ⟨1, 1⟩]]

theorem transact_restores_iff_newElement :
    ∃ w', new.transact (Prepaint.attempt newElement) = some (.error (), w') ∧
    ∀ g, (Prepaint.runAll g w').map (·.nextFrame.eraseIds) =
      (Prepaint.runAll g new).map (·.nextFrame.eraseIds) := by
  have h : new.transact (Prepaint.attempt newElement) = some (.error (), _) := rfl
  refine ⟨_, h, (transact_restores_iff (wellFormed_of_new rfl) h).mpr ?_⟩
  exact {
    cacheFree := rfl
    focus := by simp [new]
    focusIds := by decide
    viewNodes := by decide
    viewIds := by decide }

/-- A window whose rendered frame is a cached view with one tooltip request. -/
def withTooltip : Window ℕ ℕ :=
  { new with renderedFrame := { (Frame.new : Frame ℕ ℕ) with
      tooltipRequests := [some ⟨0, 5⟩]
      dispatchTree := DispatchTree.new.pushNode.popNode
      accessedElementStates := [[.view ⟨1, 1⟩]]
      elementStates := fun id => if id = [.view ⟨1, 1⟩] then
        some ⟨⟨⟨0, 0, 0, 1, 1⟩, ⟨0, 1, 0, 1, 1⟩⟩, ⟨.zero, .zero⟩, 0⟩ else none } }

/-- An attempt that reuses the view takes the tooltip request away from the prepaint after
it. -/
theorem not_restores_reusedView :
    ∃ w', withTooltip.transact (Prepaint.attempt [.cachedView ⟨1, 1⟩ 0 []]) =
      some (.error (), w') ∧
    (Prepaint.runAll [.cachedView ⟨1, 1⟩ 0 []] withTooltip).map (·.nextFrame.tooltipRequests) =
      some [some ⟨0, 5⟩] ∧
    (Prepaint.runAll [.cachedView ⟨1, 1⟩ 0 []] w').map (·.nextFrame.tooltipRequests) =
      some [none] := by
  have h : withTooltip.transact (Prepaint.attempt [.cachedView ⟨1, 1⟩ 0 []]) =
    some (.error (), _) := rfl
  exact ⟨_, h, rfl, rfl⟩

end Window

end Lucie.Drawing
