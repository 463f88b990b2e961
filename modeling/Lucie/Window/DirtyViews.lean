import Mathlib.Data.Finset.Insert
import Lucie.Window.Session

/-!
# Dirty views

A view that was notified is marked dirty with the views around it. The walk starts from the node
that was last recorded for the view, and it ends at the first view that is dirty already.
-/

set_option autoImplicit false

namespace Lucie.Drawing.DispatchTree

open Foundation

variable {D : Type}

/-! ## Marking -/

/-- The views from a node up to a root; `none` is a lack of fuel or the panic of a missing node. -/
def viewLoop (t : DispatchTree D) : ℕ → Option ℕ → Option (List EntityId)
  | _, none => some []
  | 0, some _ => none
  | fuel + 1, some id =>
    match t.nodes[id]? with
    | none => none
    | some node => (t.viewLoop fuel node.parent).map (node.viewId.toList ++ ·)

/-- `DispatchTree::view_path_reversed`. -/
def viewPathReversed (t : DispatchTree D) (fuel : ℕ) (view : EntityId) : Option (List EntityId) :=
  t.viewLoop fuel (t.viewNodeIds view)

/-- The loop of `Window::mark_view_dirty` over the views of the path. -/
def markLoop : List EntityId → Finset EntityId → Finset EntityId
  | [], dirty => dirty
  | view :: path, dirty => if view ∈ dirty then dirty else markLoop path (insert view dirty)

/-- `Window::mark_view_dirty`. -/
def markViewDirty (t : DispatchTree D) (fuel : ℕ) (view : EntityId) (dirty : Finset EntityId) :
    Option (Finset EntityId) :=
  (t.viewPathReversed fuel view).map fun path => markLoop path dirty

/-- `Window::invalidate_entities`, for the views in the order in which the set drains. -/
def invalidateEntities (t : DispatchTree D) (fuel : ℕ) :
    List EntityId → Finset EntityId → Option (Finset EntityId)
  | [], dirty => some dirty
  | view :: views, dirty =>
    match t.markViewDirty fuel view dirty with
    | none => none
    | some dirty => t.invalidateEntities fuel views dirty

/-- The view is on the path from the node to its root. -/
def ViewAbove (t : DispatchTree D) (id : ℕ) (view : EntityId) : Prop :=
  ∃ path, IsPath t.nodes (id :: path) ∧ view ∈ (id :: path).filterMap t.viewIdAt

/-- All views around the nodes of the notified views are dirty. -/
def Covers (t : DispatchTree D) (views : List EntityId) (dirty : Finset EntityId) : Prop :=
  ∀ view ∈ views, ∀ id, t.viewIdAt id = some view → ∀ above, t.ViewAbove id above → above ∈ dirty

/-- The view is around the node that is recorded for another one. -/
def RecordedAbove (t : DispatchTree D) (view above : EntityId) : Prop :=
  ∃ id, t.viewNodeIds view = some id ∧ t.ViewAbove id above

/-- The recorded node stands for all nodes of its view: the views around any of them are around it,
the recorded views around it are recorded inside of the same views, and no view comes again on its
path below others. -/
structure RecordsStand (t : DispatchTree D) : Prop where
  all : ∀ view id, t.viewIdAt id = some view → ∀ above, t.ViewAbove id above →
    t.RecordedAbove view above
  nested : ∀ view around, t.RecordedAbove view around → ∀ above, t.RecordedAbove around above →
    t.RecordedAbove view above
  once : ∀ view id path, t.viewNodeIds view = some id → IsPath t.nodes (id :: path) →
    ∀ front again back, (id :: path).filterMap t.viewIdAt = front ++ again :: back →
      again ∈ front → ∀ above ∈ back, above ∈ front

/-! ## Recorded nodes -/

/-- The nodes that are recorded show their views. -/
def Carried (t : DispatchTree D) : Prop :=
  ∀ view id, t.viewNodeIds view = some id → t.viewIdAt id = some view

variable {t t' : DispatchTree D}

theorem Carried.congr (h : t.Carried) (hrecorded : t'.viewNodeIds = t.viewNodeIds)
    (hview : ∀ id, t'.viewIdAt id = t.viewIdAt id) : t'.Carried := by
  intro view id hid
  rw [hrecorded] at hid
  rw [hview]
  exact h view id hid

theorem Carried.lt_length (h : t.Carried) {view : EntityId} {id : ℕ}
    (hid : t.viewNodeIds view = some id) : id < t.nodes.length := by
  by_contra hlt
  have hview := h view id hid
  rw [viewIdAt, List.getElem?_eq_none (not_lt.mp hlt)] at hview
  cases hview

/-- Opening a node records its view. -/
theorem Carried.opened (h : t.Carried) (label : DispatchNode D) : (t.opened label).Carried := by
  intro view id hid
  have hkept : t.viewNodeIds view = some id → (t.opened label).viewIdAt id = some view := by
    intro hold
    rw [viewIdAt, getElem?_opened, if_neg (Nat.ne_of_lt (h.lt_length hold))]
    exact h view id hold
  change Register.record (shown DispatchNode.viewId t.nodes.length
    [{ label with parent := t.nodeStack.head? }]) t.viewNodeIds view = some id at hid
  cases hlabel : label.viewId with
  | none =>
    simp only [shown, hlabel, Option.toList_none, List.map_nil, List.nil_append,
      Register.record_nil] at hid
    exact hkept hid
  | some view' =>
    simp only [shown, hlabel, Option.toList_some, List.map_cons, List.map_nil, List.append_nil,
      Register.record, Register.lastNode, Option.none_or] at hid
    split_ifs at hid with hsame
    · obtain rfl := Option.some.inj hid
      rw [viewIdAt, getElem?_opened, if_pos rfl, Option.bind_some, hlabel, hsame]
    · exact hkept hid

theorem Carried.setViewId (h : t.Carried) (hstacked : t.WellStacked) {active : ℕ}
    (hactive : active ∈ t.nodeStack.head?) (hnone : t.viewIdAt active = none) (id : EntityId) :
    (t.setViewId id).Carried := by
  obtain ⟨rest, hstack⟩ := List.head?_eq_some_iff.mp hactive
  by_cases htop : t.viewStack.head? = some id
  · rwa [DispatchTree.setViewId, if_pos htop]
  rw [setViewId_eq hstack htop]
  intro view node hnode
  change Function.update t.viewNodeIds id (some active) view = some node at hnode
  change (t.updateActive _).viewIdAt node = some view
  rw [viewIdAt, updateActive_getElem? hstack]
  rw [Function.update_apply] at hnode
  split_ifs at hnode with hview
  · obtain rfl := Option.some.inj hnode
    obtain ⟨label, hlabel⟩ := hstacked.exists_active hstack
    rw [if_pos rfl, hlabel, hview]
    rfl
  · have hold := h view node hnode
    -- The active node showed no view, so it was recorded for none.
    have hne : active ≠ node := by
      rintro rfl
      rw [hnone] at hold
      cases hold
    rw [if_neg hne]
    exact hold

theorem viewNodeIds_closeUntil (parent : Option ℕ) (stack : List ℕ) :
    (t.closeUntil parent stack).viewNodeIds = t.viewNodeIds := by
  induction stack generalizing t with
  | nil => rfl
  | cons top rest ih =>
    rw [closeUntil]
    split_ifs
    · rfl
    · exact ih

theorem viewNodeIds_setActiveNode (id : ℕ) :
    (t.setActiveNode id).viewNodeIds = t.viewNodeIds := by
  unfold setActiveNode
  dsimp only
  split_ifs
  · exact viewNodeIds_closeUntil _ _
  · exact viewNodeIds_closeUntil _ _

/-- What the removal of nodes leaves recorded was recorded before, and no removed node shows it. -/
theorem recorded_of_truncate {removed : List (DispatchNode D)} {ids : EntityId → Option ℕ}
    {view : EntityId} {id : ℕ}
    (h : removed.foldl (fun ids node => node.viewId.elim ids fun id =>
      Function.update ids id none) ids view = some id) :
    ids view = some id ∧ ∀ node ∈ removed, node.viewId ≠ some view := by
  induction removed generalizing ids with
  | nil => exact ⟨h, by simp⟩
  | cons node removed ih =>
    obtain ⟨hids, hothers⟩ := ih h
    rw [List.forall_mem_cons]
    cases hview : node.viewId with
    | none =>
      simp only [hview, Option.elim_none] at hids
      exact ⟨hids, by simp, hothers⟩
    | some other =>
      simp only [hview, Option.elim_some, Function.update_apply] at hids
      split_ifs at hids with hother
      exact ⟨hids, fun heq => hother (Option.some.inj heq).symm, hothers⟩

theorem Carried.truncate (h : t.Carried) (index : ℕ) : (t.truncate index).Carried := by
  intro view id hid
  obtain ⟨hold, hremoved⟩ := recorded_of_truncate hid
  have hview := h view id hold
  have hlt : id < index := by
    by_contra hge
    rw [viewIdAt, Option.bind_eq_some_iff] at hview
    obtain ⟨node, hnode, hview⟩ := hview
    refine hremoved node (List.mem_of_getElem? (i := id - index) ?_) hview
    rw [List.getElem?_drop, Nat.add_sub_cancel' (not_lt.mp hge)]
    exact hnode
  rw [viewIdAt]
  change (t.nodes.take index)[id]?.bind _ = some view
  rw [List.getElem?_take_of_lt hlt]
  exact hview

/-- Every edit leaves the recorded nodes with their views. -/
theorem Carried.edit (h : t.Carried) (hstacked : t.WellStacked) {edit : Edit D}
    (honce : t.SetsOnce edit) : (t.edit edit).Carried := by
  cases edit with
  | truncate index => exact h.truncate index
  | moved start stop => exact h.congr rfl (viewIdAt_leave start stop)
  | operation operation =>
    cases operation with
    | pushNode =>
      change t.pushNode.Carried
      rw [pushNode_eq]
      exact h.opened _
    | popNode => exact h
    | setActiveNode id =>
      obtain ⟨-, hnodes, -⟩ := hstacked.setActiveNode honce
      refine h.congr (viewNodeIds_setActiveNode id) fun other => ?_
      change (t.setActiveNode id).viewIdAt other = t.viewIdAt other
      rw [viewIdAt, viewIdAt, hnodes]
    | setKeyContext context => exact h.congr rfl (label_updateActive fun _ => rfl)
    | setFocusId id =>
      obtain ⟨active, rest, hstack⟩ := List.exists_cons_of_ne_nil honce
      change (t.setFocusId id).Carried
      rw [setFocusId_eq hstack]
      exact h.congr rfl (label_updateActive fun _ => rfl)
    | setViewId id =>
      obtain ⟨active, hactive, hnone⟩ := honce
      exact h.setViewId hstacked hactive hnone id
    | reuseSubtree start stop source focus =>
      refine reuseSubtree_induction (P := fun _ t => t.Carried) (fun _ _ h => h)
        (fun _ t node h => ?_) 0 h start stop source focus
      rw [moveNode_eq_opened]
      exact h.opened _
    | onKeyEvent listener => exact h.congr rfl (label_updateActive fun _ => rfl)
    | onModifiersChanged listener => exact h.congr rfl (label_updateActive fun _ => rfl)
    | onAction listener => exact h.congr rfl (label_updateActive fun _ => rfl)

theorem carried_of_run {edits : List (Edit D)} (run : Run editStep SetsOnce new edits t) :
    t.WellStacked ∧ t.Carried := by
  refine run.invariant (fun _ t => t.WellStacked ∧ t.Carried) ⟨wellStacked_new, ?_⟩ ?_
  · intro view id hid
    cases hid
  · rintro - t edit t' ⟨hstacked, hcarried⟩ honce hstep
    obtain rfl := Option.some.inj hstep
    exact ⟨hstacked.edit honce, hcarried.edit hstacked honce⟩

/-! ## Paths of views -/

/-- From every node the loop walks to a root. The induction is on the node. -/
theorem WellStacked.exists_viewLoop (h : t.WellStacked) {id : ℕ} (hid : id < t.nodes.length) :
    ∃ path, IsPath t.nodes (id :: path) ∧ ∀ fuel, id < fuel →
      t.viewLoop fuel (some id) = some ((id :: path).filterMap t.viewIdAt) := by
  induction id using Nat.strong_induction_on with
  | _ id ih =>
    obtain ⟨node, hnode⟩ : ∃ node, t.nodes[id]? = some node := ⟨_, List.getElem?_eq_getElem hid⟩
    have hview : t.viewIdAt id = node.viewId := by
      rw [viewIdAt, hnode, Option.bind_some]
    cases hparent : node.parent with
    | none =>
      refine ⟨[], ⟨by rw [hnode, Option.map_some, hparent]; rfl, trivial⟩, ?_⟩
      rintro (- | fuel) hfuel
      · omega
      · have hend : t.viewLoop fuel none = some [] := by
          cases fuel <;> rfl
        rw [filterMap_cons_toList, hview, viewLoop, hnode]
        simp [hparent, hend]
    | some parent =>
      have hlt := h.older id parent (by rw [hnode, Option.map_some, hparent])
      obtain ⟨path, hpath, hloop⟩ := ih parent hlt (by omega)
      refine ⟨parent :: path, ⟨by rw [hnode, Option.map_some, hparent]; rfl, hpath⟩, ?_⟩
      rintro (- | fuel) hfuel
      · omega
      · rw [filterMap_cons_toList, hview, viewLoop, hnode]
        simp [hparent, hloop fuel (by omega)]

theorem viewAbove_iff {id : ℕ} {path : List ℕ} (hpath : IsPath t.nodes (id :: path))
    (view : EntityId) : t.ViewAbove id view ↔ view ∈ (id :: path).filterMap t.viewIdAt := by
  constructor
  · rintro ⟨path', hpath', hview⟩
    rwa [hpath.unique hpath']
  · intro hview
    exact ⟨path, hpath, hview⟩

/-- The path of a recorded view. -/
structure PathOf (t : DispatchTree D) (fuel : ℕ) (view : EntityId) (path : List EntityId) : Prop
    where
  loop : t.viewPathReversed fuel view = some path
  mem : ∀ above, above ∈ path ↔ t.RecordedAbove view above
  split : ∀ front again back, path = front ++ again :: back →
    ∃ id, t.viewIdAt id = some again ∧ ∀ above ∈ back, t.ViewAbove id above
  recorded : ∀ id, t.viewNodeIds view = some id → ∃ nodes, IsPath t.nodes (id :: nodes) ∧
    path = (id :: nodes).filterMap t.viewIdAt

theorem exists_pathOf (hstacked : t.WellStacked) (hcarried : t.Carried) {fuel : ℕ}
    (hfuel : t.nodes.length ≤ fuel) (view : EntityId) : ∃ path, t.PathOf fuel view path := by
  cases hid : t.viewNodeIds view with
  | none =>
    refine ⟨[], by rw [viewPathReversed, hid]; cases fuel <;> rfl, fun above => ?_, by simp,
      by simp [hid]⟩
    simp [RecordedAbove, hid]
  | some id =>
    have hlt := hcarried.lt_length hid
    obtain ⟨path, hpath, hloop⟩ := hstacked.exists_viewLoop hlt
    refine ⟨(id :: path).filterMap t.viewIdAt, ?_, fun above => ?_, ?_, ?_⟩
    · rw [viewPathReversed, hid, hloop fuel (by omega)]
    · rw [← viewAbove_iff hpath, RecordedAbove]
      simp [hid]
    · intro front again back hsplit
      obtain ⟨before, rest, hnodes, -, hrest⟩ := List.filterMap_eq_append_iff.mp hsplit
      obtain ⟨skipped, node, after, rfl, -, hview, hback⟩ := List.filterMap_eq_cons_iff.mp hrest
      refine ⟨node, hview, fun above habove => ⟨after, ?_, ?_⟩⟩
      · rw [hnodes] at hpath
        exact hpath.of_append.of_append
      · rw [List.filterMap_cons_some hview, hback]
        exact List.mem_cons_of_mem _ habove
    · rintro other hother
      obtain rfl := Option.some.inj (hid.symm.trans hother)
      exact ⟨path, hpath, rfl⟩

/-! ## The loops -/

/-- The loop marks the first views of the path, up to one that is dirty. -/
theorem exists_markLoop (path : List EntityId) (dirty : Finset EntityId) :
    ∃ front rest, path = front ++ rest ∧
      (∀ view, view ∈ markLoop path dirty ↔ view ∈ dirty ∨ view ∈ front) ∧
      ∀ view ∈ rest.head?, view ∈ dirty ∨ view ∈ front := by
  induction path generalizing dirty with
  | nil => exact ⟨[], [], rfl, by simp [markLoop], by simp⟩
  | cons first path ih =>
    rw [markLoop]
    split_ifs with hfirst
    · exact ⟨[], first :: path, rfl, by simp, by simp [hfirst]⟩
    · obtain ⟨front, rest, rfl, hmem, hhead⟩ := ih (insert first dirty)
      refine ⟨first :: front, rest, rfl, fun view => ?_, fun view hview => ?_⟩
      · rw [hmem, Finset.mem_insert, List.mem_cons]
        tauto
      · have := hhead view hview
        rw [Finset.mem_insert] at this
        rw [List.mem_cons]
        tauto

/-- Nothing is marked behind a view that comes again. -/
theorem mem_of_markLoop_again {front back : List EntityId} {again view : EntityId}
    {dirty : Finset EntityId} (hagain : again ∈ dirty ∨ again ∈ front)
    (h : view ∈ markLoop (front ++ again :: back) dirty) : view ∈ dirty ∨ view ∈ front := by
  induction front generalizing dirty with
  | nil =>
    have hdirty := hagain.resolve_right (by simp)
    rw [List.nil_append, markLoop, if_pos hdirty] at h
    exact .inl h
  | cons first front ih =>
    rw [List.cons_append, markLoop] at h
    split_ifs at h with hfirst
    · exact .inl h
    · have hagain' : again ∈ insert first dirty ∨ again ∈ front := by
        rw [Finset.mem_insert]
        rw [List.mem_cons] at hagain
        tauto
      have := ih hagain' h
      rw [Finset.mem_insert] at this
      rw [List.mem_cons]
      tauto

/-- The views around recorded ones of the set are in the set. -/
def ClosedUp (t : DispatchTree D) (dirty : Finset EntityId) : Prop :=
  ∀ view ∈ dirty, ∀ above, t.RecordedAbove view above → above ∈ dirty

section Mark

variable {fuel : ℕ} (hstacked : t.WellStacked) (hcarried : t.Carried)
  (hfuel : t.nodes.length ≤ fuel)

include hstacked hcarried hfuel

/-- Where recorded nodes stand for all, marking adds all that is recorded around the view. -/
theorem RecordsStand.markViewDirty (h : t.RecordsStand) {dirty : Finset EntityId}
    (hclosed : t.ClosedUp dirty) (view : EntityId) :
    ∃ dirty', t.markViewDirty fuel view dirty = some dirty' ∧
      ∀ above, above ∈ dirty' ↔ above ∈ dirty ∨ t.RecordedAbove view above := by
  obtain ⟨path, hpath⟩ := exists_pathOf hstacked hcarried hfuel view
  refine ⟨markLoop path dirty, by rw [DispatchTree.markViewDirty, hpath.loop, Option.map_some],
    fun above => ?_⟩
  obtain ⟨front, rest, hsplit, hmem, hhead⟩ := exists_markLoop path dirty
  rw [hmem, ← hpath.mem, hsplit, List.mem_append]
  refine or_congr_right' fun hdirty => (or_iff_left_of_imp fun hrest => ?_).symm
  cases rest with
  | nil => cases hrest
  | cons again back =>
    obtain hagain | hagain := hhead again rfl
    · -- All that is around a dirty view is dirty already.
      refine absurd ?_ hdirty
      obtain rfl | hback := List.mem_cons.mp hrest
      · exact hagain
      · obtain ⟨id, hid, habove⟩ := hpath.split front again back hsplit
        exact hclosed again hagain above (h.all again id hid above (habove above hback))
    · obtain rfl | hback := List.mem_cons.mp hrest
      · exact hagain
      · have habove : t.RecordedAbove view above := by
          rw [← hpath.mem, hsplit]
          exact List.mem_append_right _ hrest
        obtain ⟨id, hid, -⟩ := habove
        obtain ⟨nodes, hnodes, rfl⟩ := hpath.recorded id hid
        exact h.once view id nodes hid hnodes front again back hsplit hagain above hback

/-- Then all that is recorded around the notified views is marked. The induction is on the views;
what is marked stays closed. -/
theorem RecordsStand.invalidateEntities (h : t.RecordsStand) (views : List EntityId)
    {dirty : Finset EntityId} (hclosed : t.ClosedUp dirty) :
    ∃ dirty', t.invalidateEntities fuel views dirty = some dirty' ∧ dirty ⊆ dirty' ∧
      ∀ view ∈ views, ∀ above, t.RecordedAbove view above → above ∈ dirty' := by
  induction views generalizing dirty with
  | nil => exact ⟨dirty, rfl, Finset.Subset.refl _, by simp⟩
  | cons view views ih =>
    obtain ⟨marked, hmark, hmem⟩ := h.markViewDirty hstacked hcarried hfuel hclosed view
    have hmarked : t.ClosedUp marked := by
      intro around haround above habove
      rw [hmem] at haround ⊢
      obtain hold | hnew := haround
      · exact .inl (hclosed around hold above habove)
      · exact .inr (h.nested view around hnew above habove)
    obtain ⟨dirty', hrest, hsub, hviews⟩ := ih hmarked
    refine ⟨dirty', ?_, fun above habove => hsub ((hmem above).mpr (.inl habove)), ?_⟩
    · rw [DispatchTree.invalidateEntities, hmark]
      exact hrest
    · rw [List.forall_mem_cons]
      exact ⟨fun above habove => hsub ((hmem above).mpr (.inr habove)), hviews⟩

/-- After one notification just a part of the recorded path is dirty. -/
theorem exists_dirty_singleton {view : EntityId}
    (h : ∃ dirty, t.invalidateEntities fuel [view] ∅ = some dirty ∧ t.Covers [view] dirty) :
    ∃ path, t.PathOf fuel view path ∧ t.Covers [view] (markLoop path ∅) := by
  obtain ⟨path, hpath⟩ := exists_pathOf hstacked hcarried hfuel view
  obtain ⟨dirty, hdirty, hcovers⟩ := h
  rw [DispatchTree.invalidateEntities, DispatchTree.markViewDirty, hpath.loop] at hdirty
  obtain rfl := Option.some.inj hdirty
  exact ⟨path, hpath, hcovers⟩

/-- Where every order of notifications covers the notified views, recorded nodes stand for all. -/
theorem recordsStand_of_covers (h : ∀ views : List EntityId, views.Nodup →
    ∃ dirty, t.invalidateEntities fuel views ∅ = some dirty ∧ t.Covers views dirty) :
    t.RecordsStand := by
  have hone := fun view => exists_dirty_singleton hstacked hcarried hfuel
    (h [view] (List.nodup_singleton view))
  -- What is marked by one notification is on the recorded path.
  have honpath : ∀ {path : List EntityId} {above : EntityId}, above ∈ markLoop path ∅ →
      above ∈ path := by
    intro path above habove
    obtain ⟨front, rest, rfl, hmem, -⟩ := exists_markLoop path ∅
    exact List.mem_append_left _ (((hmem above).mp habove).resolve_left (by simp))
  constructor
  · intro view id hid above habove
    obtain ⟨path, hpath, hcovers⟩ := hone view
    exact (hpath.mem above).mp
      (honpath (hcovers view List.mem_cons_self id hid above habove))
  · intro view around haround above habove
    by_cases hsame : view = around
    · rwa [hsame]
    obtain ⟨path, hpath, hcovers⟩ := hone view
    obtain ⟨id, hid, haboveId⟩ := haround
    have hdirty : around ∈ markLoop path ∅ :=
      hcovers view List.mem_cons_self id (hcarried view id hid) around haboveId
    obtain ⟨path', hpath'⟩ := exists_pathOf hstacked hcarried hfuel around
    obtain ⟨id', hid', haboveId'⟩ := habove
    -- The path of the second view begins with it, and it is dirty.
    have hsecond : markLoop path' (markLoop path ∅) = markLoop path ∅ := by
      obtain ⟨nodes, -, rfl⟩ := hpath'.recorded id' hid'
      rw [List.filterMap_cons_some (hcarried around id' hid'), markLoop, if_pos hdirty]
    obtain ⟨dirty, hinvalidate, hboth⟩ := h [view, around] (by simp [hsame])
    rw [DispatchTree.invalidateEntities, DispatchTree.markViewDirty, hpath.loop] at hinvalidate
    simp only [Option.map_some, DispatchTree.invalidateEntities, DispatchTree.markViewDirty,
      hpath'.loop, hsecond, Option.some.injEq] at hinvalidate
    subst hinvalidate
    exact (hpath.mem above).mp
      (honpath (hboth around (by simp) id' (hcarried around id' hid') above haboveId'))
  · intro view id nodes hid hnodes front again back hsplit hagain above hback
    obtain ⟨path, hpath, hcovers⟩ := hone view
    obtain ⟨nodes', hnodes', rfl⟩ := hpath.recorded id hid
    obtain rfl := hnodes.unique hnodes'
    have habove : t.ViewAbove id above := by
      rw [viewAbove_iff hnodes, hsplit]
      exact List.mem_append_right _ (List.mem_cons_of_mem _ hback)
    have hdirty := hcovers view List.mem_cons_self id (hcarried view id hid) above habove
    rw [hsplit] at hdirty
    exact (mem_of_markLoop_again (.inr hagain) hdirty).resolve_left (by simp)

end Mark

/-- A recorded node stands for all when no other node shows its view. -/
theorem recordsStand_of_single (hstacked : t.WellStacked)
    (hsingle : ∀ view id, t.viewIdAt id = some view → t.viewNodeIds view = some id) :
    t.RecordsStand := by
  constructor
  · intro view id hid above habove
    exact ⟨id, hsingle view id hid, habove⟩
  · rintro view around ⟨id, hid, path, hpath, haround⟩ above ⟨id', hid', habove⟩
    refine ⟨id, hid, ?_⟩
    -- The node of the second view is on the path of the first one.
    obtain ⟨node, hnode, hview⟩ := List.mem_filterMap.mp haround
    obtain rfl := Option.some.inj (hid'.symm.trans (hsingle around node hview))
    obtain ⟨before, after, hsplit⟩ := List.append_of_mem hnode
    have hsuffix : IsPath t.nodes (id' :: after) := by
      rw [hsplit] at hpath
      exact hpath.of_append
    rw [viewAbove_iff hsuffix] at habove
    rw [viewAbove_iff hpath, hsplit, List.filterMap_append]
    exact List.mem_append_right _ habove
  · intro view id nodes hid hnodes front again back hsplit hagain
    obtain ⟨before, rest, hpath, hfront, hrest⟩ := List.filterMap_eq_append_iff.mp hsplit
    obtain ⟨skipped, node, after, rfl, -, hview, -⟩ := List.filterMap_eq_cons_iff.mp hrest
    rw [← hfront] at hagain
    obtain ⟨other, hother, hview'⟩ := List.mem_filterMap.mp hagain
    obtain rfl := Option.some.inj ((hsingle again other hview').symm.trans
      (hsingle again node hview))
    -- No node comes twice on a path.
    obtain ⟨first, last, rfl⟩ := List.append_of_mem hother
    rw [hpath, List.append_assoc, List.cons_append] at hnodes
    have hlt := hnodes.of_append.lt_of_mem hstacked.older other (by simp)
    exact absurd hlt (lt_irrefl other)

/-- A view inside of another one. -/
def nestedViews : List (Edit Empty) :=
  [.operation .pushNode, .operation (.setViewId ⟨1, 1⟩), .operation .pushNode,
    .operation (.setViewId ⟨2, 1⟩), .operation .popNode, .operation .popNode]

/-- The tree with the two views. -/
def nestedViewsTree : DispatchTree Empty :=
  ((new.pushNode.setViewId ⟨1, 1⟩).pushNode.setViewId ⟨2, 1⟩).popNode.popNode

theorem run_nestedViews : Run editStep SetsOnce new nestedViews nestedViewsTree := by
  have hpush : Run editStep SetsOnce (new : DispatchTree Empty) [.operation .pushNode]
      new.pushNode := Run.nil.snoc (Edit.operation .pushNode) trivial rfl
  have hset := hpush.snoc (Edit.operation (.setViewId ⟨1, 1⟩)) ⟨0, rfl, rfl⟩ rfl
  have hinner := hset.snoc (Edit.operation .pushNode) trivial rfl
  have hinnerSet := hinner.snoc (Edit.operation (.setViewId ⟨2, 1⟩)) ⟨1, rfl, rfl⟩ rfl
  have hpop := hinnerSet.snoc (Edit.operation .popNode) (List.cons_ne_nil _ _) rfl
  exact hpop.snoc (Edit.operation .popNode) (List.cons_ne_nil _ _) rfl

/-- A view that is drawn inside of two others. -/
def drawnTwice : List (Edit Empty) :=
  [.operation .pushNode, .operation (.setViewId ⟨1, 1⟩), .operation .pushNode,
    .operation (.setViewId ⟨3, 1⟩), .operation .popNode, .operation .popNode,
    .operation .pushNode, .operation (.setViewId ⟨2, 1⟩), .operation .pushNode,
    .operation (.setViewId ⟨3, 1⟩), .operation .popNode, .operation .popNode]

/-- The tree with the view drawn twice. -/
def drawnTwiceTree : DispatchTree Empty :=
  let first := ((new.pushNode.setViewId ⟨1, 1⟩).pushNode.setViewId ⟨3, 1⟩).popNode.popNode
  ((first.pushNode.setViewId ⟨2, 1⟩).pushNode.setViewId ⟨3, 1⟩).popNode.popNode

end Lucie.Drawing.DispatchTree
