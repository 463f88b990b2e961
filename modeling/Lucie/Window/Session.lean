import Lucie.Window.Framed

/-!
# Sessions

The nodes that a view records are those that a session pushes: a part of the operations on a
frame that closes only nodes that it opened. They come in preorder: each one hangs under a node
on the path to the one before it, or under the node around the session.
-/

set_option autoImplicit false

namespace Lucie.Drawing.DispatchTree

variable {D : Type} {t t' : DispatchTree D}

/-- Only nodes from `start` on are closed and removed, and no node is made active. -/
def WithinSession (start : ℕ) (t : DispatchTree D) : Edit D → Prop
  | .operation .popNode => ∃ active ∈ t.nodeStack.head?, start ≤ active
  | .operation (.setActiveNode _) => False
  | .truncate index => start ≤ index
  | _ => True

/-- The first nodes are not removed. -/
def Keeps (count : ℕ) : Edit D → Prop
  | .truncate index => count ≤ index
  | _ => True

/-! ## The nodes of a session -/

/-- `count` nodes in preorder, inside the nodes of `base`: each one hangs under the first node of
a part of the path to the one before it. The last argument is the path to the last node. -/
def Preordered (nodes : List (DispatchNode D)) (base : List ℕ) (start : ℕ) :
    ℕ → List ℕ → Prop
  | 0, last => last = base
  | count + 1, last => ∃ before path, Preordered nodes base start count before ∧
      path <:+ before ∧ base <:+ path ∧
      nodes[start + count]?.map DispatchNode.parent = some path.head? ∧
      last = (start + count) :: path

theorem IsPath.of_append {nodes : List (DispatchNode D)} {front path : List ℕ}
    (h : IsPath nodes (front ++ path)) : IsPath nodes path := by
  induction front with
  | nil => exact h
  | cons first front ih => exact ih h.2

section Preordered

variable {nodes nodes' : List (DispatchNode D)} {base last : List ℕ} {start count : ℕ}

theorem Preordered.congr (h : Preordered nodes base start count last)
    (hparent : ∀ id < start + count, nodes'[id]?.map DispatchNode.parent =
      nodes[id]?.map DispatchNode.parent) : Preordered nodes' base start count last := by
  induction count generalizing last with
  | zero => exact h
  | succ count ih =>
    obtain ⟨before, path, hbefore, hpath, hbase, hnode, hlast⟩ := h
    refine ⟨before, path, ih hbefore fun id hid => hparent id (by omega), hpath, hbase, ?_, hlast⟩
    rw [hparent _ (by omega)]
    exact hnode

/-- The first nodes are in preorder, and what is a part of the path to the last one without the
others is a part of the path to the last of them. -/
theorem Preordered.take (h : Preordered nodes base start count last) {shorter : ℕ}
    (hle : shorter ≤ count) :
    ∃ last', Preordered nodes base start shorter last' ∧
      ∀ stack, stack <:+ last → (∀ id ∈ stack, id < start + shorter) → stack <:+ last' := by
  induction count generalizing last with
  | zero =>
    obtain rfl : shorter = 0 := by omega
    exact ⟨last, h, fun stack hstack _ => hstack⟩
  | succ count ih =>
    rcases Nat.lt_or_ge count shorter with hlt | hge
    · obtain rfl : shorter = count + 1 := by omega
      exact ⟨last, h, fun stack hstack _ => hstack⟩
    · obtain ⟨before, path, hbefore, hpath, -, -, rfl⟩ := h
      obtain ⟨last', hlast', hstacks⟩ := ih hbefore hge
      refine ⟨last', hlast', fun stack hstack hids => hstacks stack ?_ hids⟩
      rcases List.suffix_cons_iff.mp hstack with rfl | hstack
      · -- the last node would be one of the others
        have hid := hids (start + count) List.mem_cons_self
        omega
      · exact hstack.trans hpath

/-- The last argument is a path inside the nodes of `base`. -/
theorem Preordered.isPath (h : Preordered nodes base start count last) (hbase : IsPath nodes base) :
    IsPath nodes last ∧ base <:+ last := by
  induction count generalizing last with
  | zero =>
    obtain rfl : last = base := h
    exact ⟨hbase, List.suffix_refl _⟩
  | succ count ih =>
    obtain ⟨before, path, hbefore, hpath, hsuffix, hnode, rfl⟩ := h
    obtain ⟨front, rfl⟩ := hpath
    exact ⟨⟨hnode, (ih hbefore).1.of_append⟩, hsuffix.trans (List.suffix_cons _ _)⟩

/-- The path to the last node leads from newer to older nodes. -/
theorem Preordered.lt_of_mem (h : Preordered nodes base start count last)
    (hbase : ∀ id ∈ base, id < start) : ∀ id ∈ last, id < start + count := by
  induction count generalizing last with
  | zero =>
    obtain rfl : last = base := h
    exact hbase
  | succ count ih =>
    obtain ⟨before, path, hbefore, hpath, -, -, rfl⟩ := h
    intro id hid
    obtain rfl | hid := List.mem_cons.mp hid
    · omega
    · have := ih hbefore id (hpath.mem hid)
      omega

end Preordered

/-- The state of a tree inside a session that began with `start` nodes when the nodes of `base`
were open; `depth` nodes of the session are open. -/
structure Recording (start : ℕ) (base : List ℕ) (depth : ℕ) (t : DispatchTree D) : Prop where
  reaches : start ≤ t.nodes.length
  inner : ∃ inner, t.nodeStack = inner ++ base ∧ inner.length = depth ∧ ∀ id ∈ inner, start ≤ id
  preordered : ∃ last, Preordered t.nodes base start (t.nodes.length - start) last ∧
    t.nodeStack <:+ last

section Recording

variable {start depth : ℕ} {base : List ℕ}

theorem recording_refl (t : DispatchTree D) : t.Recording t.nodes.length t.nodeStack 0 := by
  refine ⟨le_rfl, ⟨[], rfl, rfl, by simp⟩, t.nodeStack, ?_, List.suffix_refl _⟩
  rw [Nat.sub_self]
  rfl

theorem Recording.opened (h : t.Recording start base depth) (label : DispatchNode D) :
    (t.opened label).Recording start base (depth + 1) := by
  obtain ⟨hreaches, ⟨inner, hstack, hdepth, hinner⟩, last, hlast, hsuffix⟩ := h
  have hlength : (t.opened label).nodes.length = t.nodes.length + 1 := by
    simp [DispatchTree.opened, grow]
  refine ⟨by omega, ⟨t.nodes.length :: inner, ?_, by simp [hdepth], ?_⟩, ?_⟩
  · rw [List.cons_append, ← hstack]
    rfl
  · intro id hid
    obtain rfl | hid := List.mem_cons.mp hid
    exacts [hreaches, hinner id hid]
  · refine ⟨t.nodes.length :: t.nodeStack, ?_, List.suffix_refl _⟩
    rw [hlength, Nat.sub_add_comm hreaches]
    refine ⟨last, t.nodeStack, ?_, hsuffix, ⟨inner, hstack.symm⟩, ?_, ?_⟩
    · refine hlast.congr fun id hid => ?_
      rw [getElem?_opened, if_neg (by omega)]
    · rw [getElem?_opened, if_pos (by omega)]
      rfl
    · rw [Nat.add_sub_cancel' hreaches]

theorem Recording.moveNode (h : t.Recording start base depth) (source : DispatchNode D) :
    (t.moveNode source).Recording start base (depth + 1) := by
  rw [moveNode_eq_opened]
  exact h.opened _

theorem Recording.popNode (h : t.Recording start base (depth + 1)) :
    t.popNode.Recording start base depth := by
  obtain ⟨hreaches, ⟨inner, hstack, hdepth, hinner⟩, last, hlast, hsuffix⟩ := h
  obtain ⟨active, inner, rfl⟩ := List.exists_cons_of_length_eq_add_one hdepth
  have htail : t.popNode.nodeStack = inner ++ base := by
    rw [DispatchTree.popNode, hstack]
    rfl
  refine ⟨hreaches, ⟨inner, htail, by simpa using hdepth,
    fun id hid => hinner id (List.mem_cons_of_mem _ hid)⟩, last, hlast, ?_⟩
  rw [htail]
  rw [hstack] at hsuffix
  exact (List.suffix_cons active (inner ++ base)).trans hsuffix

/-- What changes only labels keeps the nodes of a session. -/
theorem Recording.congr (h : t.Recording start base depth)
    (hstack : t'.nodeStack = t.nodeStack) (hlength : t'.nodes.length = t.nodes.length)
    (hparent : ∀ id : ℕ, t'.nodes[id]?.map DispatchNode.parent =
      t.nodes[id]?.map DispatchNode.parent) : t'.Recording start base depth := by
  obtain ⟨hreaches, ⟨inner, hinner⟩, last, hlast, hsuffix⟩ := h
  refine ⟨by omega, ⟨inner, hstack ▸ hinner⟩, last, ?_, hstack ▸ hsuffix⟩
  rw [hlength]
  exact hlast.congr fun id _ => hparent id

/-- Removing nodes of the session that are not open. -/
theorem Recording.truncate (h : t.Recording start base depth) (hstacked : t.WellStacked)
    {index : ℕ} (hindex : start ≤ index) (hopen : ∀ id ∈ t.nodeStack, id < index) :
    (t.truncate index).Recording start base depth := by
  obtain ⟨hreaches, hinner, last, hlast, hsuffix⟩ := h
  have hlength : (t.truncate index).nodes.length = min index t.nodes.length := by
    simp [DispatchTree.truncate]
  obtain ⟨last', hlast', hstacks⟩ := hlast.take
    (show min index t.nodes.length - start ≤ t.nodes.length - start by omega)
  refine ⟨by omega, hinner, last', ?_, hstacks t.nodeStack hsuffix fun id hid => ?_⟩
  · rw [hlength]
    refine hlast'.congr fun id hid => ?_
    rw [show (t.truncate index).nodes = t.nodes.take index from rfl,
      List.getElem?_take_of_lt (by omega)]
  · have := hopen id hid
    have := hstacked.path.lt_length id hid
    omega

/-- Every edit inside a session keeps the nodes of the session in preorder. -/
theorem Recording.edit (h : t.Recording start base depth) (hstacked : t.WellStacked)
    (hbase : ∀ id ∈ base, id < start) {edit : Edit D} (honce : t.SetsOnce edit)
    (hwithin : t.WithinSession start edit) :
    ∃ depth', (t.edit edit).Recording start base depth' := by
  cases edit with
  | truncate index => exact ⟨depth, h.truncate hstacked hwithin honce⟩
  | moved start' stop =>
    refine ⟨depth, h.congr rfl ?_ (map_leave (fun _ => rfl) start' stop)⟩
    exact length_leave t start' stop
  | operation operation =>
    cases operation with
    | pushNode =>
      refine ⟨depth + 1, ?_⟩
      change t.pushNode.Recording start base (depth + 1)
      rw [pushNode_eq]
      exact h.opened _
    | popNode =>
      cases depth with
      | zero =>
        -- the node around the session is older
        obtain ⟨inner, hstack, hdepth, -⟩ := h.inner
        obtain rfl := List.eq_nil_of_length_eq_zero hdepth
        obtain ⟨active, hactive, hle⟩ := hwithin
        rw [hstack] at hactive
        have := hbase active (List.mem_of_mem_head? hactive)
        omega
      | succ depth => exact ⟨depth, h.popNode⟩
    | setActiveNode id => exact hwithin.elim
    | setKeyContext context =>
      exact ⟨depth, h.congr rfl (length_updateActive _) (parent_updateActive fun _ => rfl)⟩
    | setFocusId id =>
      refine ⟨depth, ?_⟩
      change (t.setFocusId id).Recording start base depth
      obtain ⟨active, rest, hstack⟩ := List.exists_cons_of_ne_nil honce
      rw [setFocusId_eq hstack]
      exact h.congr rfl (length_updateActive _) (parent_updateActive fun _ => rfl)
    | setViewId id =>
      refine ⟨depth, ?_⟩
      change (t.setViewId id).Recording start base depth
      obtain ⟨active, hactive, -⟩ := honce
      obtain ⟨rest, hstack⟩ := List.head?_eq_some_iff.mp hactive
      by_cases htop : t.viewStack.head? = some id
      · rwa [DispatchTree.setViewId, if_pos htop]
      · rw [setViewId_eq hstack htop]
        exact h.congr rfl (length_updateActive _) (parent_updateActive fun _ => rfl)
    | reuseSubtree start' stop source focus =>
      exact ⟨depth, reuseSubtree_induction (fun _ _ h => h.popNode)
        (fun _ _ node h => h.moveNode node) depth h start' stop source focus⟩
    | onKeyEvent listener =>
      exact ⟨depth, h.congr rfl (length_updateActive _) (parent_updateActive fun _ => rfl)⟩
    | onModifiersChanged listener =>
      exact ⟨depth, h.congr rfl (length_updateActive _) (parent_updateActive fun _ => rfl)⟩
    | onAction listener =>
      exact ⟨depth, h.congr rfl (length_updateActive _) (parent_updateActive fun _ => rfl)⟩

end Recording

/-! ## What later operations leave -/

/-- The first nodes are still there, hang where they hung, and show the view they showed if they
are older than `start` or other nodes hang under them. -/
structure Retains (count start : ℕ) (t t' : DispatchTree D) : Prop where
  length : count ≤ t'.nodes.length
  parents : ∀ id < count, t'.nodes[id]?.map DispatchNode.parent =
    t.nodes[id]?.map DispatchNode.parent
  views : ∀ id < count, (id < start ∨ ¬ t.Childless id) → t'.viewIdAt id = t.viewIdAt id

section Retains

variable {count start : ℕ}

theorem Retains.of_appended (hcount : count ≤ t.nodes.length) (hnodes : t.nodes <+: t'.nodes) :
    Retains count start t t' := by
  have hkept : ∀ id < count, t'.nodes[id]? = t.nodes[id]? := by
    intro id hid
    obtain ⟨rest, hrest⟩ := hnodes
    rw [← hrest, List.getElem?_append_left (by omega)]
  refine ⟨hcount.trans hnodes.length_le, fun id hid => by rw [hkept id hid], fun id hid _ => ?_⟩
  rw [viewIdAt, viewIdAt, hkept id hid]

theorem Retains.of_updateActive (hcount : count ≤ t.nodes.length)
    {change : DispatchNode D → DispatchNode D} (hnodes : t'.nodes = (t.updateActive change).nodes)
    (hparent : ∀ node, (change node).parent = node.parent)
    (hview : ∀ node, (change node).viewId = node.viewId) : Retains count start t t' := by
  refine ⟨?_, fun id _ => ?_, fun id _ _ => ?_⟩
  · rw [hnodes, length_updateActive]
    exact hcount
  · rw [hnodes]
    exact parent_updateActive hparent id
  · rw [viewIdAt, hnodes]
    exact label_updateActive hview id

theorem Framed.edit_retains (h : t.Framed) (hcount : count ≤ t.nodes.length) {edit : Edit D}
    (honce : t.SetsOnce edit) (hfirst : t.SetsViewFirst start edit) (hkeeps : Keeps count edit) :
    Retains count start t (t.edit edit) := by
  cases edit with
  | truncate index =>
    have hkept : ∀ id < count, (t.truncate index).nodes[id]? = t.nodes[id]? :=
      fun id hid => List.getElem?_take_of_lt (hid.trans_le hkeeps)
    refine ⟨?_, fun id hid => ?_, fun id hid _ => ?_⟩
    · change count ≤ (t.nodes.take index).length
      rw [List.length_take]
      exact Nat.le_min.mpr ⟨hkeeps, hcount⟩
    · change (t.truncate index).nodes[id]?.map _ = _
      rw [hkept id hid]
    · change (t.truncate index).nodes[id]?.bind _ = _
      rw [hkept id hid, viewIdAt]
  | moved start' stop =>
    exact ⟨(length_leave t start' stop).symm ▸ hcount,
      fun id _ => map_leave (fun _ => rfl) start' stop id,
      fun id _ _ => bind_leave (fun _ => rfl) start' stop id⟩
  | operation operation =>
    cases operation with
    | pushNode => exact .of_appended hcount (List.prefix_append _ _)
    | popNode => exact .of_appended hcount List.prefix_rfl
    | setActiveNode id =>
      obtain ⟨-, hnodes, -⟩ := h.stacked.setActiveNode honce
      exact .of_appended hcount (hnodes ▸ List.prefix_rfl)
    | setKeyContext context => exact .of_updateActive hcount rfl (fun _ => rfl) fun _ => rfl
    | setFocusId id =>
      obtain ⟨active, rest, hstack⟩ := List.exists_cons_of_ne_nil honce
      have hnodes : (t.setFocusId id).nodes =
          (t.updateActive fun node => { node with focusId := some id }).nodes := by
        rw [setFocusId_eq hstack]
      exact .of_updateActive hcount hnodes (fun _ => rfl) fun _ => rfl
    | setViewId id =>
      obtain ⟨active, hactive, hle, hchildless⟩ := hfirst
      obtain ⟨rest, hstack⟩ := List.head?_eq_some_iff.mp hactive
      change Retains count start t (t.setViewId id)
      by_cases htop : t.viewStack.head? = some id
      · rw [DispatchTree.setViewId, if_pos htop]
        exact .of_appended hcount List.prefix_rfl
      rw [setViewId_eq hstack htop]
      have hparent : ∀ other : ℕ, (t.updateActive fun node =>
          { node with viewId := some id }).nodes[other]?.map DispatchNode.parent =
            t.nodes[other]?.map DispatchNode.parent := parent_updateActive fun _ => rfl
      refine ⟨?_, fun other _ => hparent other, fun other _ hother => ?_⟩
      · exact (length_updateActive _).symm ▸ hcount
      · -- the active node has no children and is not older than the session
        have hne : active ≠ other := by
          rintro rfl
          rcases hother with hlt | hchild
          · omega
          · exact hchild hchildless
        change (t.updateActive _).nodes[other]?.bind _ = _
        rw [updateActive_getElem? hstack, if_neg hne, viewIdAt]
    | reuseSubtree start' stop source focus =>
      refine .of_appended hcount (reuseSubtree_induction (P := fun _ t' => t.nodes <+: t'.nodes)
        (fun _ _ h => h) (fun _ t' node h => ?_) 0 List.prefix_rfl start' stop source focus)
      rw [moveNode_eq_opened]
      exact h.trans (List.prefix_append _ _)
    | onKeyEvent listener => exact .of_updateActive hcount rfl (fun _ => rfl) fun _ => rfl
    | onModifiersChanged listener =>
      exact .of_updateActive hcount rfl (fun _ => rfl) fun _ => rfl
    | onAction listener => exact .of_updateActive hcount rfl (fun _ => rfl) fun _ => rfl

end Retains

/-! ## Recorded ranges -/

/-- A range of nodes that was recorded while the nodes of `base` were open and `top` was the
innermost view. -/
structure RecordedRange (t : DispatchTree D) (start stop : ℕ) (base : List ℕ)
    (top : Option EntityId) : Prop where
  framed : t.Framed
  bounds : start ≤ stop ∧ stop ≤ t.nodes.length
  isPath : IsPath t.nodes base
  older : ∀ id ∈ base, id < start
  preordered : ∃ last, Preordered t.nodes base start (stop - start) last
  views : start < stop → (base.filterMap t.viewIdAt).head? = top

theorem WithinSession.keeps {start : ℕ} {edit : Edit D} (h : t.WithinSession start edit) :
    Keeps start edit := by
  cases edit with
  | truncate index => exact h
  | operation => trivial
  | moved => trivial

/-- A session records a range. -/
theorem recordedRange_of_session (h : t.Framed) {edits : List (Edit D)}
    (run : Foundation.Run editStep (fun s edit => s.SetsOnce edit ∧
      s.SetsViewFirst t.nodes.length edit ∧ s.WithinSession t.nodes.length edit) t edits t') :
    t'.RecordedRange t.nodes.length t'.nodes.length t.nodeStack t.viewStack.head? := by
  have holder : ∀ id ∈ t.nodeStack, id < t.nodes.length := h.stacked.path.lt_length
  have hinv : t'.Framed ∧ (∃ depth, t'.Recording t.nodes.length t.nodeStack depth) ∧
      ∀ id < t.nodes.length, t'.nodes[id]?.map DispatchNode.parent =
        t.nodes[id]?.map DispatchNode.parent ∧ t'.viewIdAt id = t.viewIdAt id := by
    refine run.invariant (fun _ s => s.Framed ∧
      (∃ depth, s.Recording t.nodes.length t.nodeStack depth) ∧
      ∀ id < t.nodes.length, s.nodes[id]?.map DispatchNode.parent =
        t.nodes[id]?.map DispatchNode.parent ∧ s.viewIdAt id = t.viewIdAt id)
      ⟨h, ⟨0, recording_refl t⟩, fun id _ => ⟨rfl, rfl⟩⟩ ?_
    rintro _ s edit s' ⟨hframed, ⟨depth, hrec⟩, hold⟩ ⟨honce, hfirst, hwithin⟩ hstep
    obtain rfl := Option.some.inj hstep
    have hretains := hframed.edit_retains hrec.reaches honce hfirst hwithin.keeps
    refine ⟨hframed.edit honce hfirst, hrec.edit hframed.stacked holder honce hwithin, ?_⟩
    intro id hid
    exact ⟨(hretains.parents id hid).trans (hold id hid).1,
      (hretains.views id hid (.inl hid)).trans (hold id hid).2⟩
  obtain ⟨hframed, ⟨depth, hrec⟩, hold⟩ := hinv
  obtain ⟨last, hlast, -⟩ := hrec.preordered
  refine ⟨hframed, ⟨hrec.reaches, le_rfl⟩, ?_, holder, ⟨last, hlast⟩, fun _ => ?_⟩
  · exact h.stacked.path.congr fun id hid => (hold id (holder id hid)).1
  · rw [h.stacked.views, List.filterMap_congr fun id hid => (hold id (holder id hid)).2]

/-- A range stays recorded while the frame is drawn, unless it is removed. -/
theorem RecordedRange.of_run {start stop : ℕ} {base : List ℕ} {top : Option EntityId}
    (h : t.RecordedRange start stop base top) {edits : List (Edit D)}
    (run : Foundation.Run editStep (fun s edit => (s.SetsOnce edit ∧ s.SetsViewFirst 0 edit) ∧
      Keeps stop edit) t edits t') : t'.RecordedRange start stop base top := by
  refine run.invariant (fun _ s => s.RecordedRange start stop base top) h ?_
  rintro _ s edit s' ⟨hframed, ⟨hle, hstop⟩, hpath, holder, ⟨last, hlast⟩, hviews⟩
    ⟨⟨honce, hfirst⟩, hkeeps⟩ hstep
  obtain rfl := Option.some.inj hstep
  have hretains := hframed.edit_retains hstop honce hfirst hkeeps
  have hlt : ∀ id ∈ base, id < stop := fun id hid => (holder id hid).trans_le hle
  refine ⟨hframed.edit honce hfirst, ⟨hle, hretains.length⟩, ?_, holder, ⟨last, ?_⟩, ?_⟩
  · exact hpath.congr fun id hid => hretains.parents id (hlt id hid)
  · exact hlast.congr fun id hid => hretains.parents id (by omega)
  · intro hne
    rw [← hviews hne]
    -- the first node of the range hangs under the nodes around it
    have hfirstPath : IsPath s.nodes (start :: base) := by
      obtain ⟨last', hone, -⟩ := hlast.take (show 1 ≤ stop - start by omega)
      obtain ⟨before, path, hbefore, hsuffix, hbase, hnode, -⟩ := hone
      obtain rfl : before = base := hbefore
      obtain rfl : path = before := hsuffix.eq_of_length_le hbase.length_le
      exact ⟨hnode, hpath⟩
    refine congrArg List.head? (List.filterMap_congr fun id hid => ?_)
    obtain ⟨child, hchild⟩ := hfirstPath.exists_child id hid
    exact hretains.views id (hlt id hid) (.inr fun hchildless => hchildless child hchild)

end Lucie.Drawing.DispatchTree
