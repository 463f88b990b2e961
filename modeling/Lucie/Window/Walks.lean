import Lucie.Window.Paths
import Lucie.Foundation.Run

/-!
# Walks up a dispatch tree

Parents are older than their children, so the loops that walk up the tree end. Focus ids are
registered for the nodes that have them, so a focus id contains another one if the path of
that one has it.
-/

set_option autoImplicit false

namespace Lucie.Drawing.DispatchTree

variable {D : Type}

/-! ## The loops up the tree -/

/-- The loops from a node walk along its path. -/
structure Walks (t : DispatchTree D) (id : ℕ) (path : List ℕ) : Prop where
  isPath : IsPath t.nodes path
  head : path.head? = some id
  dispatch : ∀ fuel, id < fuel → t.dispatchLoop fuel (some id) = some path
  focus : ∀ fuel, id < fuel → t.focusLoop fuel (some id) = some (path.filterMap t.focusIdAt)
  contains : ∀ ancestor fuel, id < fuel →
    t.containsLoop ancestor fuel (some id) = some (decide (ancestor ∈ path))

variable {t : DispatchTree D}

/-- From every node the loops walk to a root, with as much fuel as there are older nodes. The
induction is on the node. -/
theorem WellStacked.exists_walks (h : t.WellStacked) {id : ℕ} (hid : id < t.nodes.length) :
    ∃ path, t.Walks id path := by
  induction id using Nat.strong_induction_on with
  | _ id ih =>
    obtain ⟨node, hnode⟩ : ∃ node, t.nodes[id]? = some node := ⟨_, List.getElem?_eq_getElem hid⟩
    have hfocusId : t.focusIdAt id = node.focusId := by
      rw [focusIdAt, hnode, Option.bind_some]
    cases hparent : node.parent with
    | none =>
      refine ⟨[id], ⟨by rw [hnode, Option.map_some, hparent]; rfl, trivial⟩, rfl, ?_, ?_, ?_⟩
      · rintro (- | fuel) hfuel
        · omega
        · rw [dispatchLoop, hnode, Option.bind_some, hparent]
          cases fuel <;> rfl
      · rintro (- | fuel) hfuel
        · omega
        · have hend : t.focusLoop fuel none = some [] := by
            cases fuel <;> rfl
          rw [filterMap_cons_toList, hfocusId, focusLoop, hnode]
          simp [hparent, hend]
      · rintro ancestor (- | fuel) hfuel
        · omega
        · have hend : t.containsLoop ancestor fuel none = some false := by
            cases fuel <;> rfl
          rw [containsLoop, hnode]
          by_cases hancestor : id = ancestor
          · simp [hancestor]
          · simp [hancestor, Ne.symm hancestor, hparent, hend]
    | some parent =>
      have hlt := h.older id parent (by rw [hnode, Option.map_some, hparent])
      obtain ⟨path, hpath⟩ := ih parent hlt (by omega)
      refine ⟨id :: path, ⟨?_, hpath.isPath⟩, rfl, ?_, ?_, ?_⟩
      · rw [hnode, Option.map_some, hparent, hpath.head]
      · rintro (- | fuel) hfuel
        · omega
        · rw [dispatchLoop, hnode, Option.bind_some, hparent, hpath.dispatch fuel (by omega),
            Option.map_some]
      · rintro (- | fuel) hfuel
        · omega
        · rw [filterMap_cons_toList, hfocusId, focusLoop, hnode]
          simp [hparent, hpath.focus fuel (by omega)]
      · rintro ancestor (- | fuel) hfuel
        · omega
        · rw [containsLoop, hnode]
          by_cases hancestor : id = ancestor
          · simp [hancestor]
          · simp [hancestor, Ne.symm hancestor, hparent, hpath.contains ancestor fuel (by omega)]

/-- The walks that the tree offers end, whatever they are started from. -/
structure Terminates (t : DispatchTree D) (fuel : ℕ) : Prop where
  dispatchPath : ∀ id < t.nodes.length, ∃ path, t.dispatchPath fuel id = some path ∧
    IsPath t.nodes path.reverse ∧ path.getLast? = some id
  focusPath : ∀ focus, (t.focusPath fuel focus).isSome = true
  focusContains : ∀ parent child, (t.focusContains fuel parent child).isSome = true

/-- With as much fuel as there are nodes all walks end. -/
theorem Sound.terminates (h : t.Sound) {fuel : ℕ} (hfuel : t.nodes.length ≤ fuel) :
    t.Terminates fuel := by
  constructor
  · intro id hid
    obtain ⟨path, hpath⟩ := h.stacked.exists_walks hid
    refine ⟨path.reverse, ?_, ?_, ?_⟩
    · rw [DispatchTree.dispatchPath, hpath.dispatch fuel (by omega), Option.map_some]
    · rw [List.reverse_reverse]
      exact hpath.isPath
    · rw [List.getLast?_reverse]
      exact hpath.head
  · intro focus
    rw [DispatchTree.focusPath]
    cases hnode : t.focusableNodeIds focus with
    | none => cases fuel <;> rfl
    | some id =>
      have hid := h.registered.inRange focus id hnode
      obtain ⟨path, hpath⟩ := h.stacked.exists_walks hid
      rw [hpath.focus fuel (by omega)]
      rfl
  · intro parent child
    rw [DispatchTree.focusContains]
    split_ifs
    · rfl
    · cases t.focusableNodeIds parent with
      | none => rfl
      | some ancestor =>
        dsimp only
        cases hnode : t.focusableNodeIds child with
        | none => cases fuel <;> rfl
        | some id =>
          have hid := h.registered.inRange child id hnode
          obtain ⟨path, hpath⟩ := h.stacked.exists_walks hid
          rw [hpath.contains ancestor fuel (by omega)]
          rfl

/-- A focus id that its node still has contains another one exactly if it is on the path of
that one. -/
theorem Sound.focusContains_iff (h : t.Sound) {fuel : ℕ} (hfuel : t.nodes.length ≤ fuel)
    {parent child : FocusId} {ancestor id : ℕ} (hparent : t.focusableNodeIds parent = some ancestor)
    (hkept : t.focusIdAt ancestor = some parent) (hchild : t.focusableNodeIds child = some id) :
    ∃ path, t.focusPath fuel child = some path ∧
      (t.focusContains fuel parent child = some true ↔ parent ∈ path) := by
  have hid := h.registered.inRange child id hchild
  obtain ⟨path, hpath⟩ := h.stacked.exists_walks hid
  refine ⟨(path.filterMap t.focusIdAt).reverse, ?_, ?_⟩
  · rw [DispatchTree.focusPath, hchild, hpath.focus fuel (by omega), Option.map_some]
  · have hmem : parent ∈ (path.filterMap t.focusIdAt).reverse ↔ ancestor ∈ path := by
      rw [List.mem_reverse, List.mem_filterMap]
      constructor
      · rintro ⟨node, hnode, hfocus⟩
        have howner := h.registered.owner parent node hfocus
        obtain rfl := Option.some.inj (hparent.symm.trans howner)
        exact hnode
      · intro hnode
        exact ⟨ancestor, hnode, hkept⟩
    rw [hmem, DispatchTree.focusContains]
    split_ifs with hsame
    · subst hsame
      obtain rfl := Option.some.inj (hparent.symm.trans hchild)
      simp [List.mem_of_mem_head? hpath.head]
    · rw [hparent, hchild]
      dsimp only
      rw [hpath.contains ancestor fuel (by omega)]
      simp

/-! ## Runs of operations -/

/-- The operations that drawing issues; a reused range comes from another tree. -/
inductive Operation (D : Type)
  | pushNode
  | popNode
  | setActiveNode (id : ℕ)
  | setKeyContext (context : KeyContext)
  | setFocusId (id : FocusId)
  | setViewId (id : EntityId)
  | reuseSubtree (start stop : ℕ) (source : DispatchTree D) (focus : Option FocusId)
  | onKeyEvent (listener : D)
  | onModifiersChanged (listener : D)
  | onAction (listener : D)

/-- The tree after an operation. -/
def apply (t : DispatchTree D) : Operation D → DispatchTree D
  | .pushNode => t.pushNode
  | .popNode => t.popNode
  | .setActiveNode id => t.setActiveNode id
  | .setKeyContext context => t.setKeyContext context
  | .setFocusId id => t.setFocusId id
  | .setViewId id => t.setViewId id
  | .reuseSubtree start stop source focus => (t.reuseSubtree start stop source focus).2.1
  | .onKeyEvent listener => t.onKeyEvent listener
  | .onModifiersChanged listener => t.onModifiersChanged listener
  | .onAction listener => t.onAction listener

/-- Drawing issues an operation: nodes are closed only if one is open, an existing node is made
active, a node gets a context and a view at most once, and focus ids are new. -/
def Issued (t : DispatchTree D) : Operation D → Prop
  | .pushNode => True
  | .popNode => t.nodeStack ≠ []
  | .setActiveNode id => id < t.nodes.length
  | .setKeyContext _ => ∃ active ∈ t.nodeStack.head?, t.contextAt active = none
  | .setFocusId id => t.nodeStack ≠ [] ∧ t.focusableNodeIds id = none
  | .setViewId _ => ∃ active ∈ t.nodeStack.head?, t.viewIdAt active = none
  | .reuseSubtree start stop source _ =>
    let ids := focusIds ((source.nodes.drop start).take (stop - start))
    ids.Nodup ∧ ∀ id ∈ ids, t.focusableNodeIds id = none
  | .onKeyEvent _ | .onModifiersChanged _ | .onAction _ => t.nodeStack ≠ []

/-- Every operation that drawing issues keeps the stacks well and the focus ids registered. -/
theorem Sound.apply (h : t.Sound) {operation : Operation D} (hissued : t.Issued operation) :
    (t.apply operation).Sound := by
  cases operation with
  | pushNode => exact h.pushNode
  | popNode => exact h.popNode
  | setActiveNode id => exact h.setActiveNode hissued
  | setKeyContext context =>
    obtain ⟨active, hactive, hnone⟩ := hissued
    obtain ⟨rest, hstack⟩ := List.head?_eq_some_iff.mp hactive
    exact h.setKeyContext hstack hnone context
  | setFocusId id => exact h.setFocusId hissued.2
  | setViewId id =>
    obtain ⟨active, hactive, hnone⟩ := hissued
    obtain ⟨rest, hstack⟩ := List.head?_eq_some_iff.mp hactive
    exact h.setViewId hstack hnone id
  | reuseSubtree start stop source focus => exact h.reuseNodes hissued.1 hissued.2 [] start
  | onKeyEvent listener => exact h.updateActive fun _ => rfl
  | onModifiersChanged listener => exact h.updateActive fun _ => rfl
  | onAction listener => exact h.updateActive fun _ => rfl

/-- Make an operation as a step of a run. -/
def step (t : DispatchTree D) (operation : Operation D) : Option (DispatchTree D) :=
  some (t.apply operation)

theorem sound_of_run {operations : List (Operation D)}
    (run : Foundation.Run step Issued new operations t) : t.Sound := by
  apply run.invariant (fun _ t => t.Sound) ⟨wellStacked_new, registered_new⟩
  intro _ t operation t' hsound hissued hstep
  obtain rfl := Option.some.inj hstep
  exact hsound.apply hissued

/-- A node that gets two focus ids. -/
def refocusing : List (Operation Empty) := [.pushNode, .setFocusId 1, .setFocusId 2]

theorem run_refocusing : Foundation.Run step Issued (new : DispatchTree Empty) refocusing
    ((new.pushNode.setFocusId 1).setFocusId 2) := by
  have hfirst : Foundation.Run step Issued (new : DispatchTree Empty) [.pushNode] new.pushNode :=
    Foundation.Run.nil.snoc Operation.pushNode trivial rfl
  have hsecond : Foundation.Run step Issued (new : DispatchTree Empty) [.pushNode, .setFocusId 1]
      (new.pushNode.setFocusId 1) :=
    hfirst.snoc (Operation.setFocusId 1) ⟨List.cons_ne_nil _ _, rfl⟩ rfl
  exact hsecond.snoc (Operation.setFocusId 2) ⟨List.cons_ne_nil _ _, rfl⟩ rfl

end Lucie.Drawing.DispatchTree
