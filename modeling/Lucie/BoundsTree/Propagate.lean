import Lucie.BoundsTree.Shape

/-!
# Propagating an insertion

After a leaf is attached, the nodes above it still have their old bounds and orders.
The propagation walks up the insert path. At every step the only node that is not
sound is the next one on the path, and it is stale by the new leaf alone.
-/

set_option autoImplicit false

namespace Lucie

open Relation

variable {U : Type} [AddCommGroup U] [LinearOrder U]

/-- Swapping an element with the last one makes it the last one. -/
theorem getLast?_swap_last {α : Type} (xs : List α) {i : ℕ} (h : i < xs.length) :
    (xs.swap i (xs.length - 1)).getLast? = xs[i]? := by
  rw [List.getLast?_eq_getElem?, List.length_swap, List.getElem?_eq_getElem (by simp; omega),
    List.getElem_swap_right_of_lt h, List.getElem?_eq_getElem h]

/-- Moving a child to the end keeps the children. -/
theorem NodeChildren.moveLast_perm (children : NodeChildren) (c : ℕ) :
    (children.moveLast c).indices.Perm children.indices := by
  unfold NodeChildren.moveLast
  split
  · dsimp only
    split_ifs
    · exact List.swap_perm _ _ _
    · exact .refl _
  · exact .refl _

/-- Moving a child to the end does so. -/
theorem NodeChildren.getLast?_moveLast {children : NodeChildren} {c : ℕ}
    (hc : c ∈ children.indices) : (children.moveLast c).indices.getLast? = some c := by
  obtain ⟨pos, hpos⟩ : ∃ pos, children.indices.idxOf? c = some pos :=
    Option.isSome_iff_exists.mp (by simpa using hc)
  obtain ⟨hlt, hget, -⟩ := List.findIdx?_eq_some_iff_getElem.mp hpos
  obtain rfl : children.indices[pos] = c := by simpa using hget
  simp only [NodeChildren.moveLast, hpos]
  split_ifs with hlast
  · rw [NodeChildren.swap, getLast?_swap_last _ hlt, List.getElem?_eq_getElem hlt]
  · rw [List.getLast?_eq_getElem?, ← not_not.mp hlast, List.getElem?_eq_getElem hlt]

namespace BoundsTree

section UpdateNode

variable (bounds : Bounds U) (order : ℕ) (updated : Option ℕ) (node : Node U)

@[simp] theorem updateNode_bounds :
    (updateNode bounds order updated node).bounds = node.bounds.union bounds := by
  unfold updateNode
  split_ifs <;> rfl

@[simp] theorem updateNode_maxOrder :
    (updateNode bounds order updated node).maxOrder = max node.maxOrder order := by
  unfold updateNode
  split_ifs with h
  · exact (max_eq_right h.le).symm
  · exact (max_eq_left (not_lt.mp h)).symm

@[simp] theorem updateNode_none_kind : (updateNode bounds order none node).kind = node.kind := by
  unfold updateNode
  split_ifs <;> rfl

theorem updateNode_children_perm :
    (updateNode bounds order updated node).children.Perm node.children := by
  unfold updateNode Node.children
  split_ifs
  · cases updated with
    | none => exact .refl _
    | some c =>
      cases hkind : node.kind with
      | leaf _ => exact .refl _
      | internal children => exact children.moveLast_perm c
  · exact .refl _

theorem updateNode_entry (h : node.entry = none) :
    (updateNode bounds order updated node).entry = none := by
  unfold updateNode Node.entry at *
  cases hkind : node.kind with
  | leaf _ => simp [hkind] at h
  | internal children => split_ifs <;> cases updated <;> rfl

end UpdateNode

/-- What a node owes to the arena after a leaf with the given bounds and order was
attached below its child `prev`, and before it is updated itself. -/
structure Stale (nodes : List (Node U)) (bounds : Bounds U) (order prev : ℕ) (node : Node U) :
    Prop where
  entry : node.entry = none
  two : 2 ≤ node.children.length
  nodup : node.children.Nodup
  grown : ∀ c ∈ node.children, ∃ child, nodes[c]? = some child ∧
    (node.bounds.union bounds).Covers child.bounds ∧ child.maxOrder ≤ max node.maxOrder order
  prev : prev ∈ node.children ∧
    ∃ child, nodes[prev]? = some child ∧ (node.maxOrder < order → child.maxOrder = order)
  last : ∀ c ∈ node.children.getLast?, ∃ child, nodes[c]? = some child ∧
    (order ≤ node.maxOrder → child.maxOrder = node.maxOrder)

/-- The update makes a stale node sound, if the node that it moves to the end, or that
is there already, is the one that grew. -/
theorem Stale.sound_updateNode {nodes : List (Node U)} {bounds : Bounds U} {order prev : ℕ}
    {node : Node U} (hstale : Stale nodes bounds order prev node) (updated : Option ℕ)
    (hlast : node.maxOrder < order →
      (updateNode bounds order updated node).children.getLast? = some prev) :
    (updateNode bounds order updated node).Sound nodes := by
  have hperm := updateNode_children_perm bounds order updated node
  have hentry := updateNode_entry bounds order updated node hstale.entry
  refine ⟨by simp [hentry], fun children hkind => ?_, hperm.nodup_iff.mpr hstale.nodup,
    fun c hc => ?_, fun c hc => ?_⟩
  · obtain ⟨children', hkind', hchildren⟩ := Node.children_of_entry hentry
    obtain rfl : children' = children := NodeKind.internal.inj (hkind'.symm.trans hkind)
    rw [← hchildren, hperm.length_eq]
    exact hstale.two
  · obtain ⟨child, hget, hcovers, hle⟩ := hstale.grown c (hperm.mem_iff.mp hc)
    exact ⟨child, hget, by simpa only [updateNode_bounds] using hcovers, by simpa using hle⟩
  · rcases Nat.lt_or_ge node.maxOrder order with hlt | hle
    · obtain ⟨-, child, hget, horder⟩ := hstale.prev
      rw [hlast hlt, Option.mem_some_iff] at hc
      exact ⟨child, hc ▸ hget, by rw [horder hlt, updateNode_maxOrder, max_eq_right hlt.le]⟩
    · have hkept : (updateNode bounds order updated node).children = node.children := by
        simp [updateNode, Node.children, Nat.not_lt.mpr hle]
      rw [hkept] at hc
      obtain ⟨child, hget, horder⟩ := hstale.last c hc
      exact ⟨child, hget, by rw [horder hle, updateNode_maxOrder, max_eq_left hle]⟩

/-- The update of a node above the one that was updated before it. -/
theorem Stale.sound_updateNode_some {nodes : List (Node U)} {bounds : Bounds U} {order prev : ℕ}
    {node : Node U} (hstale : Stale nodes bounds order prev node) :
    (updateNode bounds order (some prev) node).Sound nodes := by
  refine hstale.sound_updateNode (some prev) fun hlt => ?_
  obtain ⟨children, hkind, hchildren⟩ := Node.children_of_entry hstale.entry
  have hprev := hstale.prev.1
  rw [hchildren] at hprev
  simpa [updateNode, hlt, hkind, Node.children] using NodeChildren.getLast?_moveLast hprev

end BoundsTree

section Frame

variable {nodes : List (Node U)} {bounds : Bounds U} {order : ℕ} {node : Node U}

/-- A sound node stays sound when none of its children change. -/
theorem Node.Sound.frame {nodes' : List (Node U)} (hsound : node.Sound nodes)
    (hsame : ∀ c ∈ node.children, nodes'[c]? = nodes[c]?) : node.Sound nodes' := by
  refine ⟨hsound.leaf, hsound.two, hsound.nodup, fun c hc => ?_, fun c hc => ?_⟩
  · rw [hsame c hc]
    exact hsound.dominates c hc
  · rw [hsame c (List.mem_of_mem_getLast? hc)]
    exact hsound.last c hc

/-- A sound node is stale once one of its children has grown. -/
theorem Node.Sound.stale (hsound : node.Sound nodes) (hentry : node.entry = none) {c : ℕ}
    (hc : c ∈ node.children) {child child' : Node U} (hchild : nodes[c]? = some child)
    (hcovers : (child.bounds.union bounds).Covers child'.bounds)
    (horder : child'.maxOrder = max child.maxOrder order) :
    BoundsTree.Stale (nodes.set c child') bounds order c node := by
  have hself : (nodes.set c child')[c]? = some child' := by
    rw [List.getElem?_set_self (List.getElem?_eq_some_iff.mp hchild).1]
  have hdom : node.Dominates child := by
    obtain ⟨child₂, hget, hdom⟩ := hsound.dominates c hc
    rwa [Option.some.inj (hchild.symm.trans hget)]
  refine ⟨hentry, ?_, hsound.nodup, fun d hd => ?_, ⟨hc, child', hself, fun hlt => ?_⟩,
    fun d hd => ?_⟩
  · obtain ⟨children, hkind, hchildren⟩ := Node.children_of_entry hentry
    rw [hchildren]
    exact hsound.two children hkind
  · rcases eq_or_ne c d with rfl | hne
    · refine ⟨child', hself, .trans (.union ?_ (.union_right _ _)) hcovers, ?_⟩
      · exact (Bounds.Covers.union_left _ _).trans hdom.1
      · rw [horder]
        exact max_le_max_right order hdom.2
    · obtain ⟨other, hget, hother⟩ := hsound.dominates d hd
      exact ⟨other, by rwa [List.getElem?_set_ne hne],
        (Bounds.Covers.union_left _ _).trans hother.1, hother.2.trans (le_max_left _ _)⟩
  · rw [horder]
    exact max_eq_right (hdom.2.trans hlt.le)
  · obtain ⟨other, hget, hother⟩ := hsound.last d hd
    rcases eq_or_ne c d with rfl | hne
    · refine ⟨child', hself, fun hle => ?_⟩
      obtain rfl : child = other := Option.some.inj (hchild.symm.trans hget)
      rw [horder, hother, max_eq_left hle]
    · exact ⟨other, by rwa [List.getElem?_set_ne hne], fun _ => hother⟩

end Frame

namespace BoundsTree

section Arena

variable {nodes : List (Node U)} {p : ℕ} {node node' : Node U}

omit [AddCommGroup U] [LinearOrder U]

/-- The children in an arena with one node replaced. -/
theorem isChild_set (hp : p < nodes.length) (q c : ℕ) :
    IsChild (nodes.set p node') q c ↔
      (q = p ∧ c ∈ node'.children) ∨ (q ≠ p ∧ IsChild nodes q c) := by
  rcases eq_or_ne q p with rfl | hne
  · simp [IsChild, List.getElem?_set_self hp]
  · simp [IsChild, List.getElem?_set_ne hne.symm, hne]

/-- Replacing a node by one with the same children keeps the child relation. -/
theorem isChild_set_perm (hp : nodes[p]? = some node) (hperm : node'.children.Perm node.children)
    (q c : ℕ) : IsChild (nodes.set p node') q c ↔ IsChild nodes q c := by
  rw [isChild_set (List.getElem?_eq_some_iff.mp hp).1]
  constructor
  · rintro (⟨rfl, hc⟩ | ⟨-, hc⟩)
    exacts [⟨node, hp, hperm.mem_iff.mp hc⟩, hc]
  · intro hc
    rcases eq_or_ne q p with rfl | hne
    · obtain ⟨other, hget, hc⟩ := hc
      obtain rfl : node = other := Option.some.inj (hp.symm.trans hget)
      exact .inl ⟨rfl, hperm.mem_iff.mpr hc⟩
    · exact .inr ⟨hne, hc⟩

/-- Replacing an internal node by another keeps the entries. -/
theorem map_entry_set (hp : nodes[p]? = some node) (hentry : node'.entry = node.entry) :
    (nodes.set p node').map Node.entry = nodes.map Node.entry := by
  rw [List.map_set, hentry]
  refine List.ext_getElem? fun i => ?_
  rcases eq_or_ne p i with rfl | hne
  · rw [List.getElem?_set_self (by simpa using (List.getElem?_eq_some_iff.mp hp).1),
      List.getElem?_map, hp, Option.map_some]
  · rw [List.getElem?_set_ne hne]

/-- The entries of an arena are read off the list of its optional entries. -/
theorem isEntry_iff_map (i : ℕ) (entry : Bounds U × ℕ) :
    IsEntry nodes i entry ↔ (nodes.map Node.entry)[i]? = some (some entry) := by
  simp [IsEntry]

end Arena

/-- The invariant of the propagation: only the next node on the path is not sound, and
it is stale. -/
structure Climb (bounds : Bounds U) (order : ℕ) (nodes : List (Node U)) (prev : ℕ)
    (path : List ℕ) : Prop where
  sound : ∀ (i : ℕ) (node : Node U), nodes[i]? = some node → path.head? ≠ some i →
    node.Sound nodes
  stale : ∀ p ∈ path.head?, ∃ node, nodes[p]? = some node ∧ Stale nodes bounds order prev node

open Foundation

variable {bounds : Bounds U} {order : ℕ} {child : ℕ → ℕ → Prop} {root bound : ℕ}

/-- Once a node is sound again, its parent is the only stale node. -/
theorem climb_of_set (tree : RootedTree child root bound) {nodes : List (Node U)} {p : ℕ}
    (hinto : ∀ q, IsChild nodes q p → child q p) {path : List ℕ} (hup : UpPath child root p path)
    (hpath : ∀ q ∈ path.head?, IsChild nodes q p) {node node' : Node U}
    (hget : nodes[p]? = some node)
    (hsound : ∀ (i : ℕ) (other : Node U), nodes[i]? = some other → i ≠ p → other.Sound nodes)
    (hnode' : node'.Sound nodes) (hself : p ∉ node'.children)
    (hcovers : (node.bounds.union bounds).Covers node'.bounds)
    (horder : node'.maxOrder = max node.maxOrder order) :
    Climb bounds order (nodes.set p node') p path := by
  have hlt := (List.getElem?_eq_some_iff.mp hget).1
  refine ⟨fun i other hother hhead => ?_, fun q hq => ?_⟩
  · rcases eq_or_ne p i with rfl | hne
    · rw [List.getElem?_set_self hlt, Option.some.injEq] at hother
      subst hother
      exact hnode'.frame fun c hc => List.getElem?_set_ne (ne_of_mem_of_not_mem hc hself).symm
    · rw [List.getElem?_set_ne hne] at hother
      refine (hsound i other hother hne.symm).frame fun c hc => List.getElem?_set_ne ?_
      -- the parent of `p` is the head of the path, or `p` is the root
      rintro rfl
      have hi := hinto i ⟨other, hother, hc⟩
      cases path with
      | nil => exact tree.root_not_child i (hup ▸ hi)
      | cons q path => exact hhead (congrArg some (tree.unique q i p hup.1 hi))
  · obtain ⟨other, hother, hp⟩ := hpath q hq
    have hne : p ≠ q := by
      rintro rfl
      exact tree.irrefl p (hinto p ⟨other, hother, hp⟩)
    refine ⟨other, by rwa [List.getElem?_set_ne hne], ?_⟩
    refine (hsound q other hother hne.symm).stale ?_ hp hget hcovers horder
    cases hkind : other.kind <;> simp_all [Node.entry, Node.children]

/-- The propagation makes every node sound, and keeps the tree and the entries. -/
theorem propagate_spec (tree : RootedTree child root bound) {nodes : List (Node U)}
    (hchild : ∀ p c, IsChild nodes p c ↔ child p c) {prev : ℕ} {path : List ℕ}
    (hup : UpPath child root prev path) (hclimb : Climb bounds order nodes prev path) :
    ∃ nodes', propagate bounds order nodes (some prev) path = some nodes' ∧ Sound nodes' ∧
      (∀ p c, IsChild nodes' p c ↔ child p c) ∧
      nodes'.map Node.entry = nodes.map Node.entry := by
  induction path generalizing nodes prev with
  | nil =>
    exact ⟨nodes, rfl, fun i node hget => hclimb.sound i node hget (by simp), hchild, rfl⟩
  | cons p path ih =>
    obtain ⟨node, hget, hstale⟩ := hclimb.stale p rfl
    have hperm := updateNode_children_perm bounds order (some prev) node
    have hchild' := fun q c => (isChild_set_perm hget hperm q c).trans (hchild q c)
    have hself : p ∉ (updateNode bounds order (some prev) node).children := fun hp =>
      tree.irrefl p ((hchild p p).mp ⟨node, hget, hperm.mem_iff.mp hp⟩)
    have hnext : Climb bounds order
        (nodes.set p (updateNode bounds order (some prev) node)) p path := by
      refine climb_of_set tree (fun q => (hchild q p).mp) hup.2 (fun q hq => ?_) hget
        (fun i other hother hne => hclimb.sound i other hother (by simpa using hne.symm))
        hstale.sound_updateNode_some hself ?_ (updateNode_maxOrder ..)
      · cases path with
        | nil => simp at hq
        | cons r path =>
          obtain rfl : r = q := by simpa using hq
          exact (hchild r p).mpr hup.2.1
      · rw [updateNode_bounds]
        exact .refl _
    obtain ⟨nodes', hrun, hsound, hchild'', hentries⟩ := ih hchild' hup.2 hnext
    refine ⟨nodes', by simpa [propagate, hget] using hrun, hsound, hchild'', ?_⟩
    rw [hentries, map_entry_set hget]
    rw [hstale.entry, updateNode_entry _ _ _ _ hstale.entry]

end BoundsTree

end Lucie
