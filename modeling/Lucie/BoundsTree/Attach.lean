import Lucie.BoundsTree.Propagate
import Mathlib.Data.List.Nodup

/-!
# Attaching a leaf

The descent ends at an internal node whose best child is a leaf. The new leaf goes
next to that child, or into a new internal node together with it. Either way one node
is stale afterwards and the tree has grown by the new leaf.
-/

set_option autoImplicit false

namespace Lucie.BoundsTree

open Relation Foundation

variable {U : Type} [AddCommGroup U] [LinearOrder U] {nodes : List (Node U)}

/-- The best child is the initial one or one of the rest. -/
theorem bestChild_spec (bounds : Bounds U) (children : List ℕ)
    (hclosed : ∀ c ∈ children, c < nodes.length) (pos bestIndex bestPos : ℕ) (bestCost : U) :
    ∃ best, bestChild nodes bounds children pos bestIndex bestPos bestCost = some best ∧
      (best = (bestIndex, bestPos) ∨ ∃ k, children[k]? = some best.1 ∧ best.2 = pos + k) := by
  induction children generalizing pos bestIndex bestPos bestCost with
  | nil => exact ⟨_, rfl, .inl rfl⟩
  | cons c children ih =>
    obtain ⟨node, hget⟩ := exists_node (hclosed c (by simp))
    have hrest : ∀ d ∈ children, d < nodes.length := fun d hd => hclosed d (by simp [hd])
    simp only [bestChild, hget, Option.bind_eq_bind, Option.bind_some]
    split_ifs
    · obtain ⟨best, hrun, hbest⟩ := ih hrest (pos + 1) c pos
        (bounds.union node.bounds).halfPerimeter
      refine ⟨best, hrun, .inr ?_⟩
      rcases hbest with rfl | ⟨k, hk, hpos⟩
      · exact ⟨0, rfl, rfl⟩
      · exact ⟨k + 1, hk, by omega⟩
    · obtain ⟨best, hrun, hbest⟩ := ih hrest (pos + 1) bestIndex bestPos bestCost
      refine ⟨best, hrun, hbest.imp_right ?_⟩
      rintro ⟨k, hk, hpos⟩
      exact ⟨k + 1, hk, by omega⟩

/-- Where the descent ends: an internal node with the path above it, a child of it that
is a leaf, and the position of that child. -/
structure Spot (nodes : List (Node U)) (root : ℕ) (spot : ℕ × List ℕ × ℕ × ℕ) : Prop where
  up : UpPath (IsChild nodes) root spot.1 spot.2.1
  best : ∃ node children, nodes[spot.1]? = some node ∧ node.kind = .internal children ∧
    children.indices[spot.2.2.2]? = some spot.2.2.1
  leaf : ∃ entry, IsEntry nodes spot.2.2.1 entry

/-- The descent ends at a spot. -/
theorem descend_spec (hsound : Sound nodes) {root bound : ℕ}
    (tree : RootedTree (IsChild nodes) root bound) (bounds : Bounds U) {rootNode : Node U}
    (hroot : nodes[root]? = some rootNode) (hentry : rootNode.entry = none) {fuel : ℕ}
    (hfuel : bound ≤ fuel) :
    ∃ spot, loop (descendRound nodes bounds) fuel (root, []) = some spot ∧
      Spot nodes root spot := by
  obtain ⟨rank, hlt, hrank⟩ := tree.rank
  refine loop_of_advances (fun s : ℕ × List ℕ => UpPath (IsChild nodes) root s.1 s.2 ∧
      ∃ node, nodes[s.1]? = some node ∧ node.entry = none) (fun s => rank s.1) ?_
    ⟨rfl, rootNode, hroot, hentry⟩ ((hlt root).trans_le hfuel)
  rintro ⟨current, path⟩ ⟨hup, node, hget, hinner⟩
  obtain ⟨children, hkind, hchildren⟩ := Node.children_of_entry hinner
  have hchild : ∀ c ∈ children.indices, IsChild nodes current c :=
    fun c hc => ⟨node, hget, hchildren ▸ hc⟩
  have htwo := (hsound current node hget).two children hkind
  cases hindices : children.indices with
  | nil => simp [hindices] at htwo
  | cons first rest =>
    rw [hindices] at hchild
    obtain ⟨firstNode, hfirst⟩ := exists_node (hsound.closed (hchild first (by simp)))
    obtain ⟨⟨best, pos⟩, hrun, hbest⟩ := bestChild_spec bounds rest
      (fun c hc => hsound.closed (hchild c (by simp [hc]))) 1 first 0
      (bounds.union firstNode.bounds).halfPerimeter
    have hpos : children.indices[pos]? = some best := by
      rw [hindices]
      rcases hbest with hbest | ⟨k, hk, hpos⟩
      · obtain ⟨rfl, rfl⟩ := Prod.mk.inj hbest
        rfl
      · obtain rfl : pos = 1 + k := hpos
        rwa [Nat.add_comm, List.getElem?_cons_succ]
    have hedge := hchild best (hindices ▸ List.mem_of_getElem? hpos)
    obtain ⟨bestNode, hbestGet⟩ := exists_node (hsound.closed hedge)
    cases hbestKind : bestNode.kind with
    | leaf order =>
      simp only [descendRound, hget, hkind, hindices, hfirst, hrun, hbestGet, hbestKind,
        Option.bind_eq_bind, Option.bind_some, Advances]
      exact ⟨hup, ⟨node, children, hget, hkind, hpos⟩, (bestNode.bounds, order), bestNode,
        hbestGet, by simp [Node.entry, hbestKind]⟩
    | internal bestChildren =>
      simp only [descendRound, hget, hkind, hindices, hfirst, hrun, hbestGet, hbestKind,
        Option.bind_eq_bind, Option.bind_some, Advances]
      exact ⟨⟨⟨hedge, hup⟩, bestNode, rfl, by simp [Node.entry, hbestKind]⟩,
        hrank current best hedge⟩

/-- The next index is a fresh vertex. -/
theorem Sound.fresh (hsound : Sound nodes) : Fresh (IsChild nodes) nodes.length :=
  ⟨fun _ h => Nat.lt_irrefl _ (hsound.closed h), fun _ ⟨_, hget, _⟩ =>
    Nat.lt_irrefl _ (List.getElem?_eq_some_iff.mp hget).1⟩

/-- An arena grows by a node that is sound. -/
theorem Sound.append (hsound : Sound nodes) {node : Node U} (hnode : node.Sound nodes) :
    Sound (nodes ++ [node]) := by
  have hframe : ∀ other : Node U, other.Sound nodes → other.Sound (nodes ++ [node]) := by
    refine fun other hother => hother.frame fun c hc => List.getElem?_append_left ?_
    obtain ⟨child, hget, -⟩ := hother.dominates c hc
    exact (List.getElem?_eq_some_iff.mp hget).1
  intro i other hget
  rcases Nat.lt_or_ge i nodes.length with hlt | hge
  · rw [List.getElem?_append_left hlt] at hget
    exact hframe other (hsound i other hget)
  · rw [List.getElem?_append_right hge, List.getElem?_singleton] at hget
    split_ifs at hget
    exact Option.some.inj hget ▸ hframe _ hnode

omit [AddCommGroup U] [LinearOrder U] in
/-- The children in an arena with a new node. -/
theorem isChild_append (node : Node U) (q c : ℕ) :
    IsChild (nodes ++ [node]) q c ↔ IsChild nodes q c ∨ (q = nodes.length ∧ c ∈ node.children) := by
  rcases eq_or_ne q nodes.length with rfl | hne
  · simp [IsChild]
  · simp only [hne, false_and, or_false]
    refine exists_congr fun other => and_congr_left fun _ => ?_
    rcases Nat.lt_or_gt_of_ne hne with hlt | hgt
    · rw [List.getElem?_append_left hlt]
    · rw [List.getElem?_eq_none (by simp; omega), List.getElem?_eq_none (by omega)]

/-- The internal node that is made of a leaf and a new leaf. -/
def pairNode (sibling : Node U) (best newLeaf : ℕ) (bounds : Bounds U) (order : ℕ) : Node U :=
  ⟨sibling.bounds.union bounds, max sibling.maxOrder order,
    .internal (if order > sibling.maxOrder then .pair best newLeaf else .pair newLeaf best)⟩

section Pair

variable {sibling : Node U} {best newLeaf : ℕ} {bounds : Bounds U} {order : ℕ}

theorem mem_pairNode (c : ℕ) :
    c ∈ (pairNode sibling best newLeaf bounds order).children ↔ c = best ∨ c = newLeaf := by
  unfold pairNode Node.children NodeChildren.pair
  split_ifs <;> simp [or_comm]

/-- A pair is sound. -/
theorem sound_pairNode (hbest : nodes[best]? = some sibling)
    (hleaf : nodes[newLeaf]? = some ⟨bounds, order, .leaf order⟩) (hne : best ≠ newLeaf) :
    (pairNode sibling best newLeaf bounds order).Sound nodes := by
  refine ⟨by simp [pairNode, Node.entry], fun children hkind => ?_, ?_, fun c hc => ?_,
    fun c hc => ?_⟩
  · obtain rfl := NodeKind.internal.inj hkind
    split_ifs <;> exact Nat.le_refl 2
  · unfold pairNode Node.children NodeChildren.pair
    split_ifs <;> simp [hne, hne.symm]
  · rcases (mem_pairNode c).mp hc with rfl | rfl
    · exact ⟨_, hbest, .union_left _ _, le_max_left _ _⟩
    · exact ⟨_, hleaf, .union_right _ _, le_max_right _ _⟩
  · unfold pairNode Node.children NodeChildren.pair at hc
    rcases Nat.lt_or_ge sibling.maxOrder order with hlt | hle
    · obtain rfl : newLeaf = c := by simpa [hlt] using hc
      exact ⟨_, hleaf, (max_eq_right hlt.le).symm⟩
    · obtain rfl : best = c := by simpa [Nat.not_lt.mpr hle] using hc
      exact ⟨_, hbest, (max_eq_left hle).symm⟩

end Pair

/-- A place to attach a new leaf that is in the arena already: below `current`, whose
child `best` is a leaf. -/
structure Site (nodes : List (Node U)) (root : ℕ) where
  current : ℕ
  best : ℕ
  pos : ℕ
  newLeaf : ℕ
  bounds : Bounds U
  order : ℕ
  node : Node U
  sibling : Node U
  children : NodeChildren
  sound : Sound nodes
  tree : RootedTree (IsChild nodes) root nodes.length
  root_lt : root < nodes.length
  get : nodes[current]? = some node
  kind : node.kind = .internal children
  best_get : children.indices[pos]? = some best
  sibling_get : nodes[best]? = some sibling
  best_leaf : ∀ c, ¬ IsChild nodes best c
  leaf_get : nodes[newLeaf]? = some ⟨bounds, order, .leaf order⟩
  fresh : ∀ p, ¬ IsChild nodes p newLeaf
  root_ne : newLeaf ≠ root

namespace Site

variable {root : ℕ} (site : Site nodes root)

/-- What attaching the leaf leaves behind: an arena that may have grown, and a stale
node in the place of the one below which the leaf went. -/
structure Attached (grown : List (Node U)) (prev : ℕ) (node' : Node U) : Prop where
  sound : Sound grown
  get : grown[site.current]? = some site.node
  stale : Stale grown site.bounds site.order prev node'
  last : node'.maxOrder < site.order → node'.children.getLast? = some prev
  covers : (site.node.bounds.union site.bounds).Covers node'.bounds
  order : max node'.maxOrder site.order = max site.node.maxOrder site.order
  entries : ∃ k, grown.map Node.entry = nodes.map Node.entry ++ List.replicate k none
  tree : RootedTree (IsChild (grown.set site.current node')) root grown.length
  keeps : ∀ p c, IsChild nodes p c → c ≠ site.best → IsChild (grown.set site.current node') p c
  reach_best : ReflTransGen (IsChild (grown.set site.current node')) site.current site.best
  reach_leaf : ReflTransGen (IsChild (grown.set site.current node')) site.current site.newLeaf

theorem children_eq : site.node.children = site.children.indices := by
  simp [Node.children, site.kind]

theorem nodup : site.children.indices.Nodup :=
  site.children_eq ▸ (site.sound _ _ site.get).nodup

/-- A child in the list is a child in the arena. -/
theorem isChild {c : ℕ} (hc : c ∈ site.children.indices) : IsChild nodes site.current c :=
  ⟨site.node, site.get, site.children_eq ▸ hc⟩

/-- The best child is a child. -/
theorem edge : IsChild nodes site.current site.best :=
  site.isChild (List.mem_of_getElem? site.best_get)

/-- The node bounds its best child. -/
theorem dominates : site.node.Dominates site.sibling := by
  obtain ⟨child, hget, hdom⟩ := (site.sound _ _ site.get).dominates site.best
    (site.children_eq ▸ List.mem_of_getElem? site.best_get)
  rwa [Option.some.inj (site.sibling_get.symm.trans hget)]

/-- The new leaf is a fresh vertex. -/
theorem leaf_fresh : Fresh (IsChild nodes) site.newLeaf :=
  ⟨site.fresh, not_isChild_of_entry ⟨_, site.leaf_get, rfl⟩⟩

theorem leaf_not_mem : site.newLeaf ∉ site.children.indices :=
  fun h => site.fresh _ (site.isChild h)

theorem leaf_ne_current : site.newLeaf ≠ site.current :=
  fun h => site.leaf_fresh.no_child site.best (h ▸ site.edge)

/-- The old children are bounded by the node after it has grown. -/
theorem child_bounded {c : ℕ} (hc : c ∈ site.children.indices) : ∃ child, nodes[c]? = some child ∧
    (site.node.bounds.union site.bounds).Covers child.bounds ∧
      child.maxOrder ≤ max site.node.maxOrder site.order := by
  obtain ⟨child, hget, hdom⟩ := (site.sound _ _ site.get).dominates c (site.children_eq ▸ hc)
  exact ⟨child, hget, (Bounds.Covers.union_left _ _).trans hdom.1, hdom.2.trans (le_max_left _ _)⟩

/-- The children after the new leaf was added next to the best child. -/
def roomChildren : List ℕ :=
  if site.order ≤ site.node.maxOrder then
    (site.children.indices ++ [site.newLeaf]).swap (site.children.indices.length - 1)
      site.children.indices.length
  else site.children.indices ++ [site.newLeaf]

theorem roomChildren_perm :
    site.roomChildren.Perm (site.newLeaf :: site.children.indices) := by
  have hsnoc := List.perm_append_singleton site.newLeaf site.children.indices
  unfold roomChildren
  split_ifs
  · exact (List.swap_perm _ _ _).trans hsnoc
  · exact hsnoc

/-- The last child stays last, unless the new leaf has a greater order. -/
theorem getLast?_roomChildren : site.roomChildren.getLast? =
    if site.order ≤ site.node.maxOrder then site.children.indices.getLast?
    else some site.newLeaf := by
  unfold roomChildren
  split_ifs
  · have hpos : 0 < site.children.indices.length :=
      List.length_pos_of_mem (List.mem_of_getElem? site.best_get)
    have hlast : site.children.indices.length - 1 <
        (site.children.indices ++ [site.newLeaf]).length := by
      rw [List.length_append, List.length_singleton]
      omega
    have hswap := getLast?_swap_last (site.children.indices ++ [site.newLeaf]) hlast
    rw [List.length_append, List.length_singleton, Nat.add_sub_cancel,
      List.getElem?_append_left (by omega)] at hswap
    rw [hswap, List.getLast?_eq_getElem?]
  · simp

/-- The node after the new leaf was added next to the best child. -/
def roomNode (hroom : site.children.indices.length < MAX_CHILDREN) : Node U :=
  ⟨site.node.bounds.union site.bounds, max site.node.maxOrder site.order,
    .internal ⟨site.roomChildren, by
      rw [site.roomChildren_perm.length_eq, List.length_cons]
      exact hroom⟩⟩

theorem attach_room (hroom : site.children.indices.length < MAX_CHILDREN) :
    attach nodes site.current site.best site.pos site.newLeaf site.bounds site.order =
      some (nodes.set site.current (site.roomNode hroom)) := by
  simp only [attach, site.get, site.kind, Option.bind_eq_bind, Option.bind_some, if_pos hroom,
    NodeChildren.push, dif_pos hroom, roomNode, roomChildren, NodeChildren.swap,
    List.length_append, List.length_singleton, Nat.add_sub_cancel]
  split_ifs <;> rfl

/-- A node with room is stale after the new leaf was added to it. -/
theorem stale_roomNode (hroom : site.children.indices.length < MAX_CHILDREN) :
    Stale nodes site.bounds site.order site.newLeaf (site.roomNode hroom) := by
  have hperm := site.roomChildren_perm
  have hchildren : (site.roomNode hroom).children = site.roomChildren := rfl
  refine ⟨rfl, ?_, ?_, fun c hc => ?_, ⟨?_, _, site.leaf_get, fun _ => rfl⟩, fun c hc => ?_⟩
  · rw [hchildren, hperm.length_eq, List.length_cons]
    have := List.length_pos_of_mem (List.mem_of_getElem? site.best_get)
    omega
  · rw [hchildren, hperm.nodup_iff, List.nodup_cons]
    exact ⟨site.leaf_not_mem, site.nodup⟩
  · rw [hchildren, hperm.mem_iff, List.mem_cons] at hc
    rcases hc with rfl | hc
    · exact ⟨_, site.leaf_get, .union_right _ _, le_max_right _ _⟩
    · obtain ⟨child, hget, hcovers, hle⟩ := site.child_bounded hc
      exact ⟨child, hget, (Bounds.Covers.union_left _ _).trans hcovers, hle.trans (le_max_left _ _)⟩
  · rw [hchildren, hperm.mem_iff]
    exact List.mem_cons_self
  · rw [hchildren, site.getLast?_roomChildren] at hc
    split_ifs at hc with hle
    · obtain ⟨child, hget, horder⟩ := (site.sound _ _ site.get).last c (site.children_eq ▸ hc)
      exact ⟨child, hget, fun _ => horder.trans (max_eq_left hle).symm⟩
    · obtain rfl : site.newLeaf = c := by simpa using hc
      exact ⟨_, site.leaf_get, fun _ => (max_eq_right (Nat.le_of_not_le hle)).symm⟩

/-- The child relation after the new leaf was added next to the best child. -/
theorem isChild_room (hroom : site.children.indices.length < MAX_CHILDREN) (q c : ℕ) :
    IsChild (nodes.set site.current (site.roomNode hroom)) q c ↔
      IsChild nodes q c ∨ (q = site.current ∧ c = site.newLeaf) := by
  have hmem : c ∈ (site.roomNode hroom).children ↔ c = site.newLeaf ∨ c ∈ site.children.indices :=
    site.roomChildren_perm.mem_iff.trans List.mem_cons
  rw [isChild_set (List.getElem?_eq_some_iff.mp site.get).1, hmem]
  constructor
  · rintro (⟨rfl, rfl | hc⟩ | ⟨-, hc⟩)
    exacts [.inr ⟨rfl, rfl⟩, .inl (site.isChild hc), .inl hc]
  · rintro (hc | ⟨rfl, rfl⟩)
    · rcases eq_or_ne q site.current with rfl | hne
      · obtain ⟨node, hget, hc⟩ := hc
        obtain rfl := Option.some.inj (site.get.symm.trans hget)
        exact .inl ⟨rfl, .inr (site.children_eq ▸ hc)⟩
      · exact .inr ⟨hne, hc⟩
    · exact .inl ⟨rfl, .inl rfl⟩

/-- Attaching to a node with room. -/
theorem attached_room (hroom : site.children.indices.length < MAX_CHILDREN) :
    site.Attached nodes site.newLeaf (site.roomNode hroom) where
  sound := site.sound
  get := site.get
  stale := site.stale_roomNode hroom
  last h := absurd h (Nat.not_lt.mpr (le_max_right _ _))
  covers := .refl _
  order := by simp [roomNode]
  entries := ⟨0, by simp⟩
  tree := site.tree.addLeaf site.leaf_fresh site.root_ne site.leaf_ne_current
    ⟨_, site.edge⟩ (Nat.le_refl _) (site.isChild_room hroom)
  keeps p c hc _ := (site.isChild_room hroom p c).mpr (.inl hc)
  reach_best := .single ((site.isChild_room hroom _ _).mpr (.inl site.edge))
  reach_leaf := .single ((site.isChild_room hroom _ _).mpr (.inr ⟨rfl, rfl⟩))

/-- The new internal node that takes the place of the best child. -/
def splitNode : Node U :=
  pairNode site.sibling site.best site.newLeaf site.bounds site.order

/-- The children after the best child was replaced. -/
def fullChildren : NodeChildren :=
  if max site.sibling.maxOrder site.order > site.node.maxOrder then
    (site.children.set site.pos nodes.length).swap site.pos (site.children.indices.length - 1)
  else site.children.set site.pos nodes.length

/-- The node after its best child was replaced. -/
def fullNode : Node U := { site.node with kind := .internal site.fullChildren }

theorem attach_full (hfull : ¬ site.children.indices.length < MAX_CHILDREN) :
    attach nodes site.current site.best site.pos site.newLeaf site.bounds site.order =
      some ((nodes ++ [site.splitNode]).set site.current site.fullNode) := by
  simp only [attach, site.get, site.kind, Option.bind_eq_bind, Option.bind_some, if_neg hfull,
    site.sibling_get, fullNode, fullChildren, splitNode, pairNode, NodeChildren.set,
    List.length_set]

theorem leaf_lt : site.newLeaf < nodes.length := (List.getElem?_eq_some_iff.mp site.leaf_get).1

theorem best_ne_leaf : site.best ≠ site.newLeaf := fun h => site.fresh _ (h ▸ site.edge)

theorem sound_grown : Sound (nodes ++ [site.splitNode]) :=
  site.sound.append (sound_pairNode site.sibling_get site.leaf_get site.best_ne_leaf)

theorem fullChildren_perm :
    site.fullChildren.indices.Perm (site.children.indices.set site.pos nodes.length) := by
  unfold fullChildren
  split_ifs
  · exact List.swap_perm _ _ _
  · exact .refl _

theorem pos_lt : site.pos < site.children.indices.length :=
  (List.getElem?_eq_some_iff.mp site.best_get).1

/-- The children of the node after the replacement. -/
theorem mem_fullNode (c : ℕ) : c ∈ site.fullNode.children ↔
    (c ∈ site.children.indices ∧ c ≠ site.best) ∨ c = nodes.length := by
  obtain ⟨hlt, hbest⟩ := List.getElem?_eq_some_iff.mp site.best_get
  refine site.fullChildren_perm.mem_iff.trans ⟨fun hc => ?_, fun hc => ?_⟩
  · obtain ⟨i, hi⟩ := List.mem_iff_getElem?.mp hc
    rw [List.getElem?_set] at hi
    split_ifs at hi with hpos
    · exact .inr (Option.some.inj hi).symm
    · refine .inl ⟨List.mem_of_getElem? hi, ?_⟩
      rintro rfl
      exact hpos ((List.getElem?_inj hlt site.nodup).mp (site.best_get.trans hi.symm))
  · rcases hc with ⟨hc, hne⟩ | rfl
    · obtain ⟨i, hi⟩ := List.mem_iff_getElem?.mp hc
      have hpos : site.pos ≠ i := by
        rintro rfl
        exact hne (Option.some.inj (hi.symm.trans site.best_get))
      exact List.mem_of_getElem? ((List.getElem?_set_ne hpos).trans hi)
    · exact List.mem_set hlt _

/-- The last child stays last unless it is replaced, or the new internal node gets the
greatest order. -/
theorem getLast?_fullChildren : site.fullChildren.indices.getLast? =
    if site.order > site.node.maxOrder ∨ site.pos = site.children.indices.length - 1 then
      some nodes.length
    else site.children.indices.getLast? := by
  have hlt := site.pos_lt
  have hmax : max site.sibling.maxOrder site.order > site.node.maxOrder ↔
      site.order > site.node.maxOrder := by
    have := site.dominates.2
    simp only [gt_iff_lt, lt_max_iff]
    omega
  have hswap := getLast?_swap_last (site.children.indices.set site.pos nodes.length)
    (i := site.pos) (by simpa using hlt)
  rw [List.length_set, List.getElem?_set_self hlt] at hswap
  simp only [fullChildren, hmax]
  split_ifs with hgt hor hor
  · exact hswap
  · exact absurd (.inl hgt) hor
  · obtain hpos := hor.resolve_left hgt
    simp only [NodeChildren.set, List.getLast?_eq_getElem?, List.length_set, ← hpos,
      List.getElem?_set_self hlt]
  · have hne : site.pos ≠ site.children.indices.length - 1 := fun h => hor (.inr h)
    simp only [NodeChildren.set, List.getLast?_eq_getElem?, List.length_set,
      List.getElem?_set_ne hne]

theorem splitNode_get : (nodes ++ [site.splitNode])[nodes.length]? = some site.splitNode := by
  simp

/-- A full node is stale after its best child was replaced. -/
theorem stale_fullNode :
    Stale (nodes ++ [site.splitNode]) site.bounds site.order nodes.length site.fullNode := by
  have hdom := site.dominates
  have hperm : site.fullNode.children.Perm _ := site.fullChildren_perm
  have hold : ∀ {c child}, nodes[c]? = some child →
      (nodes ++ [site.splitNode])[c]? = some child := fun h => by
    rw [List.getElem?_append_left (List.getElem?_eq_some_iff.mp h).1, h]
  refine ⟨rfl, ?_, ?_, fun c hc => ?_, ⟨?_, _, site.splitNode_get, fun hlt => ?_⟩, fun c hc => ?_⟩
  · rw [hperm.length_eq, List.length_set]
    exact (site.sound _ _ site.get).two _ site.kind
  · rw [hperm.nodup_iff]
    exact List.Nodup.set site.nodup fun h => site.sound.fresh.not_child _ (site.isChild h)
  · rcases (site.mem_fullNode c).mp hc with ⟨hc, -⟩ | rfl
    · obtain ⟨child, hget, hchild⟩ := site.child_bounded hc
      exact ⟨child, hold hget, hchild⟩
    · exact ⟨_, site.splitNode_get,
        .union ((Bounds.Covers.union_left _ _).trans hdom.1) (.union_right _ _),
        max_le_max_right _ hdom.2⟩
  · exact (site.mem_fullNode _).mpr (.inr rfl)
  · exact max_eq_right (hdom.2.trans hlt.le)
  · obtain hc : site.fullChildren.indices.getLast? = some c := hc
    have hlastOld : ∀ c ∈ site.children.indices.getLast?, ∃ child, nodes[c]? = some child ∧
        child.maxOrder = site.node.maxOrder :=
      fun c hc => (site.sound _ _ site.get).last c (site.children_eq ▸ hc)
    rw [site.getLast?_fullChildren] at hc
    split_ifs at hc with hor
    · obtain rfl := Option.some.inj hc
      refine ⟨_, site.splitNode_get, fun hle => ?_⟩
      obtain hpos := hor.resolve_left (Nat.not_lt.mpr hle)
      obtain ⟨child, hget, horder⟩ := hlastOld site.best
        (by rw [List.getLast?_eq_getElem?, ← hpos, site.best_get]; rfl)
      obtain rfl := Option.some.inj (site.sibling_get.symm.trans hget)
      exact (congrArg (max · site.order) horder).trans (max_eq_left hle)
    · obtain ⟨child, hget, horder⟩ := hlastOld c hc
      exact ⟨child, hold hget, fun _ => horder⟩

/-- The child relation after the best child was replaced. -/
theorem isChild_full (q c : ℕ) :
    IsChild ((nodes ++ [site.splitNode]).set site.current site.fullNode) q c ↔
      (IsChild nodes q c ∧ ¬ (q = site.current ∧ c = site.best)) ∨
      (q = site.current ∧ c = nodes.length) ∨
      (q = nodes.length ∧ (c = site.best ∨ c = site.newLeaf)) := by
  have hlt := (List.getElem?_eq_some_iff.mp site.get).1
  have hold : IsChild nodes site.current c ↔ c ∈ site.children.indices := by
    refine ⟨fun ⟨node, hget, hc⟩ => ?_, site.isChild⟩
    obtain rfl := Option.some.inj (site.get.symm.trans hget)
    exact site.children_eq ▸ hc
  rw [isChild_set (by simp; omega), mem_fullNode]
  rcases eq_or_ne q site.current with rfl | hcur
  · simp only [true_and, ne_eq, not_true_eq_false, false_and, or_false, hold, hlt.ne]
  · simp only [hcur, false_and, ne_eq, not_false_eq_true, true_and, false_or, and_true]
    rw [isChild_append, splitNode, mem_pairNode]

/-- Attaching to a full node. -/
theorem attached_full : site.Attached (nodes ++ [site.splitNode]) nodes.length site.fullNode where
  sound := site.sound_grown
  get := by
    rw [List.getElem?_append_left (List.getElem?_eq_some_iff.mp site.get).1]
    exact site.get
  stale := site.stale_fullNode
  last h := by
    refine site.getLast?_fullChildren.trans (if_pos (.inl h))
  covers := .union_left _ _
  order := rfl
  entries := ⟨1, by simp [splitNode, pairNode, Node.entry]⟩
  tree := by
    rw [List.length_append]
    exact site.tree.splitLeaf site.sound.fresh site.leaf_fresh (Nat.ne_of_gt site.leaf_lt)
      (Nat.ne_of_gt site.root_lt) site.root_ne site.best_leaf site.edge (Nat.le_refl _)
      site.isChild_full
  keeps p c hc hne := (site.isChild_full p c).mpr (.inl ⟨hc, fun h => hne h.2⟩)
  reach_best := .tail (.single ((site.isChild_full _ _).mpr (.inr (.inl ⟨rfl, rfl⟩))))
    ((site.isChild_full _ _).mpr (.inr (.inr ⟨rfl, .inl rfl⟩)))
  reach_leaf := .tail (.single ((site.isChild_full _ _).mpr (.inr (.inl ⟨rfl, rfl⟩))))
    ((site.isChild_full _ _).mpr (.inr (.inr ⟨rfl, .inr rfl⟩)))

/-- Attaching the leaf does not panic. -/
theorem attach_spec : ∃ grown prev node',
    attach nodes site.current site.best site.pos site.newLeaf site.bounds site.order =
      some (grown.set site.current node') ∧ site.Attached grown prev node' := by
  by_cases hroom : site.children.indices.length < MAX_CHILDREN
  · exact ⟨_, _, _, site.attach_room hroom, site.attached_room hroom⟩
  · exact ⟨_, _, _, site.attach_full hroom, site.attached_full⟩

end Site

end Lucie.BoundsTree
