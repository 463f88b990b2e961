import Lucie.BoundsTree.Attach
import Lucie.BoundsTree.Search
import Mathlib.Data.List.MinMax

/-!
# Insertion agrees with the naive scan

A tree represents the rectangles inserted since the last clear, with their orders.
Every insertion keeps this and returns what a scan over those rectangles gives.
-/

set_option autoImplicit false

namespace Lucie.BoundsTree

open Relation Foundation

variable {U : Type} [AddCommGroup U] [LinearOrder U]

section InsertLeaf

variable {nodes : List (Node U)} {root : ℕ}

/-- A new leaf in the arena is not in the tree yet. -/
theorem Sound.append_leaf (hsound : Sound nodes) (bounds : Bounds U) (order : ℕ) :
    Sound (nodes ++ [⟨bounds, order, .leaf order⟩]) := by
  refine hsound.append ⟨?_, by simp, .nil, by simp [Node.children], by simp [Node.children]⟩
  rintro entry hentry
  rw [← Option.some.inj hentry]

omit [AddCommGroup U] [LinearOrder U] in
theorem isChild_append_leaf (bounds : Bounds U) (order : ℕ) :
    IsChild (nodes ++ [⟨bounds, order, .leaf order⟩]) = IsChild nodes := by
  funext q c
  simp [isChild_append, Node.children]

/-- What an inserted leaf does to the arena. -/
structure Inserted (nodes : List (Node U)) (bounds : Bounds U) (order : ℕ)
    (nodes' : List (Node U)) (root' : ℕ) : Prop where
  sound : Sound nodes'
  shape : Shape nodes' root'
  entries : ∃ k, nodes'.map Node.entry =
    nodes.map Node.entry ++ some (bounds, order) :: List.replicate k none

/-- The first leaf becomes the root. -/
theorem insertLeaf_none (bounds : Bounds U) (order : ℕ) :
    ∃ nodes' root', insertLeaf [] none bounds order = some (nodes', root') ∧
      Inserted [] bounds order nodes' root' := by
  have hsound : Sound ([] : List (Node U)) := by simp [Sound]
  have hchild : IsChild ([] ++ [⟨bounds, order, .leaf order⟩]) = IsChild ([] : List (Node U)) :=
    isChild_append_leaf bounds order
  refine ⟨_, _, rfl, hsound.append_leaf bounds order, ⟨by simp, ?_, fun i entry hentry => ?_⟩,
    0, rfl⟩
  · rw [hchild]
    exact ⟨fun p _ _ h => absurd h (by simp [IsChild]), fun p => by simp [IsChild],
      fun _ => 0, by simp, fun p c h => absurd h (by simp [IsChild])⟩
  · obtain ⟨node, hget, -⟩ := hentry
    obtain rfl : i = 0 := by simpa using (List.getElem?_eq_some_iff.mp hget).1
    exact .refl

/-- A root that is a leaf gets a new parent. -/
theorem insertLeaf_leaf (hsound : Sound nodes) (hshape : Shape nodes root) {rootNode : Node U}
    {rootOrder : ℕ} (hget : nodes[root]? = some rootNode) (hkind : rootNode.kind = .leaf rootOrder)
    (bounds : Bounds U) (order : ℕ) :
    ∃ nodes' root', insertLeaf nodes (some root) bounds order = some (nodes', root') ∧
      Inserted nodes bounds order nodes' root' := by
  set leaf : Node U := ⟨bounds, order, .leaf order⟩ with hleaf
  have hgetRoot : (nodes ++ [leaf])[root]? = some rootNode := by
    rw [List.getElem?_append_left hshape.root_lt, hget]
  have hgetLeaf : (nodes ++ [leaf])[nodes.length]? = some leaf := by simp
  have hne : root ≠ nodes.length := hshape.root_lt.ne
  have hentryRoot : IsEntry nodes root (rootNode.bounds, rootOrder) :=
    ⟨rootNode, hget, by simp [Node.entry, hkind]⟩
  have hsoundLeaf := hsound.append_leaf bounds order
  have hchild : ∀ q c, IsChild (nodes ++ [leaf] ++ [pairNode rootNode root nodes.length bounds
      order]) q c ↔ IsChild nodes q c ∨ (q = nodes.length + 1 ∧ (c = root ∨ c = nodes.length)) := by
    intro q c
    rw [isChild_append, isChild_append_leaf, mem_pairNode, List.length_append,
      List.length_singleton]
  refine ⟨nodes ++ [leaf] ++ [pairNode rootNode root nodes.length bounds order], nodes.length + 1,
    ?_, hsoundLeaf.append (sound_pairNode hgetRoot hgetLeaf hne), ⟨by simp, ?_, ?_⟩, 1, by
      simp [hleaf, pairNode, Node.entry]⟩
  · simp only [insertLeaf, ← hleaf, hgetRoot, hkind, pairNode, Option.bind_eq_bind,
      Option.bind_some, List.length_append, List.length_singleton]
  · have hfresh : Fresh (IsChild nodes) (nodes.length + 1) :=
      ⟨fun p h => by have := hsound.closed h; omega, fun c hc => by
        obtain ⟨_, h, _⟩ := hc
        have := (List.getElem?_eq_some_iff.mp h).1
        omega⟩
    exact hshape.tree.splitRoot hfresh hsound.fresh (by omega)
      (by have := hshape.root_lt; omega) hne.symm
      (not_isChild_of_entry hentryRoot) (by simp) hchild
  · have hmono : ∀ i, ReflTransGen (IsChild nodes) root i →
        ReflTransGen (IsChild (nodes ++ [leaf] ++
          [pairNode rootNode root nodes.length bounds order])) (nodes.length + 1) i := fun i hi =>
      .head ((hchild _ _).mpr (.inr ⟨rfl, .inl rfl⟩))
        (ReflTransGen.mono (fun p c h => (hchild p c).mpr (.inl h)) _ _ hi)
    rintro i entry ⟨node, hi, hentry⟩
    rcases Nat.lt_or_ge i nodes.length with hlt | hge
    · rw [List.append_assoc, List.getElem?_append_left hlt] at hi
      exact hmono i (hshape.reach i entry ⟨node, hi, hentry⟩)
    · rcases Nat.eq_or_lt_of_le hge with rfl | hgt
      · exact .single ((hchild _ _).mpr (.inr ⟨rfl, .inr rfl⟩))
      · have := (List.getElem?_eq_some_iff.mp hi).1
        obtain rfl : i = nodes.length + 1 := by simp at this; omega
        exact .refl

/-- A reachable vertex stays reachable when a leaf is attached. -/
theorem Site.Attached.reach {site : Site nodes root} {grown : List (Node U)} {prev : ℕ}
    {node' : Node U} (attached : site.Attached grown prev node') {i : ℕ}
    (hi : ReflTransGen (IsChild nodes) root i) :
    ReflTransGen (IsChild (grown.set site.current node')) root i := by
  induction hi with
  | refl => exact .refl
  | @tail p c _ hpc ih =>
    rcases eq_or_ne c site.best with rfl | hne
    · obtain rfl := site.tree.unique p site.current site.best hpc site.edge
      exact ih.trans attached.reach_best
    · exact ih.tail (attached.keeps p c hpc hne)

/-- Attaching a leaf and propagating it up the path makes the arena sound again. -/
theorem Site.attach_propagate (site : Site nodes root) {path : List ℕ}
    (hup : UpPath (IsChild nodes) root site.current path) :
    ∃ grown nodes',
      attach nodes site.current site.best site.pos site.newLeaf site.bounds site.order =
        some grown ∧
      propagate site.bounds site.order grown none (site.current :: path) = some nodes' ∧
      Sound nodes' ∧ RootedTree (IsChild nodes') root nodes'.length ∧
      (∀ i, ReflTransGen (IsChild nodes) root i → ReflTransGen (IsChild nodes') root i) ∧
      ReflTransGen (IsChild nodes') root site.newLeaf ∧
      ∃ k, nodes'.map Node.entry = nodes.map Node.entry ++ List.replicate k none := by
  obtain ⟨grown, prev, node', hattach, attached⟩ := site.attach_spec
  have hlt := (List.getElem?_eq_some_iff.mp attached.get).1
  have hself : (grown.set site.current node')[site.current]? = some node' :=
    List.getElem?_set_self hlt
  have hperm := updateNode_children_perm site.bounds site.order none node'
  have hsound' := attached.stale.sound_updateNode none fun h => by
    rw [show (updateNode site.bounds site.order none node').children = node'.children by
      simp [Node.children]]
    exact attached.last h
  set node'' := updateNode site.bounds site.order none node' with hnode''
  have hchild : ∀ p c, IsChild (grown.set site.current node'') p c ↔
      IsChild (grown.set site.current node') p c := by
    intro p c
    rw [← isChild_set_perm hself hperm, List.set_set]
  have hup' : UpPath (IsChild (grown.set site.current node')) root site.current path := by
    refine hup.mono site.best_leaf (fun h => ?_) attached.keeps
    exact site.tree.irrefl _ (h ▸ site.edge)
  have hinto : ∀ q, IsChild grown q site.current →
      IsChild (grown.set site.current node') q site.current := by
    intro q hq
    refine (isChild_set hlt q site.current).mpr (.inr ⟨?_, hq⟩)
    rintro rfl
    obtain ⟨node, hget, hmem⟩ := hq
    obtain rfl := Option.some.inj (attached.get.symm.trans hget)
    exact site.tree.irrefl _ ⟨_, site.get, hmem⟩
  have hirrefl : site.current ∉ node''.children := fun h =>
    attached.tree.irrefl _ ⟨node', hself, hperm.mem_iff.mp h⟩
  have hclimb : Climb site.bounds site.order (grown.set site.current node'') site.current path := by
    refine climb_of_set attached.tree hinto hup' (fun q hq => ?_) attached.get
      (fun i other hother _ => attached.sound i other hother) hsound' hirrefl ?_ ?_
    · have hedge : IsChild (grown.set site.current node') q site.current := by
        cases path with
        | nil => simp at hq
        | cons r path =>
          obtain rfl : r = q := by simpa using hq
          exact hup'.1
      rcases (isChild_set hlt q site.current).mp hedge with ⟨rfl, h⟩ | ⟨-, h⟩
      exacts [absurd hedge (attached.tree.irrefl _), h]
    · rw [hnode'', updateNode_bounds]
      exact attached.covers.union (.union_right _ _)
    · rw [hnode'', updateNode_maxOrder, attached.order]
  obtain ⟨nodes', hrun, hsound, hchild', hentries⟩ :=
    propagate_spec attached.tree hchild hup' hclimb
  have hrel : IsChild nodes' = IsChild (grown.set site.current node') := by
    funext p c
    exact propext (hchild' p c)
  have hentry'' : node''.entry = site.node.entry := by
    rw [updateNode_entry _ _ _ _ attached.stale.entry]
    simp [Node.entry, site.kind]
  rw [map_entry_set attached.get hentry''] at hentries
  refine ⟨_, nodes', hattach, ?_, hsound, ?_, ?_, ?_, ?_⟩
  · rw [propagate, hself]
    simpa [List.set_set] using hrun
  · have hlength := congrArg List.length hentries
    rw [List.length_map, List.length_map] at hlength
    rw [hrel, hlength]
    exact attached.tree
  · rw [hrel]
    exact fun i => attached.reach
  · rw [hrel]
    exact hup'.reach.trans attached.reach_leaf
  · rw [hentries]
    exact attached.entries

/-- An internal root: the leaf is attached where the descent ends. -/
theorem insertLeaf_internal (hsound : Sound nodes) (hshape : Shape nodes root)
    {rootNode : Node U} (hget : nodes[root]? = some rootNode) (hentry : rootNode.entry = none)
    (bounds : Bounds U) (order : ℕ) :
    ∃ nodes' root', insertLeaf nodes (some root) bounds order = some (nodes', root') ∧
      Inserted nodes bounds order nodes' root' := by
  set leaf : Node U := ⟨bounds, order, .leaf order⟩ with hleaf
  have hgetRoot : (nodes ++ [leaf])[root]? = some rootNode := by
    rw [List.getElem?_append_left hshape.root_lt, hget]
  have hchild : IsChild (nodes ++ [leaf]) = IsChild nodes := isChild_append_leaf bounds order
  have hsoundLeaf : Sound (nodes ++ [leaf]) := hsound.append_leaf bounds order
  have htree : RootedTree (IsChild (nodes ++ [leaf])) root (nodes ++ [leaf]).length := by
    rw [hchild]
    exact hshape.tree.mono (by simp)
  obtain ⟨⟨current, path, best, pos⟩, hdescend, hspot⟩ := descend_spec hsoundLeaf htree bounds
    hgetRoot hentry (Nat.le_succ _)
  obtain ⟨hup, ⟨node, children, hnode, hkind, hbest⟩, entry, sibling, hsibling, hentryBest⟩ := hspot
  let site : Site (nodes ++ [leaf]) root :=
    { current, best, pos, newLeaf := nodes.length, bounds, order, node, sibling, children
      sound := hsoundLeaf
      tree := htree
      root_lt := (List.getElem?_eq_some_iff.mp hgetRoot).1
      get := hnode
      kind := hkind
      best_get := hbest
      sibling_get := hsibling
      best_leaf := not_isChild_of_entry ⟨sibling, hsibling, hentryBest⟩
      leaf_get := by simp [hleaf]
      fresh := fun p => by rw [hchild]; exact hsound.fresh.not_child p
      root_ne := hshape.root_lt.ne' }
  obtain ⟨grown, nodes', hattach, hpropagate, hsound', htree', hreach, hreachLeaf, k, hentries⟩ :=
    site.attach_propagate hup
  refine ⟨nodes', root, ?_, hsound', ⟨?_, htree', ?_⟩, k, ?_⟩
  · obtain ⟨rootChildren, hrootKind, -⟩ := Node.children_of_entry hentry
    simp only [insertLeaf, ← hleaf, hgetRoot, hrootKind, hdescend, Option.bind_eq_bind,
      Option.bind_some]
    rw [show attach (nodes ++ [leaf]) current best pos nodes.length bounds order = some grown
      from hattach, Option.bind_some, show propagate bounds order grown none (current :: path) =
      some nodes' from hpropagate, Option.bind_some]
  · have hlength := congrArg List.length hentries
    simp only [List.length_map, List.length_append] at hlength
    have := hshape.root_lt
    omega
  · intro i other hother
    rw [isEntry_iff_map, hentries] at hother
    rcases Nat.lt_or_ge i (nodes ++ [leaf]).length with hlt | hge
    · rw [List.getElem?_append_left (by simpa using hlt), ← isEntry_iff_map] at hother
      rcases Nat.lt_or_ge i nodes.length with hlt' | hge'
      · obtain ⟨below, hbelow, hentryBelow⟩ := hother
        rw [List.getElem?_append_left hlt'] at hbelow
        exact hreach i (hchild ▸ hshape.reach i other ⟨below, hbelow, hentryBelow⟩)
      · obtain rfl : i = nodes.length := by simp at hlt; omega
        exact hreachLeaf
    · rw [List.getElem?_append_right (by simpa using hge), List.getElem?_replicate] at hother
      split_ifs at hother
      exact nomatch Option.some.inj hother
  · rw [hentries]
    simp [hleaf, Node.entry]

end InsertLeaf

/-- The greatest order among the earlier rectangles that a new one overlaps. -/
def maxIntersecting (history : List (Bounds U × ℕ)) (query : Bounds U) : ℕ :=
  ((history.filter fun entry => query.intersects entry.1).map Prod.snd).foldr max 0

/-- A tree represents the rectangles inserted since the last clear, with their orders. -/
inductive Represents : BoundsTree U → List (Bounds U × ℕ) → Prop
  | empty : Represents empty []
  | tree {nodes : List (Node U)} {root maxLeaf : ℕ} {greatest : Bounds U × ℕ}
      (sound : Sound nodes) (shape : Shape nodes root) (leaf : IsEntry nodes maxLeaf greatest)
      (upper : ∀ i entry, IsEntry nodes i entry → entry.2 ≤ greatest.2) :
      Represents ⟨nodes, some root, some maxLeaf⟩ (nodes.filterMap Node.entry)

omit [AddCommGroup U] [LinearOrder U] in
theorem mem_filterMap_entry {nodes : List (Node U)} (entry : Bounds U × ℕ) :
    entry ∈ nodes.filterMap Node.entry ↔ ∃ i, IsEntry nodes i entry := by
  simp only [List.mem_filterMap, IsEntry]
  constructor
  · rintro ⟨node, hnode, hentry⟩
    obtain ⟨i, hi⟩ := List.mem_iff_getElem?.mp hnode
    exact ⟨i, node, hi, hentry⟩
  · rintro ⟨i, node, hi, hentry⟩
    exact ⟨node, List.mem_of_getElem? hi, hentry⟩

/-- The greatest order that the search finds is that of the scan. -/
theorem IsMaxOrder.eq_maxIntersecting {nodes : List (Node U)} {query : Bounds U} {order : ℕ}
    (h : IsMaxOrder nodes query order) :
    order = maxIntersecting (nodes.filterMap Node.entry) query := by
  refine le_antisymm ?_ ?_
  · rcases h.attained with rfl | ⟨i, entry, hentry, hover, rfl⟩
    · exact Nat.zero_le _
    · refine List.le_max_of_le' 0 (List.mem_map.mpr ⟨entry, List.mem_filter.mpr ⟨?_, hover⟩, rfl⟩)
        (Nat.le_refl _)
      exact (mem_filterMap_entry entry).mpr ⟨i, hentry⟩
  · refine List.max_le_of_forall_le _ _ fun order' horder' => ?_
    obtain ⟨entry, hentry, rfl⟩ := List.mem_map.mp horder'
    obtain ⟨hmem, hover⟩ := List.mem_filter.mp hentry
    obtain ⟨i, hi⟩ := (mem_filterMap_entry entry).mp hmem
    exact h.upper i entry hi hover

/-- The query with its fast path agrees with the scan. -/
theorem findMaxOrdering_spec {tree : BoundsTree U} {history : List (Bounds U × ℕ)}
    (h : Represents tree history) (query : Bounds U) :
    findMaxOrdering tree query = some (maxIntersecting history query) := by
  cases h with
  | empty => rfl
  | @tree nodes root maxLeaf greatest sound shape leaf upper =>
    obtain ⟨order, hsearch, horder⟩ := searchTree_spec shape sound query
    obtain ⟨maxNode, hget, hentry⟩ := leaf
    simp only [findMaxOrdering, hget, Option.bind_eq_bind, Option.bind_some]
    split_ifs with hover
    · rw [← Node.entry_fst hentry] at hover
      rw [(sound maxLeaf maxNode hget).leaf greatest hentry]
      refine congrArg some (IsMaxOrder.eq_maxIntersecting ⟨.inr ?_, fun i entry hi _ => ?_⟩)
      · exact ⟨maxLeaf, greatest, ⟨maxNode, hget, hentry⟩, hover, rfl⟩
      · exact upper i entry hi
    · rw [hsearch, horder.eq_maxIntersecting]

namespace Inserted

variable {nodes nodes' : List (Node U)} {bounds : Bounds U} {order root' : ℕ}

/-- The new leaf is the first new node. -/
theorem isEntry_new (inserted : Inserted nodes bounds order nodes' root') :
    IsEntry nodes' nodes.length (bounds, order) := by
  obtain ⟨k, hentries⟩ := inserted.entries
  rw [isEntry_iff_map, hentries, List.getElem?_append_right (by simp)]
  simp

/-- The old leaves keep their entries. -/
theorem isEntry_old (inserted : Inserted nodes bounds order nodes' root') {i : ℕ}
    {entry : Bounds U × ℕ} (h : IsEntry nodes i entry) : IsEntry nodes' i entry := by
  obtain ⟨k, hentries⟩ := inserted.entries
  rw [isEntry_iff_map] at h ⊢
  rw [hentries, List.getElem?_append_left (List.getElem?_eq_some_iff.mp h).1, h]

/-- The entries after the insertion. -/
theorem history_eq (inserted : Inserted nodes bounds order nodes' root') :
    nodes'.filterMap Node.entry = nodes.filterMap Node.entry ++ [(bounds, order)] := by
  have hid : ∀ l : List (Node U), l.filterMap Node.entry = (l.map Node.entry).filterMap id := by
    simp [List.filterMap_map]
  obtain ⟨k, hentries⟩ := inserted.entries
  rw [hid nodes', hentries, List.filterMap_append, ← hid nodes]
  simp

/-- The tree after the insertion, with the leaf of the greatest order. -/
theorem represents (inserted : Inserted nodes bounds order nodes' root') {maxLeaf : ℕ}
    {greatest : Bounds U × ℕ} (hleaf : IsEntry nodes' maxLeaf greatest) (hnew : order ≤ greatest.2)
    (hold : ∀ i entry, IsEntry nodes i entry → entry.2 ≤ greatest.2) :
    Represents ⟨nodes', some root', some maxLeaf⟩
      (nodes.filterMap Node.entry ++ [(bounds, order)]) := by
  rw [← inserted.history_eq]
  refine .tree inserted.sound inserted.shape hleaf fun i entry hentry => ?_
  have hmem := (mem_filterMap_entry entry).mpr ⟨i, hentry⟩
  rw [inserted.history_eq, List.mem_append, List.mem_singleton, mem_filterMap_entry] at hmem
  rcases hmem with ⟨j, hj⟩ | rfl
  exacts [hold j entry hj, hnew]

end Inserted

/-- Every insertion keeps the representation, whatever the orders are. -/
theorem insert_represents {tree : BoundsTree U} {history : List (Bounds U × ℕ)}
    (h : Represents tree history) (bounds : Bounds U) :
    ∃ tree', insert tree bounds = some (tree', (maxIntersecting history bounds + 1) % 2 ^ 32) ∧
      Represents tree' (history ++ [(bounds, (maxIntersecting history bounds + 1) % 2 ^ 32)]) := by
  have hquery := findMaxOrdering_spec h bounds
  set order := (maxIntersecting history bounds + 1) % 2 ^ 32 with horder
  cases h with
  | empty =>
    obtain ⟨nodes', root', hrun, inserted⟩ := insertLeaf_none bounds order
    refine ⟨⟨nodes', some root', some 0⟩, ?_, inserted.represents inserted.isEntry_new
      (Nat.le_refl _) (by simp [IsEntry])⟩
    simp only [insert, hquery, Option.bind_eq_bind, Option.bind_some, ← horder]
    simp only [empty, hrun, Option.bind_some, List.length_nil]
  | @tree nodes root maxLeaf greatest sound shape leaf upper =>
    obtain ⟨rootNode, hget⟩ := exists_node shape.root_lt
    obtain ⟨nodes', root', hrun, inserted⟩ : ∃ nodes' root',
        insertLeaf nodes (some root) bounds order = some (nodes', root') ∧
          Inserted nodes bounds order nodes' root' := by
      cases hkind : rootNode.kind with
      | leaf rootOrder => exact insertLeaf_leaf sound shape hget hkind bounds order
      | internal children =>
        exact insertLeaf_internal sound shape hget (by simp [Node.entry, hkind]) bounds order
    have hleaf := inserted.isEntry_old leaf
    obtain ⟨maxNode, hmax, hentry⟩ := id hleaf
    have hmaxOrder := (inserted.sound maxLeaf maxNode hmax).leaf greatest hentry
    refine ⟨⟨nodes', some root', some (if maxNode.maxOrder < order then nodes.length else maxLeaf)⟩,
      ?_, ?_⟩
    · simp only [insert, hquery, Option.bind_eq_bind, Option.bind_some, ← horder, hrun, hmax]
    · rw [hmaxOrder]
      split_ifs with hlt
      · exact inserted.represents inserted.isEntry_new (Nat.le_refl _)
          fun i entry hi => (upper i entry hi).trans hlt.le
      · exact inserted.represents hleaf (Nat.le_of_not_lt hlt) upper

/-- A step of a client of the tree. -/
inductive Op (U : Type)
  | insert (bounds : Bounds U)
  | clear

/-- `BoundsTree::clear`. -/
def clear (_ : BoundsTree U) : BoundsTree U := empty

/-- Run the steps of a client and collect the orders that the insertions return. -/
def run : BoundsTree U → List (Op U) → Option (BoundsTree U × List ℕ)
  | tree, [] => some (tree, [])
  | tree, .insert bounds :: ops => do
    let (tree, order) ← tree.insert bounds
    let (tree, orders) ← run tree ops
    some (tree, order :: orders)
  | tree, .clear :: ops => run tree.clear ops

/-- The orders of a naive scan over the rectangles since the last clear. -/
def scan : List (Bounds U × ℕ) → List (Op U) → List ℕ
  | _, [] => []
  | history, .insert bounds :: ops =>
    let order := 1 + maxIntersecting history bounds
    order :: scan (history ++ [(bounds, order)]) ops
  | _, .clear :: ops => scan [] ops

/-- The number of insertions among the steps. -/
def inserts : List (Op U) → ℕ
  | [] => 0
  | .insert _ :: ops => inserts ops + 1
  | .clear :: ops => inserts ops

/-- The orders of a history are at most its length. -/
def Small (history : List (Bounds U × ℕ)) : Prop := ∀ entry ∈ history, entry.2 ≤ history.length

theorem Small.maxIntersecting_le {history : List (Bounds U × ℕ)} (h : Small history)
    (query : Bounds U) : maxIntersecting history query ≤ history.length := by
  refine List.max_le_of_forall_le _ _ fun order horder => ?_
  obtain ⟨entry, hentry, rfl⟩ := List.mem_map.mp horder
  exact h entry (List.mem_filter.mp hentry).1

/-- A run from a represented tree agrees with the scan. -/
theorem run_represents {ops : List (Op U)} {tree : BoundsTree U} {history : List (Bounds U × ℕ)}
    (h : Represents tree history) (hsmall : Small history)
    (hcount : history.length + inserts ops < 2 ^ 32 - 1) :
    ∃ tree', run tree ops = some (tree', scan history ops) := by
  induction ops generalizing tree history with
  | nil => exact ⟨tree, rfl⟩
  | cons op ops ih =>
    cases op with
    | clear => exact ih .empty (by simp [Small]) (by simp only [inserts] at hcount; simp; omega)
    | insert bounds =>
      obtain ⟨tree', hinsert, h'⟩ := insert_represents h bounds
      have hle := hsmall.maxIntersecting_le bounds
      simp only [inserts] at hcount
      rw [Nat.mod_eq_of_lt (by omega), Nat.add_comm] at hinsert h'
      have hsmall' : Small (history ++ [(bounds, 1 + maxIntersecting history bounds)]) := by
        intro entry hentry
        rw [List.mem_append, List.mem_singleton] at hentry
        rw [List.length_append, List.length_singleton]
        rcases hentry with hentry | rfl
        · exact (hsmall entry hentry).trans (Nat.le_succ _)
        · dsimp only
          omega
      obtain ⟨tree'', hrun⟩ := ih h' hsmall' (by
        rw [List.length_append, List.length_singleton]
        omega)
      exact ⟨tree'', by simp [run, hinsert, hrun, scan]⟩

/-- The insertions return what the naive scan returns. -/
theorem run_eq_scan (ops : List (Op U)) (hcount : inserts ops < 2 ^ 32 - 1) :
    ∃ tree, run empty ops = some (tree, scan [] ops) :=
  run_represents .empty (by simp [Small]) (by simpa using hcount)

/-- Squares along a diagonal, the last one after a clear. -/
def squares : List (Op ℤ) :=
  [.insert ⟨⟨0, 0⟩, ⟨10, 10⟩⟩, .insert ⟨⟨5, 5⟩, ⟨10, 10⟩⟩, .insert ⟨⟨10, 10⟩, ⟨10, 10⟩⟩,
    .insert ⟨⟨20, 20⟩, ⟨10, 10⟩⟩, .clear, .insert ⟨⟨5, 5⟩, ⟨10, 10⟩⟩]

theorem run_eq_scan_squares : ∃ tree, run empty squares = some (tree, [1, 2, 3, 1, 1]) :=
  run_eq_scan squares (by decide)

end Lucie.BoundsTree
