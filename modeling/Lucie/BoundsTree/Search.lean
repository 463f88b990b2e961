import Lucie.BoundsTree.Shape
import Mathlib.Algebra.BigOperators.Group.List.Basic
import Mathlib.Algebra.Order.BigOperators.Group.List
import Mathlib.Tactic.Ring

/-!
# Searching a bounds tree

The search keeps a stack of subtrees that may still improve the result. Its
invariant is that every overlapping leaf with a greater order than the one found so
far hangs below the stack; a subtree that is pruned has no such leaf.
-/

set_option autoImplicit false

namespace Lucie.BoundsTree

open Relation

variable {U : Type} [AddCommGroup U] [LinearOrder U]

/-- `order` is the greatest order of the leaves of an arena that overlap a query,
and zero when there is none. -/
structure IsMaxOrder (nodes : List (Node U)) (query : Bounds U) (order : ℕ) : Prop where
  attained : order = 0 ∨ ∃ i entry, IsEntry nodes i entry ∧
    query.intersects entry.1 = true ∧ entry.2 = order
  upper : ∀ i entry, IsEntry nodes i entry → query.intersects entry.1 = true → entry.2 ≤ order

omit [AddCommGroup U] [LinearOrder U] in
/-- Pushing the promising children of a node. -/
theorem pushChildren_spec {nodes : List (Node U)} (maxFound : ℕ) {children : List ℕ}
    (hclosed : ∀ c ∈ children, c < nodes.length) (weight : ℕ → ℕ) {bound : ℕ}
    (hbound : ∀ c ∈ children, weight c ≤ bound) (stack : List ℕ) :
    ∃ stack', pushChildren nodes maxFound children stack = some stack' ∧
      (∀ i, i ∈ stack' ↔ i ∈ stack ∨
        (i ∈ children ∧ ∃ node, nodes[i]? = some node ∧ maxFound < node.maxOrder)) ∧
      (stack'.map weight).sum ≤ (stack.map weight).sum + children.length * bound := by
  induction children generalizing stack with
  | nil => exact ⟨stack, rfl, by simp, by simp⟩
  | cons child children ih =>
    obtain ⟨node, hget⟩ := exists_node (hclosed child (by simp))
    obtain ⟨stack', hpush, hmem, hsum⟩ := ih (fun c hc => hclosed c (by simp [hc]))
      (fun c hc => hbound c (by simp [hc]))
      (if node.maxOrder > maxFound then child :: stack else stack)
    refine ⟨stack', by simp [pushChildren, hget, hpush], fun i => ?_, ?_⟩
    · rw [hmem]
      split_ifs with hmore
      · simp only [List.mem_cons]
        constructor
        · rintro ((rfl | hi) | ⟨hi, hnode⟩)
          exacts [.inr ⟨.inl rfl, _, hget, hmore⟩, .inl hi, .inr ⟨.inr hi, hnode⟩]
        · rintro (hi | ⟨rfl | hi, hnode⟩)
          exacts [.inl (.inr hi), .inl (.inl rfl), .inr ⟨hi, hnode⟩]
      · simp only [List.mem_cons]
        constructor
        · rintro (hi | ⟨hi, hnode⟩)
          exacts [.inl hi, .inr ⟨.inr hi, hnode⟩]
        · rintro (hi | ⟨rfl | hi, other, hnode, hlt⟩)
          · exact .inl hi
          · obtain rfl := Option.some.inj (hget.symm.trans hnode)
            exact absurd hlt hmore
          · exact .inr ⟨hi, other, hnode, hlt⟩
    · have hchild := hbound child (by simp)
      rw [List.length_cons, Nat.add_one_mul]
      split_ifs at hsum with hmore
      · rw [List.map_cons, List.sum_cons] at hsum
        omega
      · omega

section Search

variable {nodes : List (Node U)} {root : ℕ} {query : Bounds U}

/-- The invariant of the search. -/
structure SearchInv (nodes : List (Node U)) (query : Bounds U) (s : List ℕ × ℕ) : Prop where
  closed : ∀ i ∈ s.1, i < nodes.length
  attained : s.2 = 0 ∨ ∃ i entry, IsEntry nodes i entry ∧
    query.intersects entry.1 = true ∧ entry.2 = s.2
  ahead : ∀ i entry, IsEntry nodes i entry → query.intersects entry.1 = true → s.2 < entry.2 →
    ∃ top ∈ s.1, ReflTransGen (IsChild nodes) top i

/-- The weight of a stack: a subtree counts for all its descendants. -/
def stackWeight (rank : ℕ → ℕ) (stack : List ℕ) : ℕ :=
  (stack.map fun i => (MAX_CHILDREN + 1) ^ rank i).sum

/-- A subtree without a promising leaf can be dropped from the stack. -/
theorem SearchInv.drop {index maxFound : ℕ} {stack : List ℕ}
    (hinv : SearchInv nodes query (index :: stack, maxFound))
    (hnone : ∀ i entry, IsEntry nodes i entry → query.intersects entry.1 = true →
      ReflTransGen (IsChild nodes) index i → entry.2 ≤ maxFound) :
    SearchInv nodes query (stack, maxFound) := by
  refine ⟨fun i hi => hinv.closed i (by simp [hi]), hinv.attained,
    fun i entry hentry hover hlt => ?_⟩
  obtain ⟨top, htop, hreach⟩ := hinv.ahead i entry hentry hover hlt
  rcases List.mem_cons.mp htop with rfl | htop
  · exact absurd (hnone i entry hentry hover hreach) (Nat.not_le.mpr hlt)
  · exact ⟨top, htop, hreach⟩

/-- One round of the search. -/
theorem searchRound_advances (hsound : Sound nodes) {rank : ℕ → ℕ}
    (hrank : ∀ p c, IsChild nodes p c → rank c < rank p) {s : List ℕ × ℕ}
    (hinv : SearchInv nodes query s) :
    Foundation.Advances (SearchInv nodes query) (fun s => stackWeight rank s.1)
      (IsMaxOrder nodes query) (stackWeight rank s.1) (searchRound nodes query s) := by
  obtain ⟨stack, maxFound⟩ := s
  cases stack with
  | nil =>
    refine ⟨hinv.attained, fun i entry hentry hover => ?_⟩
    by_contra! hlt
    obtain ⟨top, htop, -⟩ := hinv.ahead i entry hentry hover hlt
    simp at htop
  | cons index stack =>
    obtain ⟨node, hget⟩ := exists_node (hinv.closed index (by simp))
    have hpos : 0 < (MAX_CHILDREN + 1) ^ rank index := Nat.pow_pos (by decide)
    have hweight : stackWeight rank stack < stackWeight rank (index :: stack) := by
      simp only [stackWeight, List.map_cons, List.sum_cons]
      omega
    -- what a leaf below this node owes to the node
    have hbelow : ∀ i entry, IsEntry nodes i entry → ReflTransGen (IsChild nodes) index i →
        entry.2 ≤ node.maxOrder ∧ (query.intersects entry.1 = true →
          query.intersects node.bounds = true) := by
      rintro i entry ⟨leaf, hleaf, hentry⟩ hreach
      have hdom := hsound.dominates hreach hget hleaf
      rw [← (hsound _ leaf hleaf).leaf entry hentry, Node.entry_fst hentry]
      exact ⟨hdom.2, hdom.1.intersects_of⟩
    simp only [searchRound, hget, Option.bind_eq_bind, Option.bind_some]
    split_ifs with hsmall hapart
    · exact ⟨hinv.drop fun i entry hentry _ hreach =>
        (hbelow i entry hentry hreach).1.trans hsmall, hweight⟩
    · refine ⟨hinv.drop fun i entry hentry hover hreach => ?_, hweight⟩
      rw [(hbelow i entry hentry hreach).2 hover] at hapart
      exact absurd hapart (by decide)
    · obtain ⟨hclosed, hattained, hahead⟩ := hinv
      simp only at hattained hahead
      cases hkind : node.kind with
      | leaf order =>
        have hleaf : IsEntry nodes index (node.bounds, order) :=
          ⟨node, hget, by simp [Node.entry, hkind]⟩
        refine ⟨⟨fun i hi => hclosed i (by simp [hi]), ?_, fun i entry hentry hover hlt => ?_⟩,
          hweight⟩
        · rcases Nat.le_total maxFound order with hle | hle
          · exact .inr ⟨index, _, hleaf, by simpa using hapart, (max_eq_right hle).symm⟩
          · simpa only [max_eq_left hle] using hattained
        · obtain ⟨hltFound, hltOrder⟩ := max_lt_iff.mp hlt
          obtain ⟨top, htop, hreach⟩ := hahead i entry hentry hover hltFound
          rcases List.mem_cons.mp htop with rfl | htop
          · rcases hreach.cases_head with rfl | ⟨c, hc, -⟩
            · obtain ⟨node', hget', hentry'⟩ := hentry
              obtain rfl : node = node' := Option.some.inj (hget.symm.trans hget')
              obtain rfl : (node.bounds, order) = entry := by
                simpa [Node.entry, hkind] using hentry'
              exact absurd hltOrder (Nat.lt_irrefl order)
            · exact absurd hc (not_isChild_of_entry hleaf c)
          · exact ⟨top, htop, hreach⟩
      | internal children =>
        have hchildren : node.children = children.indices := by simp [Node.children, hkind]
        have hchild : ∀ c ∈ children.indices, IsChild nodes index c :=
          fun c hc => ⟨node, hget, hchildren ▸ hc⟩
        have hbound : ∀ c ∈ children.indices,
            (MAX_CHILDREN + 1) ^ rank c ≤ (MAX_CHILDREN + 1) ^ (rank index - 1) :=
          fun c hc => Nat.pow_le_pow_right (Nat.succ_pos _)
            (Nat.le_sub_one_of_lt (hrank index c (hchild c hc)))
        obtain ⟨stack', hpush, hmem, hsum⟩ := pushChildren_spec maxFound
          (fun c hc => hsound.closed (hchild c hc))
          (fun i => (MAX_CHILDREN + 1) ^ rank i) hbound stack
        simp only [hpush, Option.bind_some]
        refine ⟨⟨fun i hi => ?_, hattained, fun i entry hentry hover hlt => ?_⟩, ?_⟩
        · rcases (hmem i).mp hi with hi | ⟨hi, -⟩
          exacts [hclosed i (by simp [hi]), hsound.closed (hchild i hi)]
        · obtain ⟨top, htop, hreach⟩ := hahead i entry hentry hover hlt
          rcases List.mem_cons.mp htop with rfl | htop
          · rcases hreach.cases_head with rfl | ⟨c, hc, hreach'⟩
            · obtain ⟨node', hget', hentry'⟩ := hentry
              obtain rfl : node = node' := Option.some.inj (hget.symm.trans hget')
              simp [Node.entry, hkind] at hentry'
            · obtain ⟨below, hbelowGet⟩ := exists_node (hsound.closed hc)
              obtain ⟨leaf, hleaf, hentry'⟩ := hentry
              have hdom := hsound.dominates hreach' hbelowGet hleaf
              rw [Node.Dominates, (hsound _ leaf hleaf).leaf entry hentry']
                at hdom
              obtain ⟨node', hget', hc'⟩ := hc
              obtain rfl : node = node' := Option.some.inj (hget.symm.trans hget')
              exact ⟨c, (hmem c).mpr (.inr ⟨hchildren ▸ hc', below, hbelowGet,
                hlt.trans_le hdom.2⟩), hreach'⟩
          · exact ⟨top, (hmem top).mpr (.inl htop), hreach⟩
        · have hcapacity := children.capacity
          have hless : children.indices.length * (MAX_CHILDREN + 1) ^ (rank index - 1) <
              (MAX_CHILDREN + 1) ^ rank index := by
            cases hr : rank index with
            | zero =>
              have hnil : children.indices = [] := by
                refine List.eq_nil_iff_forall_not_mem.mpr fun c hc => ?_
                have := hrank index c (hchild c hc)
                omega
              simp [hnil]
            | succ r =>
              rw [Nat.succ_sub_one, Nat.pow_succ, Nat.mul_comm _ (MAX_CHILDREN + 1)]
              exact Nat.mul_lt_mul_of_pos_right (Nat.lt_succ_of_le hcapacity)
                (Nat.pow_pos (Nat.succ_pos _))
          simp only [stackWeight, List.map_cons, List.sum_cons]
          omega

/-- The search returns the greatest order of the leaves that overlap the query. -/
theorem searchTree_spec (hshape : Shape nodes root) (hsound : Sound nodes)
    (query : Bounds U) :
    ∃ order, searchTree nodes root query = some order ∧ IsMaxOrder nodes query order := by
  obtain ⟨rank, hlt, hrank⟩ := hshape.tree.rank
  refine Foundation.loop_of_advances (SearchInv nodes query) (fun s => stackWeight rank s.1)
    (fun s hs => searchRound_advances hsound hrank hs) ?_ ?_
  · refine ⟨by simpa using hshape.root_lt, .inl rfl, fun i entry hentry _ _ => ?_⟩
    exact ⟨root, by simp, hshape.reach i entry hentry⟩
  · have hpow : (MAX_CHILDREN + 1) ^ rank root ≤ (MAX_CHILDREN + 1) ^ nodes.length :=
      Nat.pow_le_pow_right (Nat.succ_pos _) (hlt root).le
    simp only [stackWeight, List.map_cons, List.map_nil, List.sum_cons, List.sum_nil]
    omega

end Search

end Lucie.BoundsTree
