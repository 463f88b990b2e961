import Mathlib.Logic.Relation
import Mathlib.Tactic.Common

/-!
# Rooted trees as relations

A tree over arbitrary vertices, given by its child relation: parents are unique,
the root has none, and a rank that decreases to the children bounds the height.
Two ways to grow such a tree are a new leaf below an inner vertex and a new inner
vertex in the place of a leaf.
-/

set_option autoImplicit false

namespace Lucie.Foundation

/-- The child relation of a tree with the given root and a height below `bound`. -/
structure RootedTree {V : Type*} (child : V → V → Prop) (root : V) (bound : ℕ) : Prop where
  unique : ∀ p q c, child p c → child q c → p = q
  root_not_child : ∀ p, ¬ child p root
  rank : ∃ rank : V → ℕ, (∀ v, rank v < bound) ∧ ∀ p c, child p c → rank c < rank p

/-- A vertex that takes no part in a relation. -/
structure Fresh {V : Type*} (child : V → V → Prop) (v : V) : Prop where
  not_child : ∀ p, ¬ child p v
  no_child : ∀ c, ¬ child v c

/-- A path from a vertex up to the root: every entry is the parent of the one before. -/
def UpPath {V : Type*} (child : V → V → Prop) (root : V) : V → List V → Prop
  | v, [] => v = root
  | v, p :: path => child p v ∧ UpPath child root p path

/-- The vertex at the lower end of a path is reachable. -/
theorem UpPath.reach {V : Type*} {child : V → V → Prop} {root v : V} {path : List V}
    (h : UpPath child root v path) : Relation.ReflTransGen child root v := by
  induction path generalizing v with
  | nil => exact h ▸ .refl
  | cons p path ih => exact (ih h.2).tail h.1

/-- A reachable vertex has a path. -/
theorem exists_upPath {V : Type*} {child : V → V → Prop} {root v : V}
    (h : Relation.ReflTransGen child root v) : ∃ path, UpPath child root v path := by
  induction h with
  | refl => exact ⟨[], rfl⟩
  | @tail p c _ hpc ih =>
    obtain ⟨path, hpath⟩ := ih
    exact ⟨p :: path, hpc, hpath⟩

/-- A path from an inner vertex survives a change of the edges to one leaf. -/
theorem UpPath.mono {V : Type*} {child child' : V → V → Prop} {root v b : V} {path : List V}
    (h : UpPath child root v path) (hleaf : ∀ c, ¬ child b c) (hv : v ≠ b)
    (hchild : ∀ p c, child p c → c ≠ b → child' p c) : UpPath child' root v path := by
  induction path generalizing v with
  | nil => exact h
  | cons p path ih =>
    refine ⟨hchild p v h.1 hv, ih h.2 fun hp => hleaf v (hp ▸ h.1)⟩

namespace RootedTree

variable {V : Type*} {child child' : V → V → Prop} {root p n l b : V} {bound : ℕ}

theorem mono (tree : RootedTree child root bound) {bound' : ℕ} (hbound : bound ≤ bound') :
    RootedTree child root bound' := by
  obtain ⟨rank, hlt, hrank⟩ := tree.rank
  exact ⟨tree.unique, tree.root_not_child, rank, fun v => Nat.lt_of_lt_of_le (hlt v) hbound, hrank⟩

/-- No vertex is its own child. -/
theorem irrefl (tree : RootedTree child root bound) (v : V) : ¬ child v v := by
  obtain ⟨rank, -, hrank⟩ := tree.rank
  exact fun h => Nat.lt_irrefl _ (hrank v v h)

/-- There is only one path to a vertex. -/
theorem upPath_unique (tree : RootedTree child root bound) {v : V} {path path' : List V}
    (h : UpPath child root v path) (h' : UpPath child root v path') : path = path' := by
  induction path generalizing v path' with
  | nil =>
    cases path' with
    | nil => rfl
    | cons q path' => exact absurd (h ▸ h'.1) (tree.root_not_child q)
  | cons p path ih =>
    cases path' with
    | nil => exact absurd (h' ▸ h.1) (tree.root_not_child p)
    | cons q path' =>
      obtain rfl := tree.unique p q v h.1 h'.1
      rw [ih h.2 h'.2]

/-- What holds of a vertex as soon as it holds of its children holds everywhere. -/
theorem induction_down (tree : RootedTree child root bound) {motive : V → Prop}
    (h : ∀ p, (∀ c, child p c → motive c) → motive p) (v : V) : motive v := by
  obtain ⟨rank, -, hrank⟩ := tree.rank
  exact (measure rank).wf.induction v fun p ih => h p fun c hc => ih c (hrank p c hc)

/-- A new leaf `l` below a vertex `p` that has a child already. -/
theorem addLeaf (tree : RootedTree child root bound) (hl : Fresh child l) (hroot : l ≠ root)
    (hlp : l ≠ p) (hinner : ∃ c, child p c) {bound' : ℕ} (hbound : bound ≤ bound')
    (hchild : ∀ q c, child' q c ↔ child q c ∨ (q = p ∧ c = l)) :
    RootedTree child' root bound' := by
  classical
  obtain ⟨hunique, hroot', rank, hlt, hrank⟩ := tree
  refine ⟨fun q q' c hq hq' => ?_, fun q hq => ?_, fun v => if v = l then 0 else rank v,
    fun v => ?_, fun q c hq => ?_⟩
  · rcases (hchild q c).mp hq with hq | ⟨rfl, rfl⟩ <;>
      rcases (hchild q' _).mp hq' with hq' | ⟨rfl, hc⟩
    · exact hunique q q' c hq hq'
    · exact absurd (hc ▸ hq) (hl.not_child q)
    · exact absurd hq' (hl.not_child q')
    · rfl
  · rcases (hchild q root).mp hq with hq | ⟨-, hc⟩
    · exact hroot' q hq
    · exact hroot hc.symm
  · have := hlt v
    dsimp only
    split <;> omega
  · rcases (hchild q c).mp hq with hq | ⟨rfl, rfl⟩
    · have hc : c ≠ l := fun hc => hl.not_child q (hc ▸ hq)
      have hq' : q ≠ l := fun hq' => hl.no_child c (hq' ▸ hq)
      simpa [hc, hq'] using hrank q c hq
    · obtain ⟨c', hc'⟩ := hinner
      have := hrank _ _ hc'
      simp only [if_true, if_neg hlp.symm]
      omega

/-- A new inner vertex `n` takes the place of the leaf `b` below `p`; its children are
`b` and a new leaf `l`. -/
theorem splitLeaf (tree : RootedTree child root bound) (hn : Fresh child n) (hl : Fresh child l)
    (hnl : n ≠ l) (hnroot : n ≠ root) (hlroot : l ≠ root) (hb : ∀ c, ¬ child b c)
    (hpb : child p b) {bound' : ℕ} (hbound : bound + 1 ≤ bound')
    (hchild : ∀ q c, child' q c ↔ (child q c ∧ ¬ (q = p ∧ c = b)) ∨ (q = p ∧ c = n) ∨
      (q = n ∧ (c = b ∨ c = l))) :
    RootedTree child' root bound' := by
  classical
  obtain ⟨hunique, hroot', rank, hlt, hrank⟩ := tree
  have hbn : b ≠ n := fun h => hn.not_child p (h ▸ hpb)
  have hbl : b ≠ l := fun h => hl.not_child p (h ▸ hpb)
  have hpn : p ≠ n := fun h => hn.no_child b (h ▸ hpb)
  have hbroot : b ≠ root := fun h => hroot' p (h ▸ hpb)
  have hnc := hn.not_child
  have hlc := hl.not_child
  refine ⟨fun q q' c hq hq' => ?_, fun q hq => ?_, fun v => if v = n then 1 else
    if ∃ c, child v c then rank v + 1 else 0, fun v => ?_, fun q c hq => ?_⟩
  · rw [hchild] at hq hq'
    grind
  · rw [hchild] at hq
    grind
  · have := hlt v
    dsimp only
    split_ifs <;> omega
  · rcases (hchild q c).mp hq with ⟨hq, -⟩ | ⟨rfl, rfl⟩ | ⟨rfl, rfl | rfl⟩
    · -- an old edge: every inner vertex is one higher, and leaves are at the bottom
      have hcn : c ≠ n := fun h => hnc q (h ▸ hq)
      have hqn : q ≠ n := fun h => hn.no_child c (h ▸ hq)
      have := hrank q c hq
      simp only [if_neg hcn, if_neg hqn, if_pos (show ∃ c, child q c from ⟨c, hq⟩)]
      split_ifs <;> omega
    · have := hrank q b hpb
      simp only [if_true, if_neg hpn, if_pos (show ∃ c, child q c from ⟨b, hpb⟩)]
      omega
    · simp [hbn, hb]
    · simp [hnl.symm, hl.no_child]

/-- A new root `n` over a root that is a leaf, together with a new leaf `l`. -/
theorem splitRoot (tree : RootedTree child root bound) (hn : Fresh child n) (hl : Fresh child l)
    (hnl : n ≠ l) (hnroot : n ≠ root) (hlroot : l ≠ root) (hleaf : ∀ c, ¬ child root c)
    {bound' : ℕ} (hbound : bound + 1 ≤ bound')
    (hchild : ∀ q c, child' q c ↔ child q c ∨ (q = n ∧ (c = root ∨ c = l))) :
    RootedTree child' n bound' := by
  classical
  obtain ⟨hunique, hroot', rank, hlt, hrank⟩ := tree
  have hnc := hn.not_child
  have hlc := hl.not_child
  refine ⟨fun q q' c hq hq' => ?_, fun q hq => ?_, fun v => if v = n then 1 else
    if ∃ c, child v c then rank v + 1 else 0, fun v => ?_, fun q c hq => ?_⟩
  · rw [hchild] at hq hq'
    grind
  · rw [hchild] at hq
    grind
  · have := hlt v
    dsimp only
    split_ifs <;> omega
  · rcases (hchild q c).mp hq with hq | ⟨rfl, rfl | rfl⟩
    · have hcn : c ≠ n := fun h => hnc q (h ▸ hq)
      have hqn : q ≠ n := fun h => hn.no_child c (h ▸ hq)
      have := hrank q c hq
      simp only [if_neg hcn, if_neg hqn, if_pos (show ∃ c, child q c from ⟨c, hq⟩)]
      split_ifs <;> omega
    · simp [hnroot.symm, hleaf]
    · simp [hnl.symm, hl.no_child]

end RootedTree

end Lucie.Foundation
