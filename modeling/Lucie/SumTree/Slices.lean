import Lucie.SumTree.CursorStack

/-!
# Slices of balanced trees

A slice is put together from whole nodes below the root and from leaves of the items that are
left over. So where all nodes below the root are filled, they are in a slice as well, and in the
tree that `insert_or_replace` makes of two slices and an item.
-/

set_option autoImplicit false

namespace Lucie

open SumTree (Balanced balanced_internal balanced_leaf append_balanced)

variable {α σ δ : Type} [Dimension δ σ] [AddMonoid σ]

namespace Cursor

variable {target : SeekTarget δ} {bias : Bias} {c c' : Cursor α σ δ} {tree : SumTree α σ}

/-- A stack of nodes below which all nodes are filled. -/
def BalancedStack (stack : List (StackEntry α σ δ)) : Prop :=
  ∀ entry ∈ stack, Balanced entry.tree

omit [Dimension δ σ] [AddMonoid σ] in
theorem BalancedStack.keptByWalks :
    KeptByWalks (BalancedStack : List (StackEntry α σ δ) → Prop) where
  nil entry hentry := by cases hentry
  tail h entry hentry := h entry (List.mem_cons_of_mem _ hentry)
  move h entry hentry := by
    obtain rfl | hentry := List.mem_cons.mp hentry
    · exact (List.forall_mem_cons.mp h).1
    · exact h entry (List.mem_cons_of_mem _ hentry)
  push h hchild entry hentry := by
    obtain rfl | hentry := List.mem_cons.mp hentry
    · exact (balanced_internal.mp (h _ List.mem_cons_self) _ hchild).balanced
    · exact h entry hentry

/-- The children that a seek passes are appended to the slice. -/
theorem seekChildren_balanced {entries : List (SumTree α σ × σ)} {index index' : ℕ}
    {entryPosition position entryPosition' position' : δ} {a a' : SliceSeekAggregate α σ}
    {child : Option (SumTree α σ)} (hentries : ∀ tree ∈ entries.map Prod.fst, Balanced tree)
    (ha : Balanced a.tree)
    (h : seekChildren target bias sliceAggregate entries index entryPosition position a =
      some (index', entryPosition', position', a', child)) : Balanced a'.tree := by
  induction entries generalizing index entryPosition position a with
  | nil =>
    simp only [seekChildren, Option.some.injEq, Prod.mk.injEq] at h
    obtain ⟨-, -, -, rfl, -⟩ := h
    exact ha
  | cons entry entries ih =>
    obtain ⟨childTree, childSummary⟩ := entry
    obtain ⟨hchild, hrest⟩ := List.forall_mem_cons.mp hentries
    rw [seekChildren] at h
    split_ifs at h
    · obtain ⟨a₁, hpush, h⟩ := Option.bind_eq_some_iff.mp h
      obtain ⟨tree, happend, hpush⟩ := Option.bind_eq_some_iff.mp hpush
      obtain rfl := Option.some.inj hpush
      exact ih hrest (append_balanced ha hchild happend).1 h
    · obtain ⟨-, -, -, rfl, -⟩ : index = index' ∧ entryPosition = entryPosition' ∧
          position = position' ∧ a = a' ∧ some childTree = child := by simpa using h
      exact ha

/-- The items that a seek passes are only collected. -/
theorem seekItems_tree {entries : List (α × σ)} {index index' : ℕ} {position position' : δ}
    {a a' : SliceSeekAggregate α σ} {found : Bool}
    (h : seekItems target bias sliceAggregate entries index position a =
      some (index', position', a', found)) : a'.tree = a.tree := by
  induction entries generalizing index position a with
  | nil =>
    simp only [seekItems, Option.some.injEq, Prod.mk.injEq] at h
    obtain ⟨-, -, rfl, -⟩ := h
    rfl
  | cons entry entries ih =>
    obtain ⟨item, itemSummary⟩ := entry
    rw [seekItems] at h
    split_ifs at h
    · obtain ⟨a₁, hpush, h⟩ := Option.bind_eq_some_iff.mp h
      obtain ⟨items, -, hpush⟩ := Option.bind_eq_some_iff.mp hpush
      obtain ⟨summaries, -, hpush⟩ := Option.bind_eq_some_iff.mp hpush
      obtain rfl := Option.some.inj hpush
      exact (ih h).trans rfl
    · obtain ⟨-, -, rfl, -⟩ : index = index' ∧ position = position' ∧ a = a' ∧ true = found := by
        simpa using h
      rfl

/-- A round of a seek that slices a balanced tree. -/
theorem seekRound_balanced {s : List (StackEntry α σ δ) × δ × Bool × SliceSeekAggregate α σ}
    {round : Foundation.Round (List (StackEntry α σ δ) × δ × Bool × SliceSeekAggregate α σ)
      (List (StackEntry α σ δ) × δ × SliceSeekAggregate α σ)}
    (hstack : BalancedStack s.1) (ha : Balanced s.2.2.2.tree)
    (hround : seekRound target bias sliceAggregate s = some round) :
    round.Leaves (fun s' => Balanced s'.2.2.2.tree) (fun r => Balanced r.2.2.tree) := by
  obtain ⟨stack, position, ascending, a⟩ := s
  cases stack with
  | nil =>
    obtain rfl := Option.some.inj hround
    exact ha
  | cons entry rest =>
    obtain ⟨tree, index, entryPosition⟩ := entry
    have htop : Balanced tree := hstack _ List.mem_cons_self
    cases tree with
    | internal height summary childSummaries childTrees =>
      have hchildren : ∀ index, ∀ tree ∈ ((childTrees.drop index).zip
          (childSummaries.drop index)).map Prod.fst, Balanced tree := by
        intro index tree htree
        obtain ⟨⟨tree, _⟩, hzip, rfl⟩ := List.mem_map.mp htree
        have hmem := List.mem_of_mem_drop (List.of_mem_zip hzip).1
        exact (balanced_internal.mp htop tree hmem).balanced
      simp only [Cursor.seekRound] at hround
      split_ifs at hround
      all_goals
        obtain ⟨⟨index', entryPosition', position', a', child⟩, hloop, hround⟩ :=
          Option.bind_eq_some_iff.mp hround
        have ha' := seekChildren_balanced (hchildren _) ha hloop
        cases child with
        | none =>
          obtain rfl := Option.some.inj hround
          exact ha'
        | some child =>
          obtain ⟨stack, -, hround⟩ := Option.bind_eq_some_iff.mp hround
          obtain rfl := Option.some.inj hround
          exact ha'
    | leaf summary items itemSummaries =>
      simp only [Cursor.seekRound, Option.bind_eq_bind, Option.bind_eq_some_iff] at hround
      obtain ⟨a₁, hbegin, hround⟩ := hround
      obtain rfl := Option.some.inj hbegin
      split_ifs at hround
      obtain ⟨⟨index', position', a₂, found⟩, hitems, hround⟩ := Option.bind_eq_some_iff.mp hround
      obtain ⟨a₃, hend, hround⟩ := Option.bind_eq_some_iff.mp hround
      obtain ⟨tree, happend, hend⟩ := Option.bind_eq_some_iff.mp hend
      obtain rfl := Option.some.inj hend
      have ha₂ : Balanced a₂.tree := seekItems_tree hitems ▸ ha
      have ha₃ := (append_balanced ha₂ balanced_leaf happend).1
      cases found with
      | true =>
        obtain rfl := Option.some.inj hround
        exact ha₃
      | false =>
        obtain rfl := Option.some.inj hround
        exact ha₃

/-- The nodes that a cursor is made of. -/
structure OverBalanced (c : Cursor α σ δ) : Prop where
  tree : Balanced c.tree
  stack : BalancedStack c.stack

omit [AddMonoid σ] in
theorem OverBalanced.new (h : Balanced tree) : OverBalanced (Cursor.new tree : Cursor α σ δ) :=
  ⟨h, fun entry hentry => by cases hentry⟩

/-- A slice of a balanced tree is balanced. -/
theorem OverBalanced.slice (hc : OverBalanced c) (h : c.slice target bias = some (c', tree)) :
    OverBalanced c' ∧ Balanced tree := by
  obtain ⟨⟨c₁, a, found⟩, hcall, heq⟩ := Option.bind_eq_some_iff.mp h
  obtain ⟨rfl, rfl⟩ := Prod.mk.inj (Option.some.inj heq)
  rw [seekInternal] at hcall
  split_ifs at hcall
  obtain ⟨stack, hstart, hcall⟩ := Option.bind_eq_some_iff.mp hcall
  obtain ⟨⟨stack', position', a'⟩, hloop, hcall⟩ := Option.bind_eq_some_iff.mp hcall
  obtain ⟨_, -, hcall⟩ := Option.bind_eq_some_iff.mp hcall
  obtain ⟨rfl, rfl, -⟩ : _ ∧ a' = a ∧ _ := by simpa using hcall
  have hstack : BalancedStack stack := by
    rw [seekStack] at hstart
    split_ifs at hstart
    · obtain rfl := Option.some.inj hstart
      exact hc.stack
    · obtain ⟨-, rfl⟩ := pushEntry_eq_some_iff.mp hstart
      exact List.forall_mem_cons.mpr ⟨hc.tree, hc.stack⟩
  have hrounds : ∀ (s : List (StackEntry α σ δ) × δ × Bool × SliceSeekAggregate α σ)
      (round : Foundation.Round _ (List (StackEntry α σ δ) × δ × SliceSeekAggregate α σ)),
      BalancedStack s.1 ∧ Balanced s.2.2.2.tree →
      seekRound target bias sliceAggregate s = some round →
      round.Leaves (fun s' => BalancedStack s'.1 ∧ Balanced s'.2.2.2.tree)
        fun r => BalancedStack r.1 ∧ Balanced r.2.2.tree := by
    intro s round hs hround
    have hstack' := BalancedStack.keptByWalks.seekRound hs.1 hround
    have ha' := seekRound_balanced hs.1 hs.2 hround
    cases round with
    | next s' => exact ⟨hstack', ha'⟩
    | done r => exact ⟨hstack', ha'⟩
  obtain ⟨hstack', ha'⟩ := Foundation.loop_leaves hrounds ⟨hstack, balanced_leaf⟩ hloop
  exact ⟨⟨hc.tree, hstack'⟩, ha'⟩

omit [AddMonoid σ] in
theorem OverBalanced.next (hc : OverBalanced c) (h : c.next = some c') : OverBalanced c' := by
  rw [Cursor.next, searchForward_eq_start] at h
  obtain ⟨⟨stack, descend⟩, hstart, h⟩ := Option.bind_eq_some_iff.mp h
  obtain ⟨⟨stack', position', returned⟩, hloop, h⟩ := Option.bind_eq_some_iff.mp h
  obtain rfl := Option.some.inj h
  have hstack : BalancedStack stack := by
    unfold searchForwardStart at hstart
    split at hstart
    · split_ifs at hstart
      · obtain ⟨rfl, -⟩ := Prod.mk.inj (Option.some.inj hstart)
        exact BalancedStack.keptByWalks.nil
      · obtain ⟨stack₁, hpush, hstart⟩ := Option.bind_eq_some_iff.mp hstart
        obtain ⟨-, rfl⟩ := pushEntry_eq_some_iff.mp hpush
        obtain ⟨rfl, -⟩ := Prod.mk.inj (Option.some.inj hstart)
        exact List.forall_mem_cons.mpr ⟨hc.tree, BalancedStack.keptByWalks.nil⟩
    · obtain ⟨rfl, -⟩ := Prod.mk.inj (Option.some.inj hstart)
      exact hc.stack
  exact ⟨hc.tree, Foundation.loop_leaves
    (fun s round => BalancedStack.keptByWalks.searchForwardRound) hstack hloop⟩

end Cursor

namespace SumTree

variable {tree result : SumTree α σ} {item : α}

/-- `insert_or_replace` keeps the nodes below the root filled. -/
theorem insertOrReplace_balanced [Item α σ] [Ord δ] [DecidableEq δ] {key : α → δ}
    {replaced : Option α} (hbalanced : Balanced tree)
    (h : insertOrReplace key tree item = some (result, replaced)) : Balanced result := by
  obtain ⟨⟨c, newTree⟩, hslice, h⟩ := Option.bind_eq_some_iff.mp h
  obtain ⟨hc, hnew⟩ := (Cursor.OverBalanced.new hbalanced).slice hslice
  obtain ⟨found, -, h⟩ := Option.bind_eq_some_iff.mp h
  -- the item and the suffix are put behind the slice, whether or not an item is stepped over
  have hjoin : ∀ (c : Cursor α σ δ) (replaced' : Option α), c.OverBalanced →
      ((newTree.push item).bind fun newTree => c.suffix.bind fun slice =>
        (newTree.append slice.2).bind fun newTree => some (newTree, replaced')) =
          some (result, replaced) → Balanced result := by
    intro c replaced' hc h
    obtain ⟨pushed, hpush, h⟩ := Option.bind_eq_some_iff.mp h
    obtain ⟨⟨c'', suffix⟩, hsuffix, h⟩ := Option.bind_eq_some_iff.mp h
    obtain ⟨joined, happend, h⟩ := Option.bind_eq_some_iff.mp h
    obtain ⟨rfl, -⟩ := Prod.mk.inj (Option.some.inj h)
    have hpushed := (append_balanced hnew balanced_leaf hpush).1
    exact (append_balanced hpushed (hc.slice hsuffix).2 happend).1
  cases found with
  | none => exact hjoin c none hc h
  | some first =>
    dsimp only at h
    split_ifs at h
    · obtain ⟨c', hnext, h⟩ := Option.bind_eq_some_iff.mp h
      exact hjoin c' (some first) (hc.next hnext) h
    · exact hjoin c none hc h

end SumTree

end Lucie
