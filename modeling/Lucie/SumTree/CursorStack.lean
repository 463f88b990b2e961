import Lucie.SumTree.Balance

/-!
# The stack of a cursor

A cursor holds one stack entry for each level between the root and its node. Here that is followed
through every round of its three walks, whatever the target, the filter, the aggregate and the
dimension, so that the room in the stack is a matter of the height of the tree only.
-/

set_option autoImplicit false

namespace Lucie

variable {α σ δ : Type} [Item α σ] [Dimension δ σ] [AddMonoid σ]

namespace Cursor

variable {root : SumTree α σ} {h : ℕ} {c c' : Cursor α σ δ} {stack : List (StackEntry α σ δ)}

/-- A stack of at most one entry for each level below and above. -/
def WithinHeight (h : ℕ) (stack : List (StackEntry α σ δ)) : Prop :=
  stack.length ≤ h + 1 ∧ Levels h stack

/-- What goes on between the rounds of a walk: the top of the stack moves within its node, a child
of it is pushed, or it is popped. -/
structure KeptByWalks (Inv : List (StackEntry α σ δ) → Prop) : Prop where
  nil : Inv []
  tail : ∀ {entry : StackEntry α σ δ} {rest : List (StackEntry α σ δ)}, Inv (entry :: rest) →
    Inv rest
  move : ∀ {tree : SumTree α σ} {index index' : ℕ} {position position' : δ}
    {rest : List (StackEntry α σ δ)}, Inv (⟨tree, index, position⟩ :: rest) →
      Inv (⟨tree, index', position'⟩ :: rest)
  push : ∀ {height : ℕ} {summary : σ} {childSummaries : List σ} {childTrees : List (SumTree α σ)}
    {child : SumTree α σ} {index index' : ℕ} {position position' : δ}
    {rest : List (StackEntry α σ δ)},
    Inv (⟨.internal height summary childSummaries childTrees, index, position⟩ :: rest) →
      child ∈ childTrees → Inv (⟨child, index', position'⟩ ::
        ⟨.internal height summary childSummaries childTrees, index, position⟩ :: rest)

omit [Dimension δ σ] in
theorem WithinHeight.singleton (wf : SumTree.WellFormed h root) (index : ℕ) (position : δ) :
    WithinHeight h [⟨root, index, position⟩] :=
  ⟨Nat.succ_le_succ (Nat.zero_le h), wf, trivial⟩

omit [Dimension δ σ] in
/-- Above an internal node there is a level left. -/
theorem WithinHeight.length_le {entry : StackEntry α σ δ} {rest : List (StackEntry α σ δ)}
    (hwithin : WithinHeight h (entry :: rest)) (hinternal : entry.tree.isLeaf = false) :
    (entry :: rest).length ≤ h := by
  obtain ⟨-, hwf, -⟩ := hwithin
  rw [List.length_cons]
  by_contra hfull
  rw [show h - rest.length = 0 by omega] at hwf
  obtain ⟨items, -, htree⟩ := hwf.leaf_inv
  rw [htree] at hinternal
  cases hinternal

omit [Dimension δ σ] in
/-- A child is one level below its parent. -/
theorem WithinHeight.keptByWalks :
    KeptByWalks (WithinHeight h : List (StackEntry α σ δ) → Prop) where
  nil := ⟨Nat.zero_le _, trivial⟩
  tail hwithin := ⟨Nat.le_of_succ_le hwithin.1, hwithin.2.2⟩
  move hwithin := hwithin
  push := by
    intro height summary childSummaries childTrees child index index' position position' rest
      hwithin hchild
    have hlength := hwithin.length_le rfl
    have hwf := hwithin.2.1
    refine ⟨Nat.succ_le_succ hlength, ?_, hwithin.2⟩
    rw [List.length_cons] at hlength ⊢
    obtain ⟨k, hk⟩ : ∃ k, h - rest.length = k + 1 := Nat.exists_eq_succ_of_ne_zero (by omega)
    rw [hk] at hwf
    rw [show h - (rest.length + 1) = k by omega]
    cases hwf with
    | internal _ _ hchildren => exact hchildren child hchild

omit [Dimension δ σ] [Item α σ] [AddMonoid σ] in
theorem pushEntry_eq_some_iff {entry : StackEntry α σ δ} {result : List (StackEntry α σ δ)} :
    pushEntry stack entry = some result ↔ stack.length < 16 ∧ entry :: stack = result := by
  simp [pushEntry, ite_eq_iff]

section Rounds

variable {Inv : List (StackEntry α σ δ) → Prop} (hInv : KeptByWalks Inv)

include hInv

omit [Item α σ] [AddMonoid σ] in
/-- A round of a seek. -/
theorem KeptByWalks.seekRound {A : Type} {target : SeekTarget δ} {bias : Bias}
    {aggregate : SeekAggregate α σ A} {s : List (StackEntry α σ δ) × δ × Bool × A}
    {round : Foundation.Round (List (StackEntry α σ δ) × δ × Bool × A)
      (List (StackEntry α σ δ) × δ × A)} (hs : Inv s.1)
    (hround : seekRound target bias aggregate s = some round) :
    round.Leaves (fun s' => Inv s'.1) (fun r => Inv r.1) := by
  obtain ⟨stack, position, ascending, a⟩ := s
  cases stack with
  | nil =>
    obtain rfl := Option.some.inj hround
    exact hInv.nil
  | cons entry rest =>
    obtain ⟨tree, index, entryPosition⟩ := entry
    cases tree with
    | internal height summary childSummaries childTrees =>
      obtain ⟨s', rfl, hstack | ⟨child, hchild, index', position', position'', -, hstack⟩⟩ :=
        seekRound_internal_cases hround
      · simpa only [Foundation.Round.Leaves, hstack] using hInv.tail hs
      · simpa only [Foundation.Round.Leaves, hstack] using hInv.push (hInv.move hs) hchild
    | leaf summary items itemSummaries =>
      simp only [Cursor.seekRound, Option.bind_eq_bind, Option.bind_eq_some_iff] at hround
      obtain ⟨a₁, -, hround⟩ := hround
      split_ifs at hround
      obtain ⟨⟨index', position', a₂, found⟩, -, hround⟩ := Option.bind_eq_some_iff.mp hround
      obtain ⟨a₃, -, hround⟩ := Option.bind_eq_some_iff.mp hround
      cases found with
      | true =>
        obtain rfl := Option.some.inj hround
        exact hInv.move hs
      | false =>
        obtain rfl := Option.some.inj hround
        exact hInv.tail hs

omit [Item α σ] [AddMonoid σ] in
/-- A round of a forward search. -/
theorem KeptByWalks.searchForwardRound {filterNode : σ → Bool}
    {s : List (StackEntry α σ δ) × δ × Bool}
    {round : Foundation.Round (List (StackEntry α σ δ) × δ × Bool)
      (List (StackEntry α σ δ) × δ × Bool)} (hs : Inv s.1)
    (hround : searchForwardRound filterNode s = some round) :
    round.Leaves (fun s' => Inv s'.1) (fun r => Inv r.1) := by
  obtain ⟨stack, position, descend⟩ := s
  cases stack with
  | nil =>
    obtain rfl := Option.some.inj hround
    exact hInv.nil
  | cons entry rest =>
    obtain ⟨tree, index, entryPosition⟩ := entry
    cases tree with
    | internal height summary childSummaries childTrees =>
      simp only [Cursor.searchForwardRound] at hround
      split at hround
      next subtree hsubtree =>
        have hchild := List.mem_of_getElem? hsubtree
        simp only [Option.bind_eq_bind, Option.bind_eq_some_iff, pushEntry_eq_some_iff] at hround
        obtain ⟨_, ⟨-, rfl⟩, hround⟩ := hround
        obtain rfl := Option.some.inj hround
        cases descend with
        | true => exact hInv.push (hInv.move hs) hchild
        | false => exact hInv.push (hInv.move hs) hchild
      next =>
        obtain rfl := Option.some.inj hround
        exact hInv.tail hs
    | leaf summary items itemSummaries =>
      have hleave : ∀ (index' : ℕ) (entryPosition' position' : δ),
          (let skipped := skipEntries filterNode (itemSummaries.drop index') index'
            entryPosition' position'
          if skipped.1 < itemSummaries.length then
            some (.done (⟨.leaf summary items itemSummaries, skipped.1, skipped.2.1⟩ :: rest,
              skipped.2.2, true))
          else some (.next (rest, skipped.2.2, false))) = some round →
          round.Leaves (fun s' => Inv s'.1) (fun r => Inv r.1) := by
        intro index' entryPosition' position' hround
        dsimp only at hround
        split_ifs at hround
        · obtain rfl := Option.some.inj hround
          exact hInv.move hs
        · obtain rfl := Option.some.inj hround
          exact hInv.tail hs
      cases descend with
      | true => exact hleave index entryPosition position hround
      | false =>
        obtain ⟨_, -, hround⟩ := Option.bind_eq_some_iff.mp hround
        exact hleave _ _ _ hround

omit [Item α σ] [AddMonoid σ] in
/-- A round of a backward search. -/
theorem KeptByWalks.searchBackwardRound {filterNode : σ → Bool}
    {s : List (StackEntry α σ δ) × δ × Bool}
    {round : Foundation.Round (List (StackEntry α σ δ) × δ × Bool)
      (List (StackEntry α σ δ) × δ)} (hs : Inv s.1)
    (hround : searchBackwardRound filterNode s = some round) :
    round.Leaves (fun s' => Inv s'.1) (fun r => Inv r.1) := by
  obtain ⟨stack, position, descending⟩ := s
  cases stack with
  | nil =>
    obtain rfl := Option.some.inj hround
    exact hInv.nil
  | cons entry rest =>
    obtain ⟨tree, index, entryPosition⟩ := entry
    simp only [Cursor.searchBackwardRound] at hround
    split at hround
    · obtain rfl := Option.some.inj hround
      exact hInv.tail hs
    generalize (if descending = true then index else index - 1) = index' at hround
    split at hround
    · cases hround
    split at hround
    next => cases hround
    next =>
      cases tree with
      | internal height summary childSummaries childTrees =>
        simp only at hround
        split_ifs at hround
        · split at hround
          next => cases hround
          next child hchild =>
            split_ifs at hround
            simp only [Option.bind_eq_bind, Option.bind_eq_some_iff,
              pushEntry_eq_some_iff] at hround
            obtain ⟨_, ⟨-, rfl⟩, hround⟩ := hround
            obtain rfl := Option.some.inj hround
            exact hInv.push (hInv.move hs) (List.mem_of_getElem? hchild)
        · obtain rfl := Option.some.inj hround
          exact hInv.move hs
      | leaf summary items itemSummaries =>
        simp only at hround
        split_ifs at hround
        · obtain rfl := Option.some.inj hround
          exact hInv.move hs
        · obtain rfl := Option.some.inj hround
          exact hInv.move hs

end Rounds

omit [Item α σ] [AddMonoid σ] in
/-- Without a stack a backward search is over. -/
theorem searchBackwardRound_nil {filterNode : σ → Bool} {s : List (StackEntry α σ δ) × δ × Bool}
    {round : Foundation.Round (List (StackEntry α σ δ) × δ × Bool) (List (StackEntry α σ δ) × δ)}
    (hnil : s.1 = []) (hround : searchBackwardRound filterNode s = some round) :
    round.Leaves (fun s' => s'.1 = []) (fun r => r.1 = []) := by
  obtain ⟨stack, position, descending⟩ := s
  obtain rfl : stack = [] := hnil
  obtain rfl := Option.some.inj hround
  rfl

/-- The stack with which `search_forward` starts, and whether it descends first. -/
def searchForwardStart (c : Cursor α σ δ) : Option (List (StackEntry α σ δ) × Bool) :=
  match c.stack with
  | [] =>
    if c.atEnd then some ([], false)
    else do
      let stack ← pushEntry [] ⟨c.tree, 0, Dimension.zero⟩
      some (stack, true)
  | stack => some (stack, false)

omit [Item α σ] [AddMonoid σ] in
theorem searchForward_eq_start (filterNode : σ → Bool) (c : Cursor α σ δ) :
    searchForward filterNode c = c.searchForwardStart.bind fun (stack, descend) =>
      (Foundation.loop (searchForwardRound filterNode) c.tree.weight
        (stack, c.position, descend)).bind fun (stack, position, returned) =>
          some { c with
            didSeek := c.didSeek || c.stack.isEmpty
            atEnd := if returned then c.atEnd else stack.isEmpty
            stack
            position } := by
  obtain ⟨tree, stack, position, didSeek, atEnd⟩ := c
  cases stack with
  | nil => cases atEnd <;> rfl
  | cons entry rest => rfl

/-- The cursors over a tree that calls lead to, whatever they seek or search for. -/
inductive Reached (root : SumTree α σ) : Cursor α σ δ → Prop
  | new : Reached root (Cursor.new root)
  | reset {c : Cursor α σ δ} (hc : Reached root c) : Reached root c.reset
  | seek {c c' : Cursor α σ δ} {A : Type} {target : SeekTarget δ} {bias : Bias}
      {aggregate : SeekAggregate α σ A} {a a' : A} {found : Bool} (hc : Reached root c)
      (h : c.seekInternal target bias aggregate a = some (c', a', found)) : Reached root c'
  | searchForward {c c' : Cursor α σ δ} {filterNode : σ → Bool} (hc : Reached root c)
      (h : c.searchForward filterNode = some c') : Reached root c'
  | searchBackward {c c' : Cursor α σ δ} {filterNode : σ → Bool} (hc : Reached root c)
      (h : c.searchBackward filterNode = some c') : Reached root c'

/-- The stacks that cursors over a tree hold between the rounds of their walks. -/
inductive Held (root : SumTree α σ) : List (StackEntry α σ δ) → Prop
  | seek {c : Cursor α σ δ} {A : Type} {target : SeekTarget δ} {bias : Bias}
      {aggregate : SeekAggregate α σ A} {a : A} {stack : List (StackEntry α σ δ)}
      {s : List (StackEntry α σ δ) × δ × Bool × A} (hc : Reached root c)
      (hstart : c.seekStack = some stack)
      (hrounds : Foundation.Rounds (seekRound target bias aggregate)
        (stack, c.position, false, a) s) : Held root s.1
  | searchForward {c : Cursor α σ δ} {filterNode : σ → Bool} {stack : List (StackEntry α σ δ)}
      {descend : Bool} {s : List (StackEntry α σ δ) × δ × Bool} (hc : Reached root c)
      (hstart : c.searchForwardStart = some (stack, descend))
      (hrounds : Foundation.Rounds (searchForwardRound filterNode)
        (stack, c.position, descend) s) : Held root s.1
  | searchBackward {c : Cursor α σ δ} {filterNode : σ → Bool} {stack : List (StackEntry α σ δ)}
      {position : δ} {atEnd : Bool} {s : List (StackEntry α σ δ) × δ × Bool}
      (hc : Reached root c) (hstart : c.searchBackwardStart = some (stack, position, atEnd))
      (hrounds : Foundation.Rounds (searchBackwardRound filterNode)
        (stack, position, false) s) : Held root s.1

/-- What holds of a cursor between calls: a cursor that has not begun to seek, or is at the end,
has an empty stack, so the root is only pushed on an empty stack. -/
structure Settled (root : SumTree α σ) (h : ℕ) (c : Cursor α σ δ) : Prop where
  tree : c.tree = root
  within : WithinHeight h c.stack
  unsought : c.didSeek = false → c.stack = []
  atEnd : c.atEnd = true → c.stack = []

namespace Settled

theorem seekStack (wf : SumTree.WellFormed h root) (hc : Settled root h c) :
    ∃ stack, c.seekStack = some stack ∧ WithinHeight h stack := by
  rw [Cursor.seekStack]
  split_ifs with hseek
  · exact ⟨c.stack, rfl, hc.within⟩
  · rw [hc.unsought (by simpa using hseek), hc.tree]
    exact ⟨_, rfl, .singleton wf _ _⟩

theorem searchForwardStart (wf : SumTree.WellFormed h root) (hc : Settled root h c) :
    ∃ stack descend, c.searchForwardStart = some (stack, descend) ∧ WithinHeight h stack := by
  unfold Cursor.searchForwardStart
  split
  next hnil =>
    split_ifs
    · exact ⟨[], false, rfl, WithinHeight.keptByWalks.nil⟩
    · rw [hc.tree]
      exact ⟨_, true, rfl, .singleton wf _ _⟩
  next => exact ⟨c.stack, false, rfl, hc.within⟩

theorem searchBackwardStart (wf : SumTree.WellFormed h root) (hc : Settled root h c) :
    ∃ stack position atEnd, c.searchBackwardStart = some (stack, position, atEnd) ∧
      WithinHeight h stack ∧ (atEnd = true → stack = []) := by
  have hroot : ∀ stack : List (StackEntry α σ δ), stack = [] →
      ∃ (stack' : List (StackEntry α σ δ)) (position : δ) (atEnd : Bool),
        (if c.tree.isEmpty then some (stack, Dimension.zero, true)
          else do
            let stack ← pushEntry stack ⟨c.tree, c.tree.childSummaries.length,
              Dimension.addSummary Dimension.zero c.tree.summary⟩
            some (stack, Dimension.zero, false)) = some (stack', position, atEnd) ∧
        WithinHeight h stack' ∧ (atEnd = true → stack' = []) := by
    rintro _ rfl
    split_ifs with hempty
    · exact ⟨[], _, true, rfl, WithinHeight.keptByWalks.nil, fun _ => rfl⟩
    · rw [hc.tree]
      exact ⟨_, _, false, rfl, .singleton wf _ _, fun hend => by cases hend⟩
  unfold Cursor.searchBackwardStart
  cases hseek : c.didSeek with
  | false => exact hroot c.stack (hc.unsought hseek)
  | true =>
    cases hend : c.atEnd with
    | true => exact hroot c.stack (hc.atEnd hend)
    | false => exact ⟨c.stack, c.position, false, rfl, hc.within, fun hend => by cases hend⟩

end Settled

/-- Every call leaves a settled cursor. -/
theorem Reached.settled (wf : SumTree.WellFormed h root) (hc : Reached root c) :
    Settled root h c := by
  induction hc with
  | new => exact ⟨rfl, WithinHeight.keptByWalks.nil, fun _ => rfl, fun _ => rfl⟩
  | reset _ ih => exact ⟨ih.tree, WithinHeight.keptByWalks.nil, fun _ => rfl, fun _ => rfl⟩
  | @seek c c' A target bias aggregate a a' found _ hcall ih =>
    obtain ⟨stack, hstart, hwithin⟩ := ih.seekStack wf
    simp only [seekInternal, hstart, Option.bind_eq_bind, Option.bind_some] at hcall
    split_ifs at hcall
    obtain ⟨⟨stack', position', a''⟩, hloop, hcall⟩ := Option.bind_eq_some_iff.mp hcall
    obtain ⟨_, -, hcall⟩ := Option.bind_eq_some_iff.mp hcall
    obtain ⟨rfl, -⟩ := Prod.mk.inj (Option.some.inj hcall)
    have hwithin' : WithinHeight h stack' :=
      Foundation.loop_leaves (fun s round => WithinHeight.keptByWalks.seekRound) hwithin
        hloop
    exact ⟨ih.tree, hwithin', (fun hseek => by cases hseek), List.isEmpty_iff.mp⟩
  | @searchForward c c' filterNode _ hcall ih =>
    obtain ⟨stack, descend, hstart, hwithin⟩ := ih.searchForwardStart wf
    by_cases hend : c.stack = [] ∧ c.atEnd = true
    · rw [searchForward_atEnd hend.1 hend.2] at hcall
      obtain rfl := Option.some.inj hcall
      exact ⟨ih.tree, ih.within, (fun hseek => by cases hseek), fun _ => hend.1⟩
    rw [searchForward_eq_start, hstart, Option.bind_some] at hcall
    obtain ⟨⟨stack', position', returned⟩, hloop, hcall⟩ := Option.bind_eq_some_iff.mp hcall
    obtain rfl := Option.some.inj hcall
    have hwithin' : WithinHeight h stack' :=
      Foundation.loop_leaves (fun s round => WithinHeight.keptByWalks.searchForwardRound) hwithin
        hloop
    refine ⟨ih.tree, hwithin', fun hseek => ?_, fun hend' => ?_⟩
    · -- a cursor that has not sought has an empty stack, and then the search marks it as sought
      rw [Bool.or_eq_false_iff] at hseek
      simp [ih.unsought hseek.1] at hseek
    · cases returned with
      | false => exact List.isEmpty_iff.mp hend'
      | true => exact absurd ⟨ih.atEnd hend', hend'⟩ hend
  | @searchBackward c c' filterNode _ hcall ih =>
    obtain ⟨stack, position, atEnd, hstart, hwithin, hnil⟩ := ih.searchBackwardStart wf
    rw [Cursor.searchBackward, hstart, Option.bind_eq_bind, Option.bind_some] at hcall
    obtain ⟨⟨stack', position'⟩, hloop, hcall⟩ := Option.bind_eq_some_iff.mp hcall
    obtain rfl := Option.some.inj hcall
    have hwithin' : WithinHeight h stack' :=
      Foundation.loop_leaves (fun s round => WithinHeight.keptByWalks.searchBackwardRound) hwithin
        hloop
    refine ⟨ih.tree, hwithin', (fun hseek => by cases hseek), fun hend => ?_⟩
    exact Foundation.loop_leaves (fun s round hs hround => searchBackwardRound_nil hs hround)
      (hnil hend) hloop

/-- Every stack that a cursor holds is within the height of the tree. -/
theorem Held.withinHeight (wf : SumTree.WellFormed h root) (hheld : Held root stack) :
    WithinHeight h stack := by
  cases hheld with
  | @seek c A target bias aggregate a stack s hc hstart hrounds =>
    obtain ⟨stack', hstart', hwithin⟩ := (hc.settled wf).seekStack wf
    obtain rfl := Option.some.inj (hstart'.symm.trans hstart)
    exact hrounds.invariant (fun s round => WithinHeight.keptByWalks.seekRound) hwithin
  | @searchForward c filterNode stack descend s hc hstart hrounds =>
    obtain ⟨stack', descend', hstart', hwithin⟩ := (hc.settled wf).searchForwardStart wf
    obtain ⟨rfl, rfl⟩ := Prod.mk.inj (Option.some.inj (hstart'.symm.trans hstart))
    exact hrounds.invariant (fun s round => WithinHeight.keptByWalks.searchForwardRound) hwithin
  | @searchBackward c filterNode stack position atEnd s hc hstart hrounds =>
    obtain ⟨stack', position', atEnd', hstart', hwithin, -⟩ :=
      (hc.settled wf).searchBackwardStart wf
    obtain ⟨rfl, rfl, rfl⟩ : stack' = stack ∧ position' = position ∧ atEnd' = atEnd := by
      simpa using hstart'.symm.trans hstart
    exact hrounds.invariant (fun s round => WithinHeight.keptByWalks.searchBackwardRound) hwithin

/-- No push on the stack of a cursor can fail: every walk has room to start with, and where it can
descend, which is from an internal node, there is room for one more entry. -/
structure NeverOverflows (δ : Type) [Dimension δ σ] (root : SumTree α σ) : Prop where
  starts : ∀ c : Cursor α σ δ, Reached root c → c.seekStack.isSome ∧ c.searchForwardStart.isSome ∧
    c.searchBackwardStart.isSome
  descends : ∀ (top : StackEntry α σ δ) (rest : List (StackEntry α σ δ)),
    Held root (top :: rest) → top.tree.isLeaf = false → (top :: rest).length < 16

/-- Sixteen entries are enough for a tree of height fifteen. -/
theorem neverOverflows (wf : SumTree.WellFormed h root) (hh : h ≤ 15) : NeverOverflows δ root where
  starts c hc := by
    have hsettled := hc.settled wf
    obtain ⟨_, hseek, -⟩ := hsettled.seekStack wf
    obtain ⟨_, _, hforward, -⟩ := hsettled.searchForwardStart wf
    obtain ⟨_, _, _, hbackward, -⟩ := hsettled.searchBackwardStart wf
    simp [hseek, hforward, hbackward]
  descends top rest hheld hinternal := by
    have hlength := (hheld.withinHeight wf).length_le hinternal
    omega

end Cursor

namespace SumTree

/-- A node over two leaves, of twelve and of six items. -/
def twoLeaves : SumTree ℕ ℕ :=
  .internal 1 18 [12, 6] [.leaf 12 (List.range 12) (List.replicate 12 1),
    .leaf 6 ((List.range 18).drop 12) (List.replicate 6 1)]

/-- What is left of a hundred and fifty numbers from the last but six on, when a cursor slices them
off: a node with one leaf, like the last node that `from_iter` made. -/
def lastSlice : Option (SumTree ℕ ℕ) := do
  let tree ← fromIter (List.range 150)
  let (cursor, _) ← Cursor.seek (.ofOrd 144) .left (Cursor.new tree : Cursor ℕ ℕ ℕ)
  let (_, slice) ← cursor.suffix
  some slice

/-- A node over one leaf, of seven items. -/
def singleLeaf : SumTree ℕ ℕ :=
  .internal 1 7 [7] [.leaf 7 [143, 144, 145, 146, 147, 148, 149] [1, 1, 1, 1, 1, 1, 1]]

theorem lastSlice_eq : lastSlice = some singleLeaf := by
  cbv

end SumTree

end Lucie
