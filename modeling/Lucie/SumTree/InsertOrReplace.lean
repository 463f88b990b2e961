import Lucie.SumTree.Steps

/-!
# Inserting by key

`insert_or_replace` slices a tree up to the key of an item, puts the item behind the slice and
takes over the rest. A cursor cannot descend into a tree of more than sixteen levels: there a
seek either panics or ends behind all items.
-/

set_option autoImplicit false

namespace Lucie

variable {α σ δ : Type} [Item α σ] [Dimension δ σ] [AddMonoid σ]

namespace SumTree

/-- `SumTree::insert_or_replace`, for items whose keys are a dimension: the tree afterwards and
the item that was replaced. -/
def insertOrReplace [Ord δ] [DecidableEq δ] (key : α → δ) (tree : SumTree α σ) (item : α) :
    Option (SumTree α σ × Option α) := do
  let cursor : Cursor α σ δ := Cursor.new tree
  let (cursor, newTree) ← cursor.slice (.ofOrd (key item)) .left
  let (cursor, replaced) ←
    match ← cursor.item with
    | some cursorItem =>
      if key cursorItem = key item then do
        let cursor ← cursor.next
        some (cursor, some cursorItem)
      else some (cursor, none)
    | none => some (cursor, none)
  let newTree ← newTree.push item
  let (_, suffix) ← cursor.suffix
  let newTree ← newTree.append suffix
  some (newTree, replaced)

end SumTree

namespace Cursor

variable {root : SumTree α σ} {h : ℕ} {c : Cursor α σ δ} {place : Place}

/-- A slice of a new cursor holds the leading items. -/
theorem slice_new_spec {target : SeekTarget δ} (bias : Bias) (wf : SumTree.WellFormed h root)
    (hh : h ≤ 15) (hlawful : Dimension.Lawful δ root.toList)
    (hmono : target.MonotoneOn root.toList) (htarget : target.cmp Dimension.zero ≠ .lt) :
    ∃ c' tree k, (new root).slice target bias = some (c', tree) ∧
      Represents root h c' (.at (target.leading bias root.toList)) ∧
      SumTree.WellFormed k tree ∧
      tree.toList = root.toList.take (target.leading bias root.toList) := by
  obtain ⟨c', a', k, hcall, hrep, ha', -, hk⟩ := seekInternal_spec target bias wf hh
    (SeekAggregate.slice_gathers _) hlawful (new_represents root h) (by simp) htarget
    SeekAggregate.SliceCollects.new
  obtain rfl : k = target.leading bias root.toList := (hk hmono).trans (Nat.zero_max _)
  obtain ⟨l, wf'⟩ := ha'.wellFormed
  refine ⟨c', a'.tree, l, ?_, hrep, wf', ha'.contents⟩
  rw [slice, hcall]
  rfl

/-- The suffix of a cursor holds the items from its place on. -/
theorem suffix_spec (wf : SumTree.WellFormed h root) (hh : h ≤ 15)
    (hlawful : Dimension.Lawful δ root.toList) (hrep : c.Represents root h place)
    (hplace : place ≠ .before) :
    ∃ c' tree k, c.suffix = some (c', tree) ∧ SumTree.WellFormed k tree ∧
      tree.toList = root.toList.drop place.index := by
  obtain ⟨c', a', k, hcall, -, ha', -, hk⟩ := seekInternal_spec SeekTarget.endTarget .right wf hh
    (SeekAggregate.slice_gathers _) hlawful hrep hplace (by simp [SeekTarget.endTarget])
    SeekAggregate.SliceCollects.new
  have hend : root.toList.length ≤ k := by
    rw [hk (SeekTarget.endTarget_monotoneOn _)]
    exact (SeekTarget.leading_endTarget root.toList).ge.trans (le_max_right _ _)
  obtain ⟨l, wf'⟩ := ha'.wellFormed
  refine ⟨c', a'.tree, l, ?_, wf', ?_⟩
  · rw [suffix, slice, hcall]
    rfl
  · rw [ha'.contents, List.take_of_length_le hend]

/-- A seek of a new cursor ends at the first item that is not leading. -/
theorem seek_new_spec {target : SeekTarget δ} (bias : Bias) (wf : SumTree.WellFormed h root)
    (hh : h ≤ 15) (hlawful : Dimension.Lawful δ root.toList)
    (hmono : target.MonotoneOn root.toList) (htarget : target.cmp Dimension.zero ≠ .lt) :
    ∃ c' result, (new root).seek target bias = some (c', result) ∧
      Represents root h c' (.at (target.leading bias root.toList)) := by
  obtain ⟨c', ⟨⟩, k, hcall, hrep, -, -, hk⟩ := seekInternal_spec target bias wf hh
    (SeekAggregate.unit_gathers _) hlawful (new_represents root h).reset (by simp) htarget
    (a := ()) trivial
  obtain rfl : k = target.leading bias root.toList := (hk hmono).trans (Nat.zero_max _)
  refine ⟨c', found target bias root.toList (target.leading bias root.toList), ?_, hrep⟩
  rw [seek, hcall]
  rfl

end Cursor

namespace SumTree

variable {tree : SumTree α σ} {h : ℕ}

/-- The items behind the leading ones, without a first one of the same key. -/
def behind [DecidableEq δ] (key : α → δ) (item : α) : List α → List α
  | [] => []
  | first :: rest => if key first = key item then rest else first :: rest

/-- An item is put behind the items that lead its key, in the place of a first one of the same key
behind them. -/
theorem insertOrReplace_spec [Ord δ] [DecidableEq δ] (key : α → δ) (wf : WellFormed h tree)
    (hh : h ≤ 15) (hlawful : Dimension.Lawful δ tree.toList) {item : α}
    (hmono : (SeekTarget.ofOrd (key item)).MonotoneOn tree.toList)
    (hzero : compare (key item) (Dimension.zero : δ) ≠ .lt) :
    ∃ result replaced k, insertOrReplace key tree item = some (result, replaced) ∧
      WellFormed k result ∧
      result.toList =
        tree.toList.take ((SeekTarget.ofOrd (key item)).leading .left tree.toList) ++ item ::
          behind key item
            (tree.toList.drop ((SeekTarget.ofOrd (key item)).leading .left tree.toList)) ∧
      replaced = (tree.toList.drop ((SeekTarget.ofOrd (key item)).leading .left
        tree.toList)).head?.filter fun first => key first = key item := by
  obtain ⟨c, newTree, k, hslice, hrep, wfNew, hcontents⟩ :=
    Cursor.slice_new_spec .left wf hh hlawful hmono hzero
  generalize (SeekTarget.ofOrd (key item)).leading .left tree.toList = lead at *
  obtain ⟨pushed, l, hpush, wfPushed, hpushed⟩ := push_spec wfNew item
  -- the rest is taken over from the place of the item, or from behind an item of the same key
  have hrest : ∀ (c' : Cursor α σ δ) (index : ℕ), c'.Represents tree h (.at index) →
      ∃ c'' suffix result m, c'.suffix = some (c'', suffix) ∧ pushed.append suffix = some result ∧
        WellFormed m result ∧
        result.toList = tree.toList.take lead ++ item :: tree.toList.drop index := by
    intro c' index hrep'
    obtain ⟨c'', suffix, m, hsuffix, wfSuffix, hitems⟩ :=
      Cursor.suffix_spec wf hh hlawful hrep' (by simp)
    obtain ⟨result, n, happend, wfResult, hresult⟩ := append_spec wfPushed wfSuffix
    refine ⟨c'', suffix, result, n, hsuffix, happend, wfResult, ?_⟩
    rw [hresult, hpushed, hcontents, hitems, List.append_assoc]
    rfl
  unfold insertOrReplace
  simp only [hslice, hrep.item_eq wf, Place.item, ← List.head?_drop, Option.bind_eq_bind,
    Option.bind_some]
  obtain ⟨_, _, result, m, hsuffix, happend, wfResult, hitems⟩ := hrest c lead hrep
  cases hdrop : tree.toList.drop lead with
  | nil =>
    rw [hdrop] at hitems
    refine ⟨result, none, m, ?_, wfResult, hitems, rfl⟩
    simp only [List.head?_nil, Option.bind_some, hpush, hsuffix, happend]
  | cons first rest =>
    simp only [List.head?_cons, behind]
    split_ifs with hkey
    · have hlead : lead ≠ tree.toList.length := by
        rintro rfl
        simp at hdrop
      obtain ⟨c', hnext, hrep'⟩ := Cursor.next_spec wf hh hlawful hrep
      rw [Place.next, if_neg hlead] at hrep'
      obtain ⟨_, _, result, m, hsuffix, happend, wfResult, hitems⟩ := hrest c' (lead + 1) hrep'
      rw [← List.drop_drop, hdrop, List.drop_one, List.tail_cons] at hitems
      refine ⟨result, some first, m, ?_, wfResult, hitems,
        (Option.filter_some_pos (by simpa using hkey)).symm⟩
      simp only [hnext, Option.bind_some, hpush, hsuffix, happend]
    · refine ⟨result, none, m, ?_, wfResult, hdrop ▸ hitems,
        (Option.filter_some_neg (by simpa using hkey)).symm⟩
      simp only [Option.bind_some, hpush, hsuffix, happend]

/-- A tree has at most as many items as its nodes have room for. -/
theorem WellFormed.length_le (wf : WellFormed h tree) :
    tree.toList.length ≤ (2 * TREE_BASE) ^ (h + 1) := by
  have hrow : ∀ {k : ℕ} (trees : List (SumTree α σ)),
      (∀ tree ∈ trees, tree.toList.length ≤ k) → (toLists trees).length ≤ trees.length * k := by
    intro k trees
    induction trees with
    | nil => simp
    | cons tree trees ih =>
      intro hle
      have hrest := ih fun t ht => hle t (List.mem_cons_of_mem _ ht)
      have hfirst := hle tree List.mem_cons_self
      rw [toLists_cons, List.length_append, List.length_cons, Nat.succ_mul, Nat.add_comm]
      exact Nat.add_le_add hrest hfirst
  induction wf with
  | leaf capacity => simpa using capacity
  | @internal k childTrees _ capacity _ _ ih =>
    rw [toList_internal, pow_succ']
    exact (hrow childTrees ih).trans (Nat.mul_le_mul_right _ capacity)

end SumTree

namespace Cursor

variable {root : SumTree α σ} {h : ℕ} {A : Type} {target : SeekTarget δ} {bias : Bias}
  {aggregate : SeekAggregate α σ A}

/-- A stack that goes down from a root, one level for each entry. -/
def Levels (h : ℕ) : List (StackEntry α σ δ) → Prop
  | [] => True
  | entry :: rest => SumTree.WellFormed (h - rest.length) entry.tree ∧ Levels h rest

omit [AddMonoid σ] [Item α σ] in
/-- The child that is not passed is one of the children. -/
theorem mem_of_seekChildren {entries : List (SumTree α σ × σ)} {index index' : ℕ}
    {entryPosition position entryPosition' position' : δ} {a a' : A} {child : SumTree α σ}
    (h : seekChildren target bias aggregate entries index entryPosition position a =
      some (index', entryPosition', position', a', some child)) :
    child ∈ entries.map Prod.fst := by
  induction entries generalizing index entryPosition position a with
  | nil => simp [seekChildren] at h
  | cons entry entries ih =>
    obtain ⟨childTree, childSummary⟩ := entry
    rw [seekChildren] at h
    split_ifs at h with hpass
    · obtain ⟨a₁, -, h⟩ := Option.bind_eq_some_iff.mp h
      exact List.mem_cons_of_mem _ (ih h)
    · obtain rfl : childTree = child := by simp_all
      exact List.mem_cons_self

omit [AddMonoid σ] [Item α σ] in
/-- A round at an internal node goes down to a child or back up. -/
theorem seekRound_internal_cases {height : ℕ} {summary : σ} {childSummaries : List σ}
    {childTrees : List (SumTree α σ)} {index : ℕ} {entryPosition position : δ}
    {rest : List (StackEntry α σ δ)} {ascending : Bool} {a : A}
    {round : Foundation.Round (List (StackEntry α σ δ) × δ × Bool × A)
      (List (StackEntry α σ δ) × δ × A)}
    (h : seekRound target bias aggregate (⟨.internal height summary childSummaries childTrees,
      index, entryPosition⟩ :: rest, position, ascending, a) = some round) :
    ∃ s', round = .next s' ∧ (s'.1 = rest ∨ ∃ child ∈ childTrees, ∃ index' position' position'',
      rest.length + 1 < 16 ∧ s'.1 = ⟨child, 0, position''⟩ ::
        ⟨.internal height summary childSummaries childTrees, index', position'⟩ :: rest) := by
  simp only [seekRound] at h
  split_ifs at h with hascending hlength hlength
  all_goals
    obtain ⟨⟨index', entryPosition', position', a', child⟩, hloop, h⟩ :=
      Option.bind_eq_some_iff.mp h
    cases child with
    | none =>
      obtain rfl := Option.some.inj h
      exact ⟨_, rfl, .inl rfl⟩
    | some child =>
      have hmem := mem_of_seekChildren hloop
      obtain ⟨stack, hpush, h⟩ := Option.bind_eq_some_iff.mp h
      obtain rfl := Option.some.inj h
      rw [pushEntry] at hpush
      split_ifs at hpush with hroom
      obtain rfl := Option.some.inj hpush
      refine ⟨_, rfl, .inr ⟨child, ?_, _, _, _, hroom, rfl⟩⟩
      obtain ⟨⟨child', _⟩, hzip, rfl⟩ := List.mem_map.mp hmem
      exact List.mem_of_mem_drop (List.of_mem_zip hzip).1

/-- A seek of a tree of more than sixteen levels never gets to a leaf. -/
theorem seekRound_deep (hh : 15 < h) {s : List (StackEntry α σ δ) × δ × Bool × A}
    (hlength : s.1.length ≤ 16) (hlevels : Levels h s.1) :
    (∀ s', seekRound target bias aggregate s = some (.next s') →
      s'.1.length ≤ 16 ∧ Levels h s'.1) ∧
    ∀ r, seekRound target bias aggregate s = some (.done r) → r.1 = [] := by
  obtain ⟨stack, position, ascending, a⟩ := s
  cases stack with
  | nil =>
    refine ⟨fun s' h => by simp [seekRound] at h, fun r h => ?_⟩
    simp only [seekRound, Option.some.injEq, Foundation.Round.done.injEq] at h
    rw [← h]
  | cons entry rest =>
    obtain ⟨hwf, hrest⟩ := hlevels
    have hlevel := hwf
    obtain ⟨tree, index, entryPosition⟩ := entry
    rw [List.length_cons] at hlength
    obtain ⟨k, hk⟩ : ∃ k, h - rest.length = k + 1 := Nat.exists_eq_succ_of_ne_zero (by omega)
    rw [hk] at hwf
    cases hwf with
    | @internal _ childTrees _ _ children =>
      refine ⟨fun s' hround => ?_, fun r hround => ?_⟩
      · obtain ⟨_, heq, hstack | ⟨child, hchild, _, _, _, hroom, hstack⟩⟩ :=
          seekRound_internal_cases hround
        · obtain rfl := Foundation.Round.next.inj heq
          rw [hstack]
          exact ⟨by omega, hrest⟩
        · obtain rfl := Foundation.Round.next.inj heq
          rw [hstack]
          have hchildLevel : h - (rest.length + 1) = k := by omega
          refine ⟨hroom, ?_, hlevel, hrest⟩
          rw [List.length_cons, hchildLevel]
          exact children child hchild
      · obtain ⟨_, heq, -⟩ := seekRound_internal_cases hround
        cases heq

/-- A walk from the start of a tree of more than sixteen levels panics or ends behind all items. -/
theorem seekInternal_new_deep (wf : SumTree.WellFormed h root) (hh : 15 < h) {a a' : A}
    {c : Cursor α σ δ} {result : Bool}
    (hcall : (new root).seekInternal target bias aggregate a = some (c, a', result)) :
    c.stack = [] ∧ c.atEnd = true ∧ c.didSeek = true := by
  rw [seekInternal] at hcall
  split_ifs at hcall
  obtain ⟨stack, hstack, hcall⟩ := Option.bind_eq_some_iff.mp hcall
  obtain ⟨⟨stack', position', a''⟩, hloop, hcall⟩ := Option.bind_eq_some_iff.mp hcall
  obtain ⟨_, -, hcall⟩ := Option.bind_eq_some_iff.mp hcall
  obtain ⟨rfl, -⟩ := Prod.mk.inj (Option.some.inj hcall)
  obtain rfl : [⟨root, 0, Dimension.zero⟩] = stack := Option.some.inj hstack
  have hlevels : Levels h [(⟨root, 0, Dimension.zero⟩ : StackEntry α σ δ)] := ⟨wf, trivial⟩
  have hempty : stack' = [] :=
    Foundation.of_loop_eq_some (fun s => s.1.length ≤ 16 ∧ Levels h s.1) (fun r => r.1 = [])
      (fun s s' hs => (seekRound_deep hh hs.1 hs.2).1 s')
      (fun s r hs => (seekRound_deep hh hs.1 hs.2).2 r) ⟨Nat.one_le_ofNat, hlevels⟩ hloop
  subst hempty
  exact ⟨rfl, rfl, rfl⟩

/-- A seek of a new cursor over a tree of more than sixteen levels panics or ends behind all
items, and stays there. -/
theorem seek_new_deep (wf : SumTree.WellFormed h root) (hh : 15 < h) {c : Cursor α σ δ}
    {result : Bool} (hseek : (new root).seek target bias = some (c, result)) :
    c.next = some c ∧ c.item = some none := by
  obtain ⟨⟨c', a', found⟩, hcall, heq⟩ := Option.bind_eq_some_iff.mp hseek
  obtain ⟨rfl, -⟩ := Prod.mk.inj (Option.some.inj heq)
  obtain ⟨hstack, hend, hsought⟩ := seekInternal_new_deep wf hh hcall
  obtain ⟨tree, stack, position, didSeek, atEnd⟩ := c'
  subst hstack hend hsought
  exact ⟨searchForward_atEnd rfl rfl, rfl⟩

end Cursor

end Lucie
