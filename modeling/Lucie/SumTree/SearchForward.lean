import Lucie.SumTree.Place

/-!
# Searching forward with a filter

`search_forward` moves a cursor to the next item that a filter accepts, and skips
every subtree whose summary the filter rejects. A filter that accepts a summary
whenever it accepts an item below it misses nothing in this way.
-/

set_option autoImplicit false

namespace Lucie

variable {α σ δ : Type} [Item α σ] [Dimension δ σ]

/-- The nodes of a tree: the tree itself and the children of its nodes. -/
inductive SumTree.HasNode (root : SumTree α σ) : SumTree α σ → Prop
  | root : HasNode root root
  | child {parent tree : SumTree α σ} {index : ℕ} (hparent : HasNode root parent)
      (hchild : parent.IsChild index tree) : HasNode root tree

/-- The top of a path is a node of the root. -/
theorem Cursor.Located.hasNode {root : SumTree α σ} {h k : ℕ} {entry : StackEntry α σ δ}
    {rest : List (StackEntry α σ δ)} (hloc : Cursor.Located root h k (entry :: rest)) :
    root.HasNode entry.tree := by
  generalize hstack : entry :: rest = stack at hloc
  induction hloc generalizing entry rest with
  | root =>
    cases hstack
    exact .root
  | child _ hchild _ _ ih =>
    cases hstack
    exact .child (ih rfl) hchild

/-- A filter on summaries is sound for a tree when it accepts the summary of every
node that has an item it accepts below it. -/
structure FilterSound (filterNode : σ → Bool) (root : SumTree α σ) : Prop where
  accepts_node : ∀ tree item, root.HasNode tree → item ∈ tree.toList →
    filterNode (Item.summary item) = true → filterNode tree.summary = true

theorem filterSound_true (root : SumTree α σ) : FilterSound (fun _ : σ => true) root :=
  ⟨fun _ _ _ _ _ => rfl⟩

/-- A rejected subtree has no item that the filter accepts. -/
theorem FilterSound.rejects {filterNode : σ → Bool} {root tree : SumTree α σ}
    (hsound : FilterSound filterNode root) (hnode : root.HasNode tree)
    (hreject : filterNode tree.summary = false) :
    ∀ item ∈ tree.toList, filterNode (Item.summary item) = false := by
  intro item hitem
  by_contra haccept
  have := hsound.accepts_node tree item hnode hitem (by simpa using haccept)
  simp [hreject] at this

/-- The first index from `start` on at which the filter accepts an item, or the length. -/
def acceptedFrom (filterNode : σ → Bool) (items : List α) (start : ℕ) : ℕ :=
  start + (items.drop start).findIdx fun item => filterNode (Item.summary item)

/-- The place to which `search_forward` moves. -/
def Place.searchForward (filterNode : σ → Bool) (items : List α) : Place → Place
  | .unsought => .at (acceptedFrom filterNode items 0)
  | .before => .at (acceptedFrom filterNode items 0)
  | .at index =>
    if index = items.length then .at index else .at (acceptedFrom filterNode items (index + 1))

namespace Cursor

/-- Adding the summaries of the items of a list one after the other. -/
theorem foldl_items (done items : List α) :
    (items.map Item.summary).foldl Dimension.addSummary (Dimension.extent δ done) =
      Dimension.extent δ (done ++ items) := by
  simp [Dimension.extent, List.foldl_append, List.foldl_map]

/-- Adding the summaries of children one after the other. -/
theorem foldl_children [AddMonoid σ] {items : List α} (hlawful : Dimension.Lawful δ items)
    {k : ℕ} {trees : List (SumTree α σ)} (hrow : SumTree.Row k trees) {done : List α}
    (hpre : done ++ SumTree.toLists trees <+: items) :
    (trees.map SumTree.summary).foldl Dimension.addSummary (Dimension.extent δ done) =
      Dimension.extent δ (done ++ SumTree.toLists trees) := by
  induction trees generalizing done with
  | nil => simp
  | cons tree trees ih =>
    obtain ⟨⟨wf, hne⟩, hrest⟩ := SumTree.Row.cons_iff.mp hrow
    rw [SumTree.toLists_cons, ← List.append_assoc] at hpre
    have hpreTree : done ++ tree.toList <+: items := (List.prefix_append _ _).trans hpre
    rw [List.map_cons, List.foldl_cons, wf.summary_eq,
      hlawful.add_measure _ _ hpreTree.isInfix hne, ih hrest hpre, SumTree.toLists_cons,
      List.append_assoc]

/-- No child of a rejected run of children has an item that the filter accepts. -/
theorem rejects_children {filterNode : σ → Bool} {root : SumTree α σ}
    (hsound : FilterSound filterNode root) {trees : List (SumTree α σ)}
    (hnodes : ∀ tree ∈ trees, root.HasNode tree)
    (hreject : ∀ tree ∈ trees, filterNode tree.summary = false) :
    ∀ item ∈ SumTree.toLists trees, filterNode (Item.summary item) = false := by
  induction trees with
  | nil => simp
  | cons tree trees ih =>
    rw [SumTree.toLists_cons]
    intro item hitem
    rcases List.mem_append.mp hitem with htree | htrees
    · exact hsound.rejects (hnodes tree (by simp)) (hreject tree (by simp)) item htree
    · exact ih (fun t ht => hnodes t (by simp [ht])) (fun t ht => hreject t (by simp [ht]))
        item htrees

section Forward

/-- The progress of a forward search from index `start`: `done` is behind it, and
the filter rejects every item it went past. -/
structure Skipped (filterNode : σ → Bool) (items : List α) (start : ℕ) (done : List α) :
    Prop where
  isPrefix : done <+: items
  start_le : start ≤ done.length
  rejects : ∀ item ∈ done.drop start, filterNode (Item.summary item) = false

theorem Skipped.append {filterNode : σ → Bool} {items : List α} {start : ℕ} {done run : List α}
    (hskip : Skipped filterNode items start done) (hpre : done ++ run <+: items)
    (hrun : ∀ item ∈ run, filterNode (Item.summary item) = false) :
    Skipped filterNode items start (done ++ run) := by
  refine ⟨hpre, hskip.start_le.trans (by simp), fun item hitem => ?_⟩
  rw [List.drop_append_of_le_length hskip.start_le, List.mem_append] at hitem
  exact hitem.elim (hskip.rejects item) (hrun item)

/-- The index at which a forward search ends. -/
theorem Skipped.length_eq {filterNode : σ → Bool} {items : List α} {start : ℕ} {done : List α}
    (hskip : Skipped filterNode items start done)
    (haccept : ∀ item, items[done.length]? = some item → filterNode (Item.summary item) = true) :
    done.length = acceptedFrom filterNode items start := by
  obtain ⟨rest, rfl⟩ := hskip.isPrefix
  have hskipped : (done.drop start).findIdx (fun item => filterNode (Item.summary item)) =
      (done.drop start).length := List.findIdx_eq_length_of_false hskip.rejects
  have hrest : rest.findIdx (fun item => filterNode (Item.summary item)) = 0 := by
    cases rest with
    | nil => rfl
    | cons item rest => simp [List.findIdx_cons, haccept item (by simp)]
  have hstart := hskip.start_le
  rw [acceptedFrom, List.drop_append_of_le_length hstart, List.findIdx_append, hskipped, hrest,
    if_neg (Nat.lt_irrefl _), List.length_drop]
  omega

/-- The inner loops of `search_forward` skip a run of rejected entries. -/
theorem skipEntries_spec {β : Type} (filterNode : σ → Bool) (summarize : β → σ)
    (entries : List β) (index : ℕ) (entryPosition position : δ) :
    ∃ skipped rest, entries = skipped ++ rest ∧
      skipEntries filterNode (entries.map summarize) index entryPosition position =
        (index + skipped.length, (skipped.map summarize).foldl Dimension.addSummary entryPosition,
          (skipped.map summarize).foldl Dimension.addSummary position) ∧
      (∀ entry ∈ skipped, filterNode (summarize entry) = false) ∧
      ∀ entry, rest.head? = some entry → filterNode (summarize entry) = true := by
  induction entries generalizing index entryPosition position with
  | nil => exact ⟨[], [], rfl, by simp [skipEntries], by simp, by simp⟩
  | cons entry entries ih =>
    rw [List.map_cons, skipEntries]
    by_cases haccept : filterNode (summarize entry) = true
    · rw [if_pos haccept]
      exact ⟨[], entry :: entries, rfl, by simp, by simp, by simpa using haccept⟩
    · obtain ⟨skipped, rest, hsplit, hloop, hskipped, hrest⟩ := ih (index + 1)
        (Dimension.addSummary entryPosition (summarize entry))
        (Dimension.addSummary position (summarize entry))
      rw [if_neg haccept, hloop]
      refine ⟨entry :: skipped, rest, by simp [hsplit], ?_, ?_, hrest⟩
      · simp [Nat.add_comm, Nat.add_left_comm]
      · simpa [haccept] using hskipped

variable [AddMonoid σ] {filterNode : σ → Bool} {root : SumTree α σ} {h start : ℕ}

/-- The invariant of a forward search from index `start`. -/
def SearchForwardInv (filterNode : σ → Bool) (root : SumTree α σ) (h start : ℕ)
    (s : List (StackEntry α σ δ) × δ × Bool) : Prop :=
  ∃ done, Skipped filterNode root.toList start done ∧ s.2.1 = Dimension.extent δ done ∧
    Resumes root h done (!s.2.2) s.1

/-- What a forward search from index `start` ends with: an accepted item or the end. -/
def SearchForwardPost (filterNode : σ → Bool) (root : SumTree α σ) (h start : ℕ)
    (r : List (StackEntry α σ δ) × δ × Bool) : Prop :=
  ∃ done, Skipped filterNode root.toList start done ∧ r.2.1 = Dimension.extent δ done ∧
    SitsAt root h done r.1 ∧ r.2.2 = !r.1.isEmpty ∧
    ∀ item, root.toList[done.length]? = some item → filterNode (Item.summary item) = true

/-- One round at an internal node: it ends one level deeper or one level higher. -/
theorem searchForwardRound_internal (wf : SumTree.WellFormed h root) (hh : h ≤ 15)
    (hlawful : Dimension.Lawful δ root.toList) (hsound : FilterSound filterNode root)
    {entry : StackEntry α σ δ} {rest : List (StackEntry α σ δ)} {done : List α} {descend : Bool}
    (hinternal : entry.tree.isLeaf = false)
    (hskip : Skipped filterNode root.toList start done)
    (hres : Resumes root h done (!descend) (entry :: rest)) :
    Foundation.Advances (SearchForwardInv filterNode root h start)
      (fun s => forwardWeight (!s.2.2) s.1) (SearchForwardPost filterNode root h start)
      (forwardWeight (!descend) (entry :: rest))
      (searchForwardRound filterNode (entry :: rest, Dimension.extent δ done, descend)) := by
  obtain ⟨k, index, hentry, hindex, hloc, hdone⟩ := hres.entered wf hinternal
  have hwf := hloc.wellFormed wf
  obtain ⟨tree, index₀, position₀⟩ := entry
  simp only at hentry hindex hloc hdone hwf
  cases hwf with
  | @internal _ childTrees hne hcapacity hchildren hoccupied =>
    have hrow : SumTree.Row k childTrees := ⟨hchildren, hoccupied⟩
    have hcontents := hloc.contents
    rw [stackBefore, ← hdone] at hcontents
    obtain ⟨skipped, rest', hsplit, hloop, hskipped, -⟩ := skipEntries_spec filterNode
      SumTree.summary (childTrees.drop index) index (Dimension.extent δ done)
      (Dimension.extent δ done)
    have hrowSkipped : SumTree.Row k skipped := by
      have hrowDrop := hrow.drop index
      rw [hsplit, SumTree.Row.append_iff] at hrowDrop
      exact hrowDrop.1
    have hpre : done ++ SumTree.toLists skipped <+: root.toList := by
      rw [hcontents, SumTree.after, hsplit, SumTree.toLists_append]
      exact ⟨SumTree.toLists rest' ++ outerAfter rest, by simp⟩
    have hnodes : ∀ tree ∈ skipped, root.HasNode tree := by
      intro tree htree
      have hmem : tree ∈ childTrees :=
        List.mem_of_mem_drop (hsplit ▸ List.mem_append_left rest' htree)
      obtain ⟨i, hget⟩ := List.getElem?_of_mem hmem
      exact .child hloc.hasNode ⟨_, _, _, _, rfl, hget⟩
    have hskip' := hskip.append hpre (rejects_children hsound hnodes hskipped)
    rw [foldl_children hlawful hrowSkipped hpre, List.map_drop] at hloop
    have hentry' : (if descend = true then
          (⟨SumTree.parentOf k childTrees, index₀, position₀⟩ : StackEntry α σ δ)
        else ⟨SumTree.parentOf k childTrees, index₀ + 1, Dimension.extent δ done⟩) =
        ⟨SumTree.parentOf k childTrees, index, Dimension.extent δ done⟩ := by
      cases descend <;> simpa using hentry
    simp only [SumTree.parentOf] at hentry'
    simp only [searchForwardRound, hentry', hloop, forwardWeight, ← hindex]
    cases rest' with
    | nil =>
      have hget : childTrees[index + skipped.length]? = none := by
        rw [← List.head?_drop, (take_drop_of_drop_eq hsplit).2, List.head?_nil]
      rw [hget]
      refine ⟨⟨_, hskip', rfl, hloc.resumes_pop hdone (by simpa using hsplit)⟩, ?_⟩
      show forwardWeight true rest < _
      rw [forwardWeight_ascending]
      omega
    | cons child rest' =>
      obtain ⟨hget, hpush, hresume, hweight⟩ := hloc.resumes_push hh hdone hsplit rfl rfl
      simp only [SumTree.parentOf] at hpush
      simp only [hget, hpush, Option.bind_eq_bind, Option.bind_some]
      exact ⟨⟨_, hskip', rfl, hresume⟩, hweight⟩

/-- One round at a leaf that was just entered: the search stops there or goes on
above it. -/
theorem searchForwardRound_leaf {items : List α} {index : ℕ} {position : δ}
    {rest : List (StackEntry α σ δ)} {done : List α}
    (hloc : Located root h 0 (⟨.leaf (SumTree.measure items) items (items.map Item.summary),
      index, position⟩ :: rest))
    (hdone : done = stackBefore rest ++ items.take index)
    (hskip : Skipped filterNode root.toList start done) {weight : ℕ}
    (hweight : outerWeight rest < weight) :
    Foundation.Advances (SearchForwardInv filterNode root h start)
      (fun s => forwardWeight (!s.2.2) s.1) (SearchForwardPost filterNode root h start) weight
      (searchForwardRound filterNode
        (⟨.leaf (SumTree.measure items) items (items.map Item.summary), index, position⟩ :: rest,
          Dimension.extent δ done, true)) := by
  have hcontents := hloc.contents
  rw [stackBefore, SumTree.before, SumTree.after, ← hdone] at hcontents
  have hle : index ≤ items.length := by simpa [SumTree.width] using hloc.index_le
  obtain ⟨skipped, rest', hsplit, hloop, hskipped, haccept⟩ := skipEntries_spec filterNode
    Item.summary (items.drop index) index position (Dimension.extent δ done)
  obtain ⟨htake, hdrop⟩ := take_drop_of_drop_eq hsplit
  have hpre : done ++ skipped <+: root.toList := by
    rw [hcontents, hsplit]
    exact ⟨rest' ++ outerAfter rest, by simp⟩
  have hskip' := hskip.append hpre hskipped
  have hlength := congrArg List.length hsplit
  rw [List.length_drop, List.length_append] at hlength
  rw [foldl_items, List.map_drop] at hloop
  simp only [searchForwardRound, if_true, Option.bind_eq_bind, Option.bind_some, hloop,
    List.length_map]
  cases rest' with
  | nil =>
    rw [List.length_nil] at hlength
    rw [if_neg (by omega)]
    refine ⟨⟨_, hskip', rfl, ?_⟩, ?_⟩
    · have hall := hloc.resumes_rest
      rwa [SumTree.toList_leaf, ← List.take_append_drop index items, ← List.append_assoc,
        ← hdone, hsplit, List.append_nil] at hall
    · show forwardWeight true rest < _
      rwa [forwardWeight_ascending]
  | cons item rest' =>
    rw [List.length_cons] at hlength
    have hlt : index + skipped.length < items.length := by omega
    rw [if_pos hlt]
    refine ⟨done ++ skipped, hskip', rfl, ?_, rfl, ?_⟩
    · refine .atItem (hloc.setTop hlt.le) hlt ?_
      rw [stackBefore, SumTree.before, htake, hdone, List.append_assoc]
    · rw [hcontents, hsplit, List.append_assoc, ← List.append_assoc done,
        List.getElem?_append_right (Nat.le_refl _), Nat.sub_self]
      intro next hnext
      exact haccept next hnext

/-- A forward search from where it can resume stops at the first item that the
filter accepts. -/
theorem searchForwardLoop_spec (wf : SumTree.WellFormed h root) (hh : h ≤ 15)
    (hlawful : Dimension.Lawful δ root.toList) (hsound : FilterSound filterNode root)
    {s : List (StackEntry α σ δ) × δ × Bool} (hinv : SearchForwardInv filterNode root h start s)
    {fuel : ℕ} (hfuel : forwardWeight (!s.2.2) s.1 < fuel) :
    ∃ r, Foundation.loop (searchForwardRound filterNode) fuel s = some r ∧
      SearchForwardPost filterNode root h start r := by
  refine Foundation.loop_of_advances (SearchForwardInv filterNode root h start)
    (fun s => forwardWeight (!s.2.2) s.1) ?_ hinv hfuel
  rintro ⟨stack, position, descend⟩ ⟨done, hskip, rfl, hres⟩
  cases stack with
  | nil =>
    refine ⟨done, hskip, rfl, .atEnd hres.done_eq, rfl, ?_⟩
    rw [hres.done_eq, List.getElem?_eq_none (Nat.le_refl _)]
    simp
  | cons entry rest =>
    cases hleaf : entry.tree.isLeaf with
    | false => exact searchForwardRound_internal wf hh hlawful hsound hleaf hskip hres
    | true =>
      obtain ⟨hdescend, hloc, hdone, items, -, htree⟩ := hres.leaf wf hleaf
      obtain rfl : descend = true := by simpa using hdescend
      obtain ⟨tree, index, position⟩ := entry
      obtain rfl : tree = _ := htree
      exact searchForwardRound_leaf hloc hdone hskip
        (by simp only [forwardWeight]; omega)

omit [Item α σ] [AddMonoid σ] in
/-- At the end, a forward search stays where it is. -/
theorem searchForward_atEnd {c : Cursor α σ δ} (hstack : c.stack = []) (hend : c.atEnd = true) :
    searchForward filterNode c = some { c with didSeek := true } := by
  have hloop : Foundation.loop (searchForwardRound filterNode) c.tree.weight
      (([] : List (StackEntry α σ δ)), c.position, false) = some ([], c.position, false) := by
    rw [SumTree.weight_eq, Nat.add_comm, Foundation.loop, searchForwardRound]
  obtain ⟨tree, stack, position, didSeek, atEnd⟩ := c
  obtain rfl : stack = [] := hstack
  obtain rfl : atEnd = true := hend
  simp only at hloop
  simp [searchForward, hloop]

omit [AddMonoid σ] in
/-- The cursor with the result of a forward search represents the next accepted index. -/
theorem SearchForwardPost.represents {r : List (StackEntry α σ δ) × δ × Bool}
    (hpost : SearchForwardPost filterNode root h start r) :
    Represents root h ⟨root, r.1, r.2.1, true, if r.2.2 = true then false else r.1.isEmpty⟩
      (.at (acceptedFrom filterNode root.toList start)) := by
  obtain ⟨done, hskip, hposition, hsits, hreturned, haccept⟩ := hpost
  have hdone := List.prefix_iff_eq_take.mp hskip.isPrefix
  rw [← hskip.length_eq haccept]
  refine ⟨rfl, rfl, hskip.isPrefix.length_le, hdone ▸ hsits, hdone ▸ hposition, ?_⟩
  rw [hreturned]
  cases r.1 <;> rfl

/-- A forward search that starts over finds the first accepted item. -/
theorem searchForward_root (wf : SumTree.WellFormed h root) (hh : h ≤ 15)
    (hlawful : Dimension.Lawful δ root.toList) (hsound : FilterSound filterNode root)
    {c : Cursor α σ δ} (htree : c.tree = root) (hstack : c.stack = [])
    (hposition : c.position = Dimension.zero) (hend : c.atEnd = false) :
    ∃ c', searchForward filterNode c = some c' ∧
      Represents root h c' (.at (acceptedFrom filterNode root.toList 0)) := by
  have hloc : Located root h h [(⟨root, 0, Dimension.zero⟩ : StackEntry α σ δ)] :=
    .root (Nat.zero_le _)
  have hinv : SearchForwardInv filterNode root h 0
      ([(⟨root, 0, Dimension.zero⟩ : StackEntry α σ δ)], Dimension.zero, true) :=
    ⟨[], ⟨List.nil_prefix, Nat.le_refl _, by simp⟩, rfl,
      .enter hloc (by simp [stackBefore]) fun _ => rfl⟩
  obtain ⟨r, hloop, hpost⟩ := searchForwardLoop_spec wf hh hlawful hsound hinv
    (hloc.forwardWeight_lt false)
  refine ⟨_, ?_, hpost.represents⟩
  obtain ⟨tree, stack, position, didSeek, atEnd⟩ := c
  simp only at htree hstack hposition hend
  subst htree hstack hposition hend
  simp [searchForward, pushEntry, hloop]

/-- A forward search from an item goes on behind it. -/
theorem searchForward_item (wf : SumTree.WellFormed h root) (hh : h ≤ 15)
    (hlawful : Dimension.Lawful δ root.toList) (hsound : FilterSound filterNode root)
    {c : Cursor α σ δ} {index : ℕ} (hrep : Represents root h c (.at index))
    (hlt : index < root.toList.length) :
    ∃ c', searchForward filterNode c = some c' ∧
      Represents root h c' (.at (acceptedFrom filterNode root.toList (index + 1))) := by
  have hobserve := hrep.observe wf
  obtain ⟨htree, hseek, hle, hsits, hposition, hend⟩ := hrep
  obtain ⟨tree, stack, position, didSeek, atEnd⟩ := c
  simp only at htree hseek hsits hposition hend hobserve
  rcases hobserve with ⟨-, hget⟩ | ⟨⟨leaf, i, p⟩, rest, items, item, rfl, hleaf, hitem, hget⟩
  · exact absurd (List.getElem?_eq_none_iff.mp hget) (by omega)
  · obtain rfl : leaf = _ := hleaf
    cases hsits with
    | atItem hloc hwidth hdone =>
      have hfirst : searchForwardRound filterNode (⟨.leaf (SumTree.measure items) items
            (items.map Item.summary), i, p⟩ :: rest, position, false) =
          searchForwardRound filterNode (⟨.leaf (SumTree.measure items) items
            (items.map Item.summary), i + 1, Dimension.addSummary p (Item.summary item)⟩ :: rest,
            Dimension.addSummary position (Item.summary item), true) := by
        simp [searchForwardRound, hitem]
      have htake : root.toList.take (index + 1) = root.toList.take index ++ [item] := by
        rw [List.take_add_one, hget, Option.toList_some]
      have hlength : (root.toList.take (index + 1)).length = index + 1 :=
        List.length_take_of_le hlt
      have hskip : Skipped filterNode root.toList (index + 1) (root.toList.take (index + 1)) := by
        refine ⟨List.take_prefix _ _, hlength.ge, ?_⟩
        rw [List.drop_of_length_le hlength.le]
        simp
      have hloc' : Located root h 0 (⟨.leaf (SumTree.measure items) items
          (items.map Item.summary), i + 1, Dimension.addSummary p (Item.summary item)⟩ :: rest) :=
        hloc.setTop hwidth
      have hinv : SearchForwardInv filterNode root h (index + 1) (⟨.leaf (SumTree.measure items)
          items (items.map Item.summary), i + 1, Dimension.addSummary p (Item.summary item)⟩ ::
          rest, Dimension.addSummary position (Item.summary item), true) := by
        refine ⟨_, hskip, ?_, .enter hloc' ?_ fun hpos => absurd hpos (Nat.lt_irrefl 0)⟩
        · rw [htake, Dimension.extent_concat, ← hposition]
        · rw [htake, hdone, stackBefore, stackBefore, SumTree.before, SumTree.before,
            List.take_add_one, hitem, Option.toList_some, List.append_assoc]
      obtain ⟨r, hloop, hpost⟩ := searchForwardLoop_spec wf hh hlawful hsound hinv
        (hloc'.forwardWeight_lt false)
      refine ⟨_, ?_, hpost.represents⟩
      rw [← Foundation.loop_congr hfirst] at hloop
      simp [searchForward, htree, hseek, hend, hloop]

/-- A forward search moves to the next accepted item. -/
theorem searchForward_spec (wf : SumTree.WellFormed h root) (hh : h ≤ 15)
    (hlawful : Dimension.Lawful δ root.toList) (hsound : FilterSound filterNode root)
    {c : Cursor α σ δ} {place : Place} (hrep : Represents root h c place) :
    ∃ c', searchForward filterNode c = some c' ∧
      Represents root h c' (place.searchForward filterNode root.toList) := by
  have hstart : ∀ {didSeek}, c.tree = root ∧ c.didSeek = didSeek ∧ c.stack = [] ∧
      c.position = Dimension.zero ∧ c.atEnd = root.isEmpty →
      ∃ c', searchForward filterNode c = some c' ∧
        Represents root h c' (.at (acceptedFrom filterNode root.toList 0)) := by
    rintro didSeek ⟨htree, -, hstack, hposition, hend⟩
    cases hempty : root.isEmpty with
    | false =>
      exact searchForward_root wf hh hlawful hsound htree hstack hposition (hend.trans hempty)
    | true =>
      have hnil := wf.isEmpty_iff.mp hempty
      rw [hempty] at hend
      refine ⟨_, searchForward_atEnd hstack hend, ?_⟩
      rw [hnil, acceptedFrom, List.drop_nil, List.findIdx_nil]
      exact ⟨htree, rfl, Nat.zero_le _, hstack ▸ .atEnd (by simp [hnil]), by simpa using hposition,
        by rw [hend, hstack]; rfl⟩
  cases place with
  | unsought | before => exact hstart hrep
  | «at» index =>
    rw [Place.searchForward]
    split
    case isFalse hne =>
      exact searchForward_item wf hh hlawful hsound hrep (lt_of_le_of_ne hrep.2.2.1 hne)
    case isTrue heq =>
      obtain ⟨htree, hseek, hle, hsits, hposition, hend⟩ := hrep
      cases hstack : c.stack with
      | nil =>
        rw [hstack] at hend
        refine ⟨_, searchForward_atEnd hstack hend, htree, rfl, hle, hsits, hposition, ?_⟩
        rw [hend, hstack]
      | cons entry rest =>
        rw [hstack] at hsits
        obtain ⟨_, item, _, _, hget⟩ := hsits.getElem? wf
        have hlt := (List.getElem?_eq_some_iff.mp hget).1
        rw [List.length_take_of_le hle, heq] at hlt
        exact absurd hlt (Nat.lt_irrefl _)

end Forward

end Cursor

end Lucie
