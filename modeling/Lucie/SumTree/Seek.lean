import Lucie.SumTree.Path

/-!
# Seeking forward

A seek walks forward from where the cursor rests and passes items as long as they
end before its target. The invariant of the walk says which items are behind it,
that all of them from the start of the walk on are passed, and what the aggregate
has collected from them. When the walk stops, the number of items behind it is
determined by the target.
-/

set_option autoImplicit false

namespace Lucie

variable {α σ δ : Type} [Item α σ] [Dimension δ σ]

namespace SeekAggregate

variable {A : Type} [AddMonoid σ]

/-- What an aggregate must do on a tree with the given items: `Holds run a` says
that it has collected a run of items, and `Collects run leaf a` that it has in
addition collected some items of the leaf it is in. -/
structure Gathers (aggregate : SeekAggregate α σ A) (items : List α)
    (Holds : List α → A → Prop) (Collects : List α → List α → A → Prop) : Prop where
  beginLeaf : ∀ {run a}, Holds run a → ∃ a', aggregate.beginLeaf a = some a' ∧ Collects run [] a'
  pushItem : ∀ {run leaf item a}, Collects run leaf a → leaf.length < 2 * TREE_BASE →
    run ++ leaf ++ [item] <:+: items →
    ∃ a', aggregate.pushItem a item (Item.summary item) = some a' ∧ Collects run (leaf ++ [item]) a'
  endLeaf : ∀ {run leaf a}, Collects run leaf a →
    ∃ a', aggregate.endLeaf a = some a' ∧ Holds (run ++ leaf) a'
  pushTree : ∀ {run a k tree}, Holds run a → SumTree.WellFormed k tree →
    tree.toList ≠ [] → run ++ tree.toList <:+: items →
    ∃ a', aggregate.pushTree a tree tree.summary = some a' ∧ Holds (run ++ tree.toList) a'

theorem unit_gathers (items : List α) :
    Gathers unitAggregate items (fun _ _ => True) (fun _ _ _ => True) where
  beginLeaf _ := ⟨_, rfl, trivial⟩
  pushItem _ _ _ := ⟨_, rfl, trivial⟩
  endLeaf _ := ⟨_, rfl, trivial⟩
  pushTree _ _ _ _ := ⟨_, rfl, trivial⟩

/-- A slice keeps a well-formed tree of the items that it is through with, and the
items of the leaf it is in. -/
structure SliceCollects (run leaf : List α) (a : SliceSeekAggregate α σ) : Prop where
  wellFormed : ∃ k, SumTree.WellFormed k a.tree
  contents : a.tree.toList = run
  capacity : leaf.length ≤ 2 * TREE_BASE
  leafItems : a.leafItems = leaf
  leafItemSummaries : a.leafItemSummaries = leaf.map Item.summary
  leafSummary : a.leafSummary = SumTree.measure leaf

theorem SliceCollects.new :
    SliceCollects ([] : List α) [] (⟨SumTree.new, [], [], 0⟩ : SliceSeekAggregate α σ) :=
  ⟨⟨0, SumTree.new_spec⟩, rfl, Nat.zero_le _, rfl, rfl, rfl⟩

theorem slice_gathers (items : List α) :
    Gathers sliceAggregate items (fun run a => SliceCollects run [] a) SliceCollects where
  beginLeaf ha := ⟨_, rfl, ha⟩
  pushItem := by
    rintro run leaf item a ⟨hwf, hrun, -, hitems, hsummaries, hsum⟩ hroom -
    have hleaf : (leaf ++ [item]).length ≤ 2 * TREE_BASE := by
      rw [List.length_append]
      exact hroom
    refine ⟨⟨a.tree, leaf ++ [item], (leaf ++ [item]).map Item.summary,
      a.leafSummary + Item.summary item⟩, ?_, hwf, hrun, hleaf, rfl, rfl, ?_⟩
    · simp only [sliceAggregate, hitems, hsummaries, ← List.map_singleton (f := Item.summary),
        ← List.map_append, Option.bind_eq_bind, arrayVec_eq_some hleaf, Option.bind_some]
      rw [arrayVec_eq_some (by simpa using hleaf), Option.bind_some]
    · rw [hsum, SumTree.measure_append]
      simp [SumTree.measure]
  endLeaf := by
    rintro run leaf a ⟨⟨k, wf⟩, hrun, hcapacity, hitems, hsummaries, hsum⟩
    have wfLeaf : SumTree.WellFormed 0 (.leaf a.leafSummary a.leafItems a.leafItemSummaries) :=
      .ofItems _ (by rwa [hitems]) (by rw [hsummaries, hitems]) (by rw [hsum, hitems])
    obtain ⟨result, l, hresult, wf', hcontents⟩ := SumTree.append_spec wf wfLeaf
    refine ⟨⟨result, [], [], 0⟩, by simp [sliceAggregate, hresult], ⟨l, wf'⟩, ?_,
      Nat.zero_le _, rfl, rfl, rfl⟩
    rw [hcontents, hrun, SumTree.toList_leaf, hitems]
  pushTree := by
    rintro run a k tree ⟨⟨l, wf⟩, hrun, hcapacity, hitems, hsummaries, hsum⟩ wfTree - -
    obtain ⟨result, m, hresult, wf', hcontents⟩ := SumTree.append_spec wf wfTree
    refine ⟨{ a with tree := result }, ?_, ⟨m, wf'⟩, ?_, hcapacity, hitems, hsummaries, hsum⟩
    · simp [sliceAggregate, hresult]
    · rw [hcontents, hrun]

/-- The summary of a walk is the dimension of the run alone. -/
theorem summary_gathers {ω : Type} [Dimension ω σ] {items : List α}
    (hlawful : Dimension.Lawful ω items) :
    Gathers summaryAggregate items (fun run a => a = Dimension.extent ω run)
      (fun run leaf a => a = Dimension.extent ω (run ++ leaf)) where
  beginLeaf ha := ⟨_, rfl, by simpa using ha⟩
  pushItem := by
    rintro run leaf item a rfl - -
    exact ⟨_, rfl, by rw [← List.append_assoc, Dimension.extent_concat]⟩
  endLeaf ha := ⟨_, rfl, ha⟩
  pushTree := by
    rintro run a k tree rfl wf hne hinf
    exact ⟨_, rfl, by rw [wf.summary_eq, hlawful.add_measure _ _ hinf hne]⟩

end SeekAggregate

namespace Cursor

/-- The progress of a seek that started with `start` items behind it: `done` is now
behind it, and for a monotone target every item it went past is passed. -/
structure Walked (target : SeekTarget δ) (bias : Bias) (items : List α) (start : ℕ)
    (done : List α) : Prop where
  isPrefix : done <+: items
  start_le : start ≤ done.length
  passes : target.MonotoneOn items → ∀ i, start ≤ i → i < done.length →
    target.passes bias (Dimension.extent δ (items.take (i + 1))) = true

namespace Walked

variable {target : SeekTarget δ} {bias : Bias} {items : List α} {start : ℕ} {done run : List α}

/-- Monotonicity lets a seek go past a whole run of items by looking at its end. -/
theorem append (hwalk : Walked target bias items start done)
    (hpre : done ++ run <+: items)
    (hpass : target.passes bias (Dimension.extent δ (done ++ run)) = true) :
    Walked target bias items start (done ++ run) := by
  refine ⟨hpre, hwalk.start_le.trans (by simp), fun hmono i _ hi => ?_⟩
  rw [List.prefix_iff_eq_take.mp hpre] at hpass
  exact hmono.passes_of_le hi hpre.length_le hpass

/-- A walk has passed everything or stands before an item that is not passed. -/
def Blocked (target : SeekTarget δ) (bias : Bias) (items done : List α) : Prop :=
  done = items ∨ ∃ item, done ++ [item] <+: items ∧
    target.passes bias (Dimension.extent δ (done ++ [item])) = false

/-- Where a blocked walk stands depends on the target alone. -/
theorem length_eq (hwalk : Walked target bias items start done)
    (hmono : target.MonotoneOn items) (hblocked : Blocked target bias items done) :
    done.length = max start (target.leading bias items) := by
  have hle : target.leading bias items ≤ done.length := by
    rcases hblocked with rfl | ⟨item, hpre, hblock⟩
    · exact SeekTarget.leading_le target bias done
    · by_contra! hlt
      have hpass := SeekTarget.passes_of_lt_leading hlt
      rw [List.prefix_iff_eq_take.mp hpre, List.length_append, List.length_singleton,
        hpass] at hblock
      exact absurd hblock (by decide)
  have hge : start < done.length → done.length ≤ target.leading bias items := by
    intro hlt
    have hlength := hwalk.isPrefix.length_le
    refine SeekTarget.le_leading hlength fun i hi => ?_
    have hlast := hwalk.passes hmono (done.length - 1) (by omega) (by omega)
    exact hmono.passes_of_le (by omega) (by omega) hlast
  have hstart := hwalk.start_le
  omega

/-- The items that a seek has gone past grow with those behind it. -/
theorem drop_append (hwalk : Walked target bias items start done)
    (run : List α) : (done ++ run).drop start = done.drop start ++ run :=
  List.drop_append_of_le_length hwalk.start_le

theorem drop_infix (hwalk : Walked target bias items start done)
    (hpre : done ++ run <+: items) : done.drop start ++ run <:+: items := by
  rw [← hwalk.drop_append]
  exact (List.drop_suffix _ _).isInfix.trans hpre.isInfix

end Walked

section Walk

variable [AddMonoid σ] {A : Type} {target : SeekTarget δ} {bias : Bias}
  {aggregate : SeekAggregate α σ A} {Holds : List α → A → Prop}
  {Collects : List α → List α → A → Prop} {root : SumTree α σ} {h start : ℕ}

/-- The loop over the children of a node passes a run of them and stops at the
first one that is not passed. -/
theorem seekChildren_spec {items : List α} (hgathers : aggregate.Gathers items Holds Collects)
    (hlawful : Dimension.Lawful δ items) {k : ℕ}
    {trees : List (SumTree α σ)} (hrow : SumTree.Row k trees) {done : List α}
    (hwalk : Walked target bias items start done)
    (hpre : done ++ SumTree.toLists trees <+: items) {a : A}
    (ha : Holds (done.drop start) a) (index : ℕ) :
    ∃ passed rest a', trees = passed ++ rest ∧
      seekChildren target bias aggregate (trees.zip (trees.map SumTree.summary)) index
          (Dimension.extent δ done) (Dimension.extent δ done) a =
        some (index + passed.length, Dimension.extent δ (done ++ SumTree.toLists passed),
          Dimension.extent δ (done ++ SumTree.toLists passed), a', rest.head?) ∧
      Walked target bias items start (done ++ SumTree.toLists passed) ∧
      Holds ((done ++ SumTree.toLists passed).drop start) a' := by
  induction trees generalizing done a index with
  | nil => exact ⟨[], [], a, rfl, by simp [seekChildren], by simpa using hwalk, by simpa using ha⟩
  | cons tree trees ih =>
    obtain ⟨⟨wf, hne⟩, hrest⟩ := SumTree.Row.cons_iff.mp hrow
    rw [SumTree.toLists_cons, ← List.append_assoc] at hpre
    have hpreTree : done ++ tree.toList <+: items := (List.prefix_append _ _).trans hpre
    have hend : Dimension.addSummary (Dimension.extent δ done) tree.summary =
        Dimension.extent δ (done ++ tree.toList) := by
      rw [wf.summary_eq, hlawful.add_measure _ _ hpreTree.isInfix hne]
    rw [List.map_cons, List.zip_cons_cons, seekChildren, hend]
    by_cases hpass : target.passes bias (Dimension.extent δ (done ++ tree.toList)) = true
    · obtain ⟨a₁, hpush, ha₁⟩ :=
        hgathers.pushTree ha wf hne (hwalk.drop_infix hpreTree)
      rw [← hwalk.drop_append] at ha₁
      obtain ⟨passed, rest, a', htrees, hloop, hwalk', ha'⟩ :=
        ih hrest (hwalk.append hpreTree hpass) hpre ha₁ (index + 1)
      refine ⟨tree :: passed, rest, a', by simp [htrees], ?_, ?_, ?_⟩
      · simp only [if_pos hpass, hpush, Option.bind_eq_bind, Option.bind_some, hloop]
        simp [Nat.add_comm, Nat.add_left_comm]
      · simpa using hwalk'
      · simpa using ha'
    · rw [if_neg hpass]
      exact ⟨[], tree :: trees, a, rfl, by simp, by simpa using hwalk, by simpa using ha⟩

/-- The loop over the items of a leaf passes a run of them and stops at the first
one that is not passed. -/
theorem seekItems_spec {items : List α} (hgathers : aggregate.Gathers items Holds Collects)
    {entries run leaf done : List α}
    (hwalk : Walked target bias items start done) (hpre : done ++ entries <+: items)
    (hdone : done.drop start = run ++ leaf) (hroom : leaf.length + entries.length ≤ 2 * TREE_BASE)
    {a : A} (ha : Collects run leaf a) (index : ℕ) :
    ∃ passed rest a', entries = passed ++ rest ∧
      seekItems target bias aggregate (entries.zip (entries.map Item.summary)) index
          (Dimension.extent δ done) a =
        some (index + passed.length, Dimension.extent δ (done ++ passed), a', !rest.isEmpty) ∧
      Walked target bias items start (done ++ passed) ∧ Collects run (leaf ++ passed) a' ∧
      ∀ item, rest.head? = some item →
        target.passes bias (Dimension.extent δ (done ++ passed ++ [item])) = false := by
  induction entries generalizing done leaf a index with
  | nil =>
    exact ⟨[], [], a, rfl, by simp [seekItems], by simpa using hwalk, by simpa using ha, by simp⟩
  | cons item entries ih =>
    have hpreItem : done ++ [item] <+: items :=
      (List.prefix_append_right_inj _ |>.mpr (by simp)).trans hpre
    rw [List.map_cons, List.zip_cons_cons, seekItems, ← Dimension.extent_concat]
    by_cases hpass : target.passes bias (Dimension.extent δ (done ++ [item])) = true
    · rw [List.length_cons] at hroom
      obtain ⟨a₁, hpush, ha₁⟩ := hgathers.pushItem ha (by omega)
        (by rw [← hdone]; exact hwalk.drop_infix hpreItem)
      obtain ⟨passed, rest, a', hentries, hloop, hwalk', ha', hstop⟩ :=
        ih (hwalk.append hpreItem hpass) (by simpa using hpre)
          (by rw [hwalk.drop_append, hdone, List.append_assoc])
          (by rw [List.length_append, List.length_singleton]; omega) ha₁ (index + 1)
      refine ⟨item :: passed, rest, a', by simp [hentries], ?_, ?_, ?_, ?_⟩
      · simp only [if_pos hpass, hpush, Option.bind_eq_bind, Option.bind_some, hloop]
        simp [Nat.add_comm, Nat.add_left_comm]
      · simpa using hwalk'
      · simpa using ha'
      · simpa using hstop
    · rw [if_neg hpass]
      exact ⟨[], item :: entries, a, rfl, by simp, by simpa using hwalk, by simpa using ha,
        by simpa using hpass⟩

/-- The invariant of a seek that started with `start` items behind it. -/
def SeekInv (target : SeekTarget δ) (bias : Bias) (Holds : List α → A → Prop)
    (root : SumTree α σ) (h start : ℕ) (s : List (StackEntry α σ δ) × δ × Bool × A) : Prop :=
  ∃ done, Walked target bias root.toList start done ∧ s.2.1 = Dimension.extent δ done ∧
    Holds (done.drop start) s.2.2.2 ∧ Resumes root h done s.2.2.1 s.1

/-- What a seek that started with `start` items behind it ends with. -/
def SeekPost (target : SeekTarget δ) (bias : Bias) (Holds : List α → A → Prop)
    (root : SumTree α σ) (h start : ℕ) (r : List (StackEntry α σ δ) × δ × A) : Prop :=
  ∃ done, Walked target bias root.toList start done ∧
    Walked.Blocked target bias root.toList done ∧ r.2.1 = Dimension.extent δ done ∧
    Holds (done.drop start) r.2.2 ∧ SitsAt root h done r.1

/-- One round at an internal node: it ends one level deeper or one level higher. -/
theorem seekRound_internal (wf : SumTree.WellFormed h root) (hh : h ≤ 15)
    (hgathers : aggregate.Gathers root.toList Holds Collects)
    (hlawful : Dimension.Lawful δ root.toList)
    {entry : StackEntry α σ δ} {rest : List (StackEntry α σ δ)} {done : List α}
    {ascending : Bool} {a : A} (hinternal : entry.tree.isLeaf = false)
    (hwalk : Walked target bias root.toList start done) (ha : Holds (done.drop start) a)
    (hres : Resumes root h done ascending (entry :: rest)) :
    Foundation.Advances (SeekInv target bias Holds root h start)
      (fun s => forwardWeight s.2.2.1 s.1) (SeekPost target bias Holds root h start)
      (forwardWeight ascending (entry :: rest))
      (seekRound target bias aggregate (entry :: rest, Dimension.extent δ done, ascending, a)) := by
  obtain ⟨k, index, hentry, hindex, hloc, hdone⟩ := hres.entered wf hinternal
  have hwf := hloc.wellFormed wf
  obtain ⟨tree, index₀, position₀⟩ := entry
  simp only at hentry hindex hloc hdone hwf
  cases hwf with
  | @internal _ childTrees hne hcapacity hchildren hoccupied =>
    have hrow : SumTree.Row k childTrees := ⟨hchildren, hoccupied⟩
    have hle : index ≤ childTrees.length := by simpa [SumTree.width] using hloc.index_le
    have hcontents := hloc.contents
    rw [stackBefore, ← hdone] at hcontents
    obtain ⟨passed, rest', a', hsplit, hloop, hwalk', ha'⟩ :=
      seekChildren_spec hgathers hlawful (hrow.drop index) hwalk
        (by rw [hcontents, ← List.append_assoc]; exact List.prefix_append _ _) ha index
    rw [List.map_drop] at hloop
    simp only [seekRound, hentry, List.length_map]
    rw [if_neg (by omega)]
    simp only [hloop, Option.bind_eq_bind, Option.bind_some, forwardWeight, ← hindex]
    cases rest' with
    | nil =>
      refine ⟨⟨_, hwalk', rfl, ha', hloc.resumes_pop hdone (by simpa using hsplit)⟩, ?_⟩
      show forwardWeight true rest < _
      rw [forwardWeight_ascending]
      omega
    | cons child rest' =>
      obtain ⟨-, hpush, hresume, hweight⟩ := hloc.resumes_push hh hdone hsplit rfl rfl
      simp only [List.head?_cons, hpush, Option.bind_some]
      exact ⟨⟨_, hwalk', rfl, ha', hresume⟩, hweight⟩

/-- One round at a leaf: the walk stops there or goes on above it. -/
theorem seekRound_leaf (wf : SumTree.WellFormed h root)
    (hgathers : aggregate.Gathers root.toList Holds Collects)
    {entry : StackEntry α σ δ} {rest : List (StackEntry α σ δ)} {done : List α}
    {ascending : Bool} {a : A} (hleaf : entry.tree.isLeaf = true)
    (hwalk : Walked target bias root.toList start done) (ha : Holds (done.drop start) a)
    (hres : Resumes root h done ascending (entry :: rest)) :
    Foundation.Advances (SeekInv target bias Holds root h start)
      (fun s => forwardWeight s.2.2.1 s.1) (SeekPost target bias Holds root h start)
      (forwardWeight ascending (entry :: rest))
      (seekRound target bias aggregate (entry :: rest, Dimension.extent δ done, ascending, a)) := by
  obtain ⟨rfl, hloc, hdone, items, hcapacity, htree⟩ := hres.leaf wf hleaf
  obtain ⟨tree, index, position⟩ := entry
  obtain rfl : tree = _ := htree
  rw [stackBefore, SumTree.before] at hdone
  have hle : index ≤ items.length := by simpa [SumTree.width] using hloc.index_le
  have hcontents := hloc.contents
  rw [stackBefore, SumTree.before, SumTree.after, ← hdone, ← List.append_assoc] at hcontents
  have hroom : ([] : List α).length + (items.drop index).length ≤ 2 * TREE_BASE := by
    rw [List.length_drop, List.length_nil]
    omega
  obtain ⟨a₁, hbegin, ha₁⟩ := hgathers.beginLeaf ha
  obtain ⟨passed, rest', a₂, hsplit, hloop, hwalk', ha₂, hstop⟩ := seekItems_spec hgathers
    hwalk (hcontents ▸ List.prefix_append _ _) (List.append_nil _).symm hroom ha₁ index
  obtain ⟨a₃, hend, ha₃⟩ := hgathers.endLeaf ha₂
  obtain ⟨htake, hdrop⟩ := take_drop_of_drop_eq hsplit
  rw [List.nil_append, ← hwalk.drop_append] at ha₃
  rw [List.map_drop] at hloop
  simp only [seekRound, hbegin, List.length_map, Option.bind_eq_bind, Option.bind_some]
  rw [if_neg (by omega)]
  simp only [hloop, hend, Option.bind_some]
  cases rest' with
  | nil =>
    refine ⟨⟨_, hwalk', rfl, ha₃, ?_⟩, ?_⟩
    · have hall := hloc.resumes_rest
      rwa [SumTree.toList_leaf, ← List.take_append_drop index items, ← List.append_assoc,
        ← hdone, hsplit, List.append_nil] at hall
    · show forwardWeight true rest < _
      rw [forwardWeight_ascending, forwardWeight]
      omega
  | cons item rest' =>
    have hpre : done ++ passed ++ [item] <+: root.toList := by
      rw [hcontents, hsplit]
      exact ⟨rest' ++ outerAfter rest, by simp⟩
    have hlt : index + passed.length < items.length := by
      have hlength := congrArg List.length hsplit
      rw [List.length_drop, List.length_append, List.length_cons] at hlength
      omega
    refine ⟨done ++ passed, hwalk', Or.inr ⟨item, hpre, hstop item rfl⟩, rfl, ha₃, ?_⟩
    refine .atItem (hloc.setTop hlt.le) hlt ?_
    rw [stackBefore, SumTree.before, htake, hdone, List.append_assoc]

/-- A seek from where a walk can resume returns, having gone past exactly the items
up to the first one that is not passed. -/
theorem seekLoop_spec (wf : SumTree.WellFormed h root) (hh : h ≤ 15)
    (hgathers : aggregate.Gathers root.toList Holds Collects)
    (hlawful : Dimension.Lawful δ root.toList)
    {stack : List (StackEntry α σ δ)} {done : List α} {a : A}
    (hwalk : Walked target bias root.toList start done) (ha : Holds (done.drop start) a)
    (hres : Resumes root h done false stack) :
    ∃ r, Foundation.loop (seekRound target bias aggregate) root.weight
        (stack, Dimension.extent δ done, false, a) = some r ∧
      SeekPost target bias Holds root h start r := by
  refine Foundation.loop_of_advances (SeekInv target bias Holds root h start)
    (fun s => forwardWeight s.2.2.1 s.1) ?_ ⟨done, hwalk, rfl, ha, hres⟩ ?_
  · rintro ⟨stack, position, ascending, a⟩ ⟨done, hwalk, rfl, ha, hres⟩
    cases stack with
    | nil =>
      cases hres with
      | finished hdone => exact ⟨done, hwalk, Or.inl hdone, rfl, ha, .atEnd hdone⟩
    | cons entry rest =>
      cases hleaf : entry.tree.isLeaf with
      | false => exact seekRound_internal wf hh hgathers hlawful hleaf hwalk ha hres
      | true => exact seekRound_leaf wf hgathers hleaf hwalk ha hres
  · cases hres with
    | finished =>
      simp only [forwardWeight, SumTree.weight_eq]
      omega
    | enter hloc => exact hloc.forwardWeight_lt false

end Walk

end Cursor

end Lucie
