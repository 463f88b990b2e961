import Lucie.Foundation.Contiguous
import Lucie.SumTree.Slices
import Lucie.TabStop.Cycle

/-!
# Tab groups

The handles of a group are only kept together by the tab indices of the groups around them. A
handle of another group gets between them when that group was begun at the same path of tab
indices, and in no other way.
-/

set_option autoImplicit false

namespace Lucie.TabStop

open Foundation

/-! ## Room for the cursors -/

/-- The tree has one node for each entry at most. -/
theorem Keeps.length_le {entries : List Entry} {m : TabStopMap} (h : Keeps entries m) :
    m.order.toList.length ≤ entries.length := by
  have hnodup : m.order.toList.Nodup := h.order.imp fun hbefore => ne_of_irrefl hbefore
  have hsubset : m.order.toList ⊆ entries.map Entry.node := by
    intro node hnode
    obtain ⟨e, he, rfl⟩ := (h.mem node).mp hnode
    exact List.mem_map_of_mem he
  simpa using (List.subperm_of_subset hnodup hsubset).length_le

/-- A balanced tree of few nodes is low. -/
theorem Keeps.height_le_of_few {entries : List Entry} {m : TabStopMap} (h : Keeps entries m)
    (hbalanced : SumTree.Balanced m.order) (hfew : entries.length < TREE_BASE ^ 16) :
    m.order.height ≤ 15 :=
  SumTree.Sturdy.height_le ⟨h.tree, hbalanced⟩ (h.length_le.trans_lt hfew)

theorem TabStopMap.apply_balanced {m m' : TabStopMap} {operation : TabStopOperation}
    (hbalanced : SumTree.Balanced m.order) (h : m.apply operation = some m') :
    SumTree.Balanced m'.order := by
  cases operation with
  | insert handle =>
    obtain ⟨⟨tree, replaced⟩, hinsert, h⟩ := Option.bind_eq_some_iff.mp h
    obtain rfl := Option.some.inj h
    exact SumTree.insertOrReplace_balanced hbalanced hinsert
  | group tabIndex =>
    obtain rfl := Option.some.inj h
    exact hbalanced
  | groupEnd =>
    obtain rfl := Option.some.inj h
    exact hbalanced

theorem TabStopMap.replay_balanced {m m' : TabStopMap} {operations : List TabStopOperation}
    (hbalanced : SumTree.Balanced m.order) (h : m.replay operations = some m') :
    SumTree.Balanced m'.order := by
  induction operations generalizing m with
  | nil => exact Option.some.inj h ▸ hbalanced
  | cons operation operations ih =>
    rw [TabStopMap.replay_cons] at h
    obtain ⟨m₁, hm₁, h⟩ := Option.bind_eq_some_iff.mp h
    exact ih (TabStopMap.apply_balanced hbalanced hm₁) h

/-- Few insertions leave room for the cursors at every one of them and after the last one. The
induction is on the operations, with what `Keeps.replay` keeps. -/
theorem Keeps.replay_of_few {entries : List Entry} {m : TabStopMap} (h : Keeps entries m)
    (hbalanced : SumTree.Balanced m.order) {operations : List TabStopOperation}
    (hids : ((entries ++ inserted m.currentPath m.insertionHistory.length operations).map
      (·.2.id)).Nodup)
    (hfew : (entries ++ inserted m.currentPath m.insertionHistory.length operations).length <
      TREE_BASE ^ 16) :
    ∃ m', m.replay operations = some m' ∧ m'.order.height ≤ 15 ∧
      Keeps (entries ++ inserted m.currentPath m.insertionHistory.length operations) m' := by
  have hfits : m.Fits operations := by
    induction operations generalizing entries m with
    | nil => trivial
    | cons operation operations ih =>
      have hlow : entries.length < TREE_BASE ^ 16 :=
        lt_of_le_of_lt (by rw [List.length_append]; exact Nat.le_add_right _ _) hfew
      have hheight := h.height_le_of_few hbalanced hlow
      refine ⟨hheight, fun m' hm' => ?_⟩
      obtain ⟨m₁, entries', happly, hkeeps, heq⟩ := h.apply hheight hids
      obtain rfl : m₁ = m' := Option.some.inj (happly.symm.trans hm')
      rw [← heq] at hids hfew
      exact ih hkeeps (TabStopMap.apply_balanced hbalanced hm') hids hfew
  obtain ⟨m', hreplay, hkeeps⟩ := h.replay hids hfits
  have hbalanced' := TabStopMap.replay_balanced hbalanced hreplay
  exact ⟨m', hreplay, hkeeps.height_le_of_few hbalanced' hfew, hkeeps⟩

/-! ## Going through the tab stops -/

/-- The handles that calls of `next` go to, each from the one before. -/
def TabStopMap.visits (m : TabStopMap) : ℕ → Option ℕ → Option (List FocusHandle)
  | 0, _ => some []
  | n + 1, focusedId => do
    match ← m.next focusedId with
    | none => some []
    | some handle => do
      let rest ← m.visits n (some handle.id)
      some (handle :: rest)

/-- The number of tab stops that operations insert. -/
def stopCount (operations : List TabStopOperation) : ℕ :=
  (operations.filterMap TabStopOperation.focusHandle).countP (·.tabStop)

theorem length_stops (operations : List TabStopOperation) :
    (stops operations).length = stopCount operations := by
  have hperm : (sorted operations).Perm (inserted [] 0 operations) := List.mergeSort_perm _ _
  rw [stops, ← List.countP_eq_length_filter, hperm.countP_eq, stopCount,
    ← map_snd_inserted [] 0 operations, List.countP_map]
  rfl

section Visits

variable {operations : List TabStopOperation} {m : TabStopMap}
  (h : Keeps (inserted [] 0 operations) m) (hheight : m.order.height ≤ 15)

include h hheight

/-- From a tab stop on, `next` goes to those behind it. -/
theorem visits_rest {before rest : List Entry} {e : Entry}
    (hstops : stops operations = before ++ e :: rest) :
    m.visits rest.length (some e.2.id) = some (rest.map Prod.snd) := by
  induction rest generalizing before e with
  | nil => rfl
  | cons e' rest ih =>
    have hmem : e ∈ inserted [] 0 operations := by
      refine mem_sorted.mp (List.mem_of_mem_filter (p := (·.2.tabStop)) ?_)
      rw [← stops, hstops]
      exact List.mem_append_right _ List.mem_cons_self
    have hbehind : ((stops operations).filter fun stop => Before e stop) = e' :: rest := by
      rw [hstops]
      exact filter_behind_eq (hstops ▸ pairwise_stops operations)
    have hnext : m.next (some e.2.id) = some (some e'.2) := by
      rw [next_eq h hheight hmem, nextStop, hbehind]
      rfl
    rw [List.length_cons, TabStopMap.visits, hnext, Option.bind_eq_bind, Option.bind_some]
    have hstops' : stops operations = before ++ [e] ++ e' :: rest := by simp [hstops]
    simp only [ih hstops', Option.bind_eq_bind, Option.bind_some, List.map_cons]

/-- Without a focused handle, `next` goes through all tab stops. -/
theorem visits_stops :
    m.visits (stopCount operations) none = some ((stops operations).map Prod.snd) := by
  rw [← length_stops]
  have hnext : m.next none = _ := nextNone_eq h hheight
  cases hstops : stops operations with
  | nil => rfl
  | cons first rest =>
    rw [hstops] at hnext
    rw [List.length_cons, TabStopMap.visits, hnext, Option.bind_eq_bind, Option.bind_some]
    have hstops' : stops operations = [] ++ first :: rest := hstops
    simp only [List.head?_cons, Option.map_some, visits_rest h hheight hstops',
      Option.bind_eq_bind, Option.bind_some, List.map_cons]

end Visits

/-! ## Groups -/

/-- The tab indices of the groups that are open behind some operations. -/
def pathAfter : List ℤ → List TabStopOperation → List ℤ
  | path, [] => path
  | path, .insert _ :: operations => pathAfter path operations
  | path, .group tabIndex :: operations => pathAfter (path ++ [tabIndex]) operations
  | path, .groupEnd :: operations => pathAfter path.dropLast operations

/-- The operations end the groups that they begin and some number of groups before them, and they
end no group besides. -/
def Closes : ℕ → List TabStopOperation → Prop
  | depth, [] => depth = 0
  | depth, .insert _ :: operations => Closes depth operations
  | depth, .group _ :: operations => Closes (depth + 1) operations
  | 0, .groupEnd :: _ => False
  | depth + 1, .groupEnd :: operations => Closes depth operations

/-- A group of a history, from its `begin_group` to the matching `end_group`. -/
structure Group (operations : List TabStopOperation) where
  before : List TabStopOperation
  tabIndex : ℤ
  body : List TabStopOperation
  after : List TabStopOperation
  eq_append : operations = before ++ .group tabIndex :: (body ++ .groupEnd :: after)
  closes : Closes 0 body

/-- The tab indices of an entry. -/
def Entry.path (e : Entry) : List ℤ := (ofLex e.1).1

/-- The position of the insertion of an entry. -/
def Entry.index (e : Entry) : ℕ := (ofLex e.1).2

theorem inserted_append (path : List ℤ) (index : ℕ) (operations more : List TabStopOperation) :
    inserted path index (operations ++ more) = inserted path index operations ++
      inserted (pathAfter path operations) (index + operations.length) more := by
  induction operations generalizing path index with
  | nil => rfl
  | cons operation operations ih =>
    have hindex : index + 1 + operations.length = index + (operation :: operations).length := by
      rw [List.length_cons]
      omega
    rw [← hindex]
    cases operation with
    | insert handle => exact congrArg (List.cons _) (ih path (index + 1))
    | group tabIndex => exact ih (path ++ [tabIndex]) (index + 1)
    | groupEnd => exact ih path.dropLast (index + 1)

theorem index_lt {path : List ℤ} {index : ℕ} {operations : List TabStopOperation} :
    ∀ e ∈ inserted path index operations, e.index < index + operations.length := by
  induction operations generalizing path index with
  | nil => simp [inserted]
  | cons operation operations ih =>
    have hindex : index + 1 + operations.length = index + (operation :: operations).length := by
      rw [List.length_cons]
      omega
    rw [← hindex]
    intro e he
    cases operation with
    | insert handle =>
      obtain rfl | he := List.mem_cons.mp he
      · exact Nat.lt_add_right _ (Nat.lt_succ_self index)
      · exact ih e he
    | group tabIndex => exact ih e he
    | groupEnd => exact ih e he

/-- What is inserted in a group has the path of the group and more. The induction is on the
operations, with the groups that are open inside. -/
theorem path_of_closes {path inner : List ℤ} {index : ℕ} {body : List TabStopOperation}
    (hcloses : Closes inner.length body) :
    ∀ e ∈ inserted (path ++ inner) index body, path <+: e.path ∧ e.path ≠ path := by
  induction body generalizing inner index with
  | nil => simp [inserted]
  | cons operation body ih =>
    intro e he
    cases operation with
    | insert handle =>
      obtain rfl | he := List.mem_cons.mp he
      · change path <+: path ++ inner ++ [handle.tabIndex] ∧
          path ++ inner ++ [handle.tabIndex] ≠ path
        rw [List.append_assoc]
        refine ⟨List.prefix_append .., fun heq => ?_⟩
        simpa using congrArg List.length heq
      · exact ih hcloses e he
    | group tabIndex =>
      refine @ih (inner ++ [tabIndex]) (index + 1) ?_ e ?_
      · rw [List.length_append]
        exact hcloses
      · rw [← List.append_assoc]
        exact he
    | groupEnd =>
      rcases List.eq_nil_or_concat inner with rfl | ⟨inner, tabIndex, rfl⟩
      · exact hcloses.elim
      · rw [List.concat_eq_append] at hcloses he
        rw [List.length_append] at hcloses
        refine @ih inner (index + 1) hcloses e ?_
        rw [inserted, ← List.append_assoc, List.dropLast_concat] at he
        exact he

namespace Group

variable {operations : List TabStopOperation} (g : Group operations)

/-- The path of the handles in a group starts with this. -/
def path : List ℤ := pathAfter [] g.before ++ [g.tabIndex]

/-- The handles that are inserted within a group. -/
def members : List FocusHandle := g.body.filterMap TabStopOperation.focusHandle

/-- What is inserted within a group. -/
def entries : List Entry := inserted g.path (g.before.length + 1) g.body

/-- What is inserted before a group. -/
def earlier : List Entry := inserted [] 0 g.before

/-- What is inserted behind a group. -/
def later : List Entry :=
  inserted (pathAfter g.path g.body) (g.before.length + 1 + g.body.length) (.groupEnd :: g.after)

theorem inserted_eq : inserted [] 0 operations = g.earlier ++ (g.entries ++ g.later) := by
  conv_lhs => rw [g.eq_append]
  rw [inserted_append, Nat.zero_add, inserted, inserted_append]
  rfl

theorem map_snd_entries : g.entries.map Prod.snd = g.members := map_snd_inserted ..

/-- Every tab stop outside of a group whose path goes on from the path of the group, so that it is
in another group that was begun at this path, comes before all tab stops of the group or behind
all of them. Tab stops with the same path come in the order of their insertion. -/
structure Apart : Prop where
  earlier : ∀ e ∈ g.earlier, e.2.tabStop = true → g.path <+: e.path → e.path ≠ g.path →
    (∀ f ∈ g.entries, f.2.tabStop = true → e.path ≤ f.path) ∨
      ∀ f ∈ g.entries, f.2.tabStop = true → f.path < e.path
  later : ∀ e ∈ g.later, e.2.tabStop = true → g.path <+: e.path → e.path ≠ g.path →
    (∀ f ∈ g.entries, f.2.tabStop = true → f.path ≤ e.path) ∨
      ∀ f ∈ g.entries, f.2.tabStop = true → e.path < f.path

variable {g}

theorem mem_stops {e : Entry} :
    e ∈ stops operations ↔ (e ∈ g.earlier ∨ e ∈ g.entries ∨ e ∈ g.later) ∧ e.2.tabStop = true := by
  rw [stops, List.mem_filter, mem_sorted, g.inserted_eq, List.mem_append, List.mem_append]

theorem index_earlier {e f : Entry} (he : e ∈ g.earlier) (hf : f ∈ g.entries) :
    e.index < f.index := by
  have hbefore := index_lt e he
  have hwithin := le_index f hf
  exact (Nat.zero_add _ ▸ hbefore).trans hwithin

theorem index_later {e f : Entry} (he : e ∈ g.later) (hf : f ∈ g.entries) :
    f.index < e.index :=
  (index_lt f hf).trans_le (le_index e he)

theorem path_entries {f : Entry} (hf : f ∈ g.entries) : g.path <+: f.path ∧ f.path ≠ g.path :=
  @path_of_closes g.path [] _ _ g.closes f (by rw [List.append_nil]; exact hf)

end Group

theorem before_iff {e f : Entry} :
    Before e f ↔ e.path < f.path ∨ e.path = f.path ∧ e.index < f.index := Prod.Lex.lt_iff

/-- Earlier insertions win ties. -/
theorem before_iff_of_index_lt {e f : Entry} (h : e.index < f.index) :
    (Before e f ↔ e.path ≤ f.path) ∧ (Before f e ↔ f.path < e.path) := by
  rw [before_iff, before_iff]
  constructor
  · rw [le_iff_lt_or_eq]
    exact ⟨Or.imp_right And.left, Or.imp_right fun heq => ⟨heq, h⟩⟩
  · constructor
    · rintro (hlt | ⟨-, hlt⟩)
      · exact hlt
      · exact absurd hlt (lt_asymm h)
    · exact Or.inl

namespace Group

variable {operations : List TabStopOperation} {g : Group operations}

/-- The handles in a group are those of its entries. -/
theorem mem_members (hids : ((inserted [] 0 operations).map (·.2.id)).Nodup) {e : Entry}
    (he : e ∈ inserted [] 0 operations) : e.2 ∈ g.members ↔ e ∈ g.entries := by
  rw [← map_snd_entries, List.mem_map]
  constructor
  · rintro ⟨f, hf, heq⟩
    have hmem : f ∈ inserted [] 0 operations := by
      rw [g.inserted_eq]
      exact List.mem_append_right _ (List.mem_append_left _ hf)
    obtain rfl := List.inj_on_of_nodup_map hids hmem he (congrArg FocusHandle.id heq)
    exact hf
  · intro he
    exact ⟨e, he, rfl⟩

/-- A tab stop is only between tab stops of a group when its path goes on from that of the
group. -/
theorem path_of_between {e f f' : Entry} (hf : f ∈ g.entries) (hf' : f' ∈ g.entries)
    (hfe : Before f e) (hef' : Before e f') : g.path <+: e.path ∧ e.path ≠ g.path := by
  have hle : ∀ {e f : Entry}, Before e f → ¬f.path < e.path := by
    intro e f hbefore
    obtain hlt | ⟨heq, -⟩ := before_iff.mp hbefore
    · exact lt_asymm hlt
    · exact heq ▸ lt_irrefl _
  obtain ⟨hstarts, hne⟩ := path_entries hf
  have hmore := prefix_of_between hstarts (path_entries hf').1 (hle hfe) (hle hef')
  refine ⟨hmore, fun heq => hle hfe ?_⟩
  rw [heq]
  exact lt_of_prefix hstarts hne

/-- The handles of a group are contiguous exactly when the group is apart from others. -/
theorem contiguous_iff (hids : ((inserted [] 0 operations).map (·.2.id)).Nodup) :
    Contiguous (fun handle => handle ∈ g.members) ((stops operations).map Prod.snd) ↔
      g.Apart := by
  have hcongr : ∀ e ∈ stops operations, e.2 ∈ g.members ↔ e ∈ g.entries := fun e he =>
    mem_members hids (mem_sorted.mp (List.mem_of_mem_filter he))
  rw [contiguous_map, contiguous_congr hcongr,
    contiguous_iff_of_pairwise (pairwise_stops operations)]
  constructor
  · intro h
    have hstop : ∀ f ∈ g.entries, f.2.tabStop = true → f ∈ stops operations := fun f hf hftrue =>
      (mem_stops (g := g)).mpr ⟨.inr (.inl hf), hftrue⟩
    constructor
    · intro e he hetrue _ _
      have hnot : e ∉ g.entries := fun hmem => lt_irrefl _ (index_earlier he hmem)
      refine (h e ((mem_stops (g := g)).mpr ⟨.inl he, hetrue⟩) hnot).imp ?_ ?_
      · intro hall f hf hftrue
        exact (before_iff_of_index_lt (index_earlier he hf)).1.mp (hall f (hstop f hf hftrue) hf)
      · intro hall f hf hftrue
        exact (before_iff_of_index_lt (index_earlier he hf)).2.mp (hall f (hstop f hf hftrue) hf)
    · intro e he hetrue _ _
      have hnot : e ∉ g.entries := fun hmem => lt_irrefl _ (index_later he hmem)
      refine (h e ((mem_stops (g := g)).mpr ⟨.inr (.inr he), hetrue⟩) hnot).symm.imp ?_ ?_
      · intro hall f hf hftrue
        exact (before_iff_of_index_lt (index_later he hf)).1.mp (hall f (hstop f hf hftrue) hf)
      · intro hall f hf hftrue
        exact (before_iff_of_index_lt (index_later he hf)).2.mp (hall f (hstop f hf hftrue) hf)
  · intro h e he hnot
    obtain ⟨hmem, hetrue⟩ := (mem_stops (g := g)).mp he
    by_cases hpath : g.path <+: e.path ∧ e.path ≠ g.path
    · obtain hearlier | hentries | hlater := hmem
      · refine (h.earlier e hearlier hetrue hpath.1 hpath.2).imp ?_ ?_
        · intro hall f hf hfentries
          exact (before_iff_of_index_lt (index_earlier hearlier hfentries)).1.mpr
            (hall f hfentries ((mem_stops (g := g)).mp hf).2)
        · intro hall f hf hfentries
          exact (before_iff_of_index_lt (index_earlier hearlier hfentries)).2.mpr
            (hall f hfentries ((mem_stops (g := g)).mp hf).2)
      · exact absurd hentries hnot
      · refine (h.later e hlater hetrue hpath.1 hpath.2).symm.imp ?_ ?_
        · intro hall f hf hfentries
          exact (before_iff_of_index_lt (index_later hlater hfentries)).2.mpr
            (hall f hfentries ((mem_stops (g := g)).mp hf).2)
        · intro hall f hf hfentries
          exact (before_iff_of_index_lt (index_later hlater hfentries)).1.mpr
            (hall f hfentries ((mem_stops (g := g)).mp hf).2)
    · by_contra! hneither
      obtain ⟨⟨f, hf, hentries, hnotBefore⟩, f', hf', hentries', hnotBehind⟩ := hneither
      have hother : ∀ f ∈ stops operations, f ∈ g.entries → Before f e ∨ Before e f :=
        fun f hf hentries => or_of_pairwise (pairwise_stops operations) hf he
          fun heq => hnot (heq ▸ hentries)
      have hfe := (hother f hf hentries).resolve_right hnotBefore
      have hef' := (hother f' hf' hentries').resolve_left hnotBehind
      exact hpath (path_of_between hentries hentries' hfe hef')

end Group

/-! ## Groups at different paths -/

/-- The paths at which groups are begun. -/
def groupPaths : List ℤ → List TabStopOperation → List (List ℤ)
  | _, [] => []
  | path, .insert _ :: operations => groupPaths path operations
  | path, .group tabIndex :: operations =>
    (path ++ [tabIndex]) :: groupPaths (path ++ [tabIndex]) operations
  | path, .groupEnd :: operations => groupPaths path.dropLast operations

theorem groupPaths_append (path : List ℤ) (operations more : List TabStopOperation) :
    groupPaths path (operations ++ more) =
      groupPaths path operations ++ groupPaths (pathAfter path operations) more := by
  induction operations generalizing path with
  | nil => rfl
  | cons operation operations ih =>
    cases operation with
    | insert handle => exact ih path
    | group tabIndex => exact congrArg (List.cons _) (ih (path ++ [tabIndex]))
    | groupEnd => exact ih path.dropLast

/-- Behind the groups that are ended the path is as before them. -/
theorem pathAfter_of_closes {path inner : List ℤ} {body : List TabStopOperation}
    (hcloses : Closes inner.length body) : pathAfter (path ++ inner) body = path := by
  induction body generalizing inner with
  | nil =>
    obtain rfl := List.length_eq_zero_iff.mp hcloses
    exact List.append_nil path
  | cons operation body ih =>
    cases operation with
    | insert handle => exact ih hcloses
    | group tabIndex =>
      rw [pathAfter, List.append_assoc]
      refine ih ?_
      rw [List.length_append]
      exact hcloses
    | groupEnd =>
      rcases List.eq_nil_or_concat inner with rfl | ⟨inner, tabIndex, rfl⟩
      · exact hcloses.elim
      · rw [List.concat_eq_append] at hcloses ⊢
        rw [List.length_append] at hcloses
        rw [pathAfter, ← List.append_assoc, List.dropLast_concat]
        exact ih hcloses

/-- A path that goes on from another one is that of a group that was open at first or begun since
then. -/
theorem mem_groupPaths {start path : List ℤ} {index : ℕ} {operations : List TabStopOperation}
    {e : Entry} (he : e ∈ inserted path index operations) (hstarts : start <+: e.path)
    (hne : e.path ≠ start) : start <+: path ∨ start ∈ groupPaths path operations := by
  induction operations generalizing path index with
  | nil => cases he
  | cons operation operations ih =>
    cases operation with
    | insert handle =>
      obtain rfl | he := List.mem_cons.mp he
      · exact .inl ((List.prefix_concat_iff.mp hstarts).resolve_left fun heq => hne heq.symm)
      · exact ih he
    | group tabIndex =>
      obtain hopen | hbegun := ih he
      · obtain rfl | hopen := List.prefix_concat_iff.mp hopen
        · exact .inr List.mem_cons_self
        · exact .inl hopen
      · exact .inr (List.mem_cons_of_mem _ hbegun)
    | groupEnd =>
      refine (ih he).imp_left fun hopen => ?_
      exact hopen.trans (List.dropLast_prefix path)

/-- Groups that are all begun at different paths are apart: no tab stop outside of a group has a
path that goes on from that of the group. -/
theorem Group.apart_of_nodup {operations : List TabStopOperation}
    (hnodup : (groupPaths [] operations).Nodup) (g : Group operations) : g.Apart := by
  have hlength : g.path.length = (pathAfter [] g.before).length + 1 := List.length_append
  have hpath : pathAfter g.path g.body = g.path := by
    have hclosed := @pathAfter_of_closes g.path [] g.body g.closes
    rwa [List.append_nil] at hclosed
  rw [g.eq_append, groupPaths_append, groupPaths, groupPaths_append] at hnodup
  obtain ⟨-, hnodup, hbefore⟩ := List.nodup_append.mp hnodup
  obtain ⟨hafter, -⟩ := List.nodup_cons.mp hnodup
  constructor
  · intro e he _ hstarts hne
    obtain hopen | hbegun := mem_groupPaths he hstarts hne
    · have hle := hopen.length_le
      rw [hlength, List.length_nil] at hle
      omega
    · exact absurd rfl (hbefore _ hbegun _ List.mem_cons_self)
  · intro e he _ hstarts hne
    rw [later, hpath, inserted] at he
    -- The group is ended, so that its path is not open any more.
    obtain hopen | hbegun := mem_groupPaths he hstarts hne
    · have hle := hopen.length_le
      rw [List.length_dropLast, hlength] at hle
      omega
    · refine absurd (List.mem_append_right _ ?_) hafter
      change g.path ∈ groupPaths (pathAfter g.path g.body) (.groupEnd :: g.after)
      rw [hpath]
      exact hbegun

/-- In one round of `next` through all tab stops of a history, between two handles of a group there
are only handles of the group. -/
def GroupsContiguous (operations : List TabStopOperation) (m : TabStopMap) : Prop :=
  ∃ visited, m.visits (stopCount operations) none = some visited ∧
    ∀ g : Group operations, Contiguous (fun handle => handle ∈ g.members) visited

/-- For a history that inserts different handles, and not too many of them for the stack of a
cursor, the handles of every group are visited contiguously exactly when the groups are apart from
others that are begun at the same path of tab indices. -/
theorem groups_contiguous_iff {operations : List TabStopOperation}
    (hids : ((operations.filterMap TabStopOperation.focusHandle).map (·.id)).Nodup)
    (hfew : (operations.filterMap TabStopOperation.focusHandle).length < TREE_BASE ^ 16) :
    (∃ m, TabStopMap.new.replay operations = some m ∧ GroupsContiguous operations m) ↔
      ∀ g : Group operations, g.Apart := by
  rw [← map_snd_inserted [] 0 operations, List.map_map] at hids
  rw [← map_snd_inserted [] 0 operations, List.length_map] at hfew
  obtain ⟨m, hreplay, hheight, hkeeps⟩ := keeps_new.replay_of_few SumTree.balanced_leaf hids hfew
  have hvisits := visits_stops hkeeps hheight
  constructor
  · rintro ⟨m', hreplay', visited, hvisited, hcontiguous⟩ g
    obtain rfl : m = m' := Option.some.inj (hreplay.symm.trans hreplay')
    obtain rfl := Option.some.inj (hvisits.symm.trans hvisited)
    exact (Group.contiguous_iff hids).mp (hcontiguous g)
  · intro hapart
    exact ⟨m, hreplay, _, hvisits, fun g => (Group.contiguous_iff hids).mpr (hapart g)⟩

/-- Two groups with different tab indices. -/
theorem groups_contiguous_iff_siblings :
    (∃ m, TabStopMap.new.replay [.group 0, .insert ⟨0, 1, true⟩, .insert ⟨1, 0, true⟩, .groupEnd,
        .group 1, .insert ⟨2, 0, true⟩, .groupEnd] = some m ∧
      GroupsContiguous [.group 0, .insert ⟨0, 1, true⟩, .insert ⟨1, 0, true⟩, .groupEnd,
        .group 1, .insert ⟨2, 0, true⟩, .groupEnd] m) ↔
      ∀ g : Group [.group 0, .insert ⟨0, 1, true⟩, .insert ⟨1, 0, true⟩, .groupEnd,
        .group 1, .insert ⟨2, 0, true⟩, .groupEnd], g.Apart :=
  groups_contiguous_iff (by decide) (by decide)

/-- Two groups with the same tab index, each with two handles. -/
def sameIndex : List TabStopOperation :=
  [.group 0, .insert ⟨0, 0, true⟩, .insert ⟨1, 1, true⟩, .groupEnd,
    .group 0, .insert ⟨2, 0, true⟩, .insert ⟨3, 1, true⟩, .groupEnd]

theorem visits_sameIndex : (TabStopMap.new.replay sameIndex).bind (·.visits 4 none) =
    some [⟨0, 0, true⟩, ⟨2, 0, true⟩, ⟨1, 1, true⟩, ⟨3, 1, true⟩] := by
  decide +kernel

/-- The first handle of the second group is visited between the handles of the first group. -/
theorem not_contiguous_sameIndex :
    ¬∃ m, TabStopMap.new.replay sameIndex = some m ∧ GroupsContiguous sameIndex m := by
  rintro ⟨m, hreplay, visited, hvisited, hcontiguous⟩
  have hvisits := visits_sameIndex
  rw [hreplay, Option.bind_some] at hvisits
  obtain rfl := Option.some.inj (hvisits.symm.trans hvisited)
  let g : Group sameIndex := ⟨[], 0, [.insert ⟨0, 0, true⟩, .insert ⟨1, 1, true⟩],
    [.group 0, .insert ⟨2, 0, true⟩, .insert ⟨3, 1, true⟩, .groupEnd], rfl, rfl⟩
  have hmembers : g.members = [⟨0, 0, true⟩, ⟨1, 1, true⟩] := rfl
  have hbetween := hcontiguous g ⟨0, 0, true⟩ ⟨2, 0, true⟩ ⟨1, 1, true⟩ (by decide)
  rw [hmembers] at hbetween
  exact absurd (hbetween (by decide) (by decide)) (by decide)

end Lucie.TabStop
