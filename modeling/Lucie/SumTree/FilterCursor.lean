import Lucie.SumTree.Steps
import Mathlib.Data.List.Sort

/-!
# A filter cursor is a cursor over the accepted items

A `FilterCursor` moves with a filter instead of one item at a time. Seen from
outside it is a place in the list of the indices that the filter accepts: `next`
and `prev` move the place by one, whatever the order in which they are called.
-/

set_option autoImplicit false

namespace Lucie

variable {α σ δ : Type} [Item α σ] [Dimension δ σ]

/-- The indices of the items that a filter accepts, in order. -/
def acceptedIndices (filterNode : σ → Bool) (items : List α) : List ℕ :=
  (List.range items.length).filter fun index =>
    items[index]?.any fun item => filterNode (Item.summary item)

/-- Every node of a well-formed tree is well formed. -/
theorem SumTree.HasNode.wellFormed [AddMonoid σ] {h : ℕ} {root tree : SumTree α σ}
    (hnode : root.HasNode tree) (wf : SumTree.WellFormed h root) :
    ∃ k, SumTree.WellFormed k tree := by
  induction hnode with
  | root => exact ⟨h, wf⟩
  | @child parent tree index hparent hchild ih =>
    obtain ⟨k, hparentWf⟩ := ih
    cases hparentWf with
    | leaf =>
      obtain ⟨_, _, _, _, hleaf, -⟩ := hchild
      cases hleaf
    | internal nonempty capacity children occupied =>
      exact ⟨_, (hchild.wellFormed (.internal nonempty capacity children occupied)).1⟩

/-- A filter that accepts the sum of every run with an item it accepts is sound. -/
theorem FilterSound.of_measure [AddMonoid σ] {filterNode : σ → Bool} {h : ℕ}
    {root : SumTree α σ} (wf : SumTree.WellFormed h root)
    (hmeasure : ∀ (items : List α) (item : α), item ∈ items →
      filterNode (Item.summary item) = true → filterNode (SumTree.measure items) = true) :
    FilterSound filterNode root := by
  refine ⟨fun tree item hnode hmem haccept => ?_⟩
  obtain ⟨k, hwf⟩ := hnode.wellFormed wf
  rw [hwf.summary_eq]
  exact hmeasure _ item hmem haccept

section Accepted

variable {filterNode : σ → Bool} {items : List α}

/-- The filter accepts the item at an index. -/
def Accepts (filterNode : σ → Bool) (items : List α) (index : ℕ) : Prop :=
  ∃ item, items[index]? = some item ∧ filterNode (Item.summary item) = true

theorem Accepts.lt_length {index : ℕ} (h : Accepts filterNode items index) :
    index < items.length := by
  obtain ⟨item, hget, -⟩ := h
  exact (List.getElem?_eq_some_iff.mp hget).1

theorem mem_acceptedIndices {index : ℕ} :
    index ∈ acceptedIndices filterNode items ↔ Accepts filterNode items index := by
  have hany : (items[index]?.any fun item => filterNode (Item.summary item)) = true ↔
      Accepts filterNode items index := by
    simp [Accepts, Option.any_eq_true]
  rw [acceptedIndices, List.mem_filter, List.mem_range, hany]
  exact ⟨fun h => h.2, fun h => ⟨h.lt_length, h⟩⟩

theorem acceptedIndices_pairwise (filterNode : σ → Bool) (items : List α) :
    (acceptedIndices filterNode items).Pairwise (· < ·) :=
  List.pairwise_lt_range.filter _

/-- The accepted indices are ordered as their positions are. -/
theorem acceptedIndices_lt_iff {i j : ℕ} (hi : i < (acceptedIndices filterNode items).length)
    (hj : j < (acceptedIndices filterNode items).length) :
    (acceptedIndices filterNode items)[i] < (acceptedIndices filterNode items)[j] ↔ i < j := by
  have hpair := List.pairwise_iff_getElem.mp (acceptedIndices_pairwise filterNode items)
  refine ⟨fun hlt => ?_, fun hlt => hpair i j hi hj hlt⟩
  rcases Nat.lt_trichotomy i j with h | rfl | h
  · exact h
  · exact absurd hlt (Nat.lt_irrefl _)
  · exact absurd (hpair j i hj hi h) (by omega)

/-- The items at the accepted indices are the accepted items. -/
theorem filter_eq_acceptedIndices (filterNode : σ → Bool) (items : List α) :
    (items.filter fun item => filterNode (Item.summary item)).map some =
      (acceptedIndices filterNode items).map fun index => items[index]? := by
  induction items using List.reverseRecOn with
  | nil => rfl
  | append_singleton items item ih =>
    have hfront : (acceptedIndices filterNode (items ++ [item])) =
        acceptedIndices filterNode items ++
          if filterNode (Item.summary item) = true then [items.length] else [] := by
      rw [acceptedIndices, List.length_append, List.length_singleton, List.range_succ,
        List.filter_append]
      congr 1
      · refine List.filter_congr fun index hindex => ?_
        rw [List.getElem?_append_left (List.mem_range.mp hindex)]
      · by_cases h : filterNode (Item.summary item) = true <;> simp [h]
    rw [List.filter_append, List.map_append, ih, hfront, List.map_append]
    congr 1
    · refine List.map_congr_left fun index hindex => ?_
      rw [List.getElem?_append_left (mem_acceptedIndices.mp hindex).lt_length]
    · by_cases h : filterNode (Item.summary item) = true <;> simp [h]

theorem length_acceptedIndices (filterNode : σ → Bool) (items : List α) :
    (items.filter fun item => filterNode (Item.summary item)).length =
      (acceptedIndices filterNode items).length := by
  simpa using congrArg List.length (filter_eq_acceptedIndices filterNode items)

/-- What a forward search ends at: the next accepted index, or the length. -/
theorem acceptedFrom_eq {start index : ℕ} (hle : start ≤ index)
    (hskip : ∀ i, start ≤ i → i < index → ¬ Accepts filterNode items i)
    (hstop : Accepts filterNode items index ∨ index = items.length) :
    acceptedFrom filterNode items start = index := by
  have hlength : index ≤ items.length := hstop.elim (fun h => h.lt_length.le) le_of_eq
  have hskipped : Cursor.Skipped filterNode items start (items.take index) := by
    refine ⟨List.take_prefix _ _, by rw [List.length_take_of_le hlength]; exact hle, ?_⟩
    intro item hitem
    obtain ⟨i, hget⟩ := List.getElem?_of_mem hitem
    rw [List.getElem?_drop, List.getElem?_take] at hget
    split at hget
    case isFalse => simp at hget
    case isTrue hlt =>
      have hreject := hskip (start + i) (by omega) hlt
      simpa [Accepts, hget] using hreject
  have haccept : ∀ item, items[(items.take index).length]? = some item →
      filterNode (Item.summary item) = true := by
    rw [List.length_take_of_le hlength]
    intro item hget
    rcases hstop with ⟨item', hget', haccept⟩ | rfl
    · rw [hget] at hget'
      exact Option.some.inj hget' ▸ haccept
    · simp at hget
  rw [← hskipped.length_eq haccept, List.length_take_of_le hlength]

/-- What a backward search ends at. -/
theorem acceptedBefore_eq_some {stop index : ℕ} (hlt : index < stop)
    (hskip : ∀ i, index < i → i < stop → ¬ Accepts filterNode items i)
    (haccept : Accepts filterNode items index) :
    acceptedBefore filterNode items stop = some index := by
  induction stop with
  | zero => omega
  | succ stop ih =>
    rw [acceptedBefore]
    rcases Nat.lt_or_ge index stop with h | h
    · have hreject := hskip stop h (Nat.lt_succ_self _)
      rw [if_neg (by simpa [Accepts, Option.any_eq_true] using hreject)]
      exact ih h fun i hi hstop => hskip i hi (by omega)
    · obtain rfl : index = stop := by omega
      rw [if_pos (by simpa [Accepts, Option.any_eq_true] using haccept)]

/-- A backward search with nothing accepted before it finds nothing. -/
theorem acceptedBefore_eq_none {stop : ℕ}
    (hskip : ∀ i, i < stop → ¬ Accepts filterNode items i) :
    acceptedBefore filterNode items stop = none := by
  induction stop with
  | zero => rfl
  | succ stop ih =>
    have hreject := hskip stop (Nat.lt_succ_self _)
    rw [acceptedBefore, if_neg (by simpa [Accepts, Option.any_eq_true] using hreject)]
    exact ih fun i hi => hskip i (by omega)

/-- A forward search that has the first `n` accepted indices behind it finds the next one,
or the end. -/
theorem acceptedFrom_eq_getD {start n : ℕ} (hstart : start ≤ items.length)
    (hbehind : ∀ m index, (acceptedIndices filterNode items)[m]? = some index →
      (m < n ↔ index < start)) :
    acceptedFrom filterNode items start =
      (acceptedIndices filterNode items)[n]?.getD items.length := by
  have hposition : ∀ i, start ≤ i → Accepts filterNode items i →
      ∃ m, n ≤ m ∧ (acceptedIndices filterNode items)[m]? = some i := by
    intro i hi haccept
    obtain ⟨m, hget⟩ := List.getElem?_of_mem (mem_acceptedIndices.mpr haccept)
    exact ⟨m, by have := hbehind m i hget; omega, hget⟩
  cases hget : (acceptedIndices filterNode items)[n]? with
  | none =>
    refine acceptedFrom_eq hstart (fun i hi _ haccept => ?_) (.inr rfl)
    obtain ⟨m, hm, hget'⟩ := hposition i hi haccept
    have hlt := (List.getElem?_eq_some_iff.mp hget').1
    have hle := List.getElem?_eq_none_iff.mp hget
    omega
  | some index =>
    have hle : start ≤ index := by have := hbehind n index hget; omega
    have haccept := mem_acceptedIndices.mp (List.mem_of_getElem? hget)
    refine acceptedFrom_eq hle (fun i hi hlt haccept' => ?_) (.inl haccept)
    obtain ⟨m, hm, hget'⟩ := hposition i hi haccept'
    obtain ⟨hn, rfl⟩ := List.getElem?_eq_some_iff.mp hget
    obtain ⟨hm', rfl⟩ := List.getElem?_eq_some_iff.mp hget'
    have := (acceptedIndices_lt_iff hm' hn).mp hlt
    omega

/-- A backward search that has the first `n` accepted indices ahead of it finds the last
of them. -/
theorem acceptedBefore_eq_getElem? {stop n : ℕ} (hn : n ≤ (acceptedIndices filterNode items).length)
    (hahead : ∀ m index, (acceptedIndices filterNode items)[m]? = some index →
      (m < n ↔ index < stop)) :
    acceptedBefore filterNode items stop =
      ((acceptedIndices filterNode items).take n).getLast? := by
  have hposition : ∀ i, i < stop → Accepts filterNode items i →
      ∃ m, m < n ∧ (acceptedIndices filterNode items)[m]? = some i := by
    intro i hi haccept
    obtain ⟨m, hget⟩ := List.getElem?_of_mem (mem_acceptedIndices.mpr haccept)
    exact ⟨m, (hahead m i hget).mpr hi, hget⟩
  cases n with
  | zero =>
    rw [List.take_zero, List.getLast?_nil]
    refine acceptedBefore_eq_none fun i hi haccept => ?_
    obtain ⟨m, hm, -⟩ := hposition i hi haccept
    omega
  | succ n =>
    have hget := List.getElem?_eq_getElem (Nat.lt_of_succ_le hn)
    have hlast : ((acceptedIndices filterNode items).take (n + 1)).getLast? =
        some (acceptedIndices filterNode items)[n] := by
      rw [List.getLast?_take, if_neg (by omega), Nat.add_sub_cancel, hget, Option.some_or]
    rw [hlast]
    refine acceptedBefore_eq_some ((hahead n _ hget).mp (Nat.lt_succ_self n))
      (fun i hlt hi haccept => ?_) (mem_acceptedIndices.mp (List.getElem_mem _))
    obtain ⟨m, hm, hget'⟩ := hposition i hi haccept
    obtain ⟨hm', rfl⟩ := List.getElem?_eq_some_iff.mp hget'
    have := (acceptedIndices_lt_iff (Nat.lt_of_succ_le hn) hm').mp hlt
    omega

end Accepted

namespace Place

/-- The place in the items of a place in the list of the accepted indices. -/
def inItems (filterNode : σ → Bool) (items : List α) : Place → Place
  | .unsought => .unsought
  | .before => .before
  | .at n => .at ((acceptedIndices filterNode items)[n]?.getD items.length)

variable {filterNode : σ → Bool} {items : List α}

/-- A forward search moves to the next place among the accepted indices. -/
theorem inItems_searchForward {place : Place}
    (hplace : place.index ≤ (acceptedIndices filterNode items).length) :
    (place.inItems filterNode items).searchForward filterNode items =
      (place.next (acceptedIndices filterNode items)).inItems filterNode items := by
  have hfirst : acceptedFrom filterNode items 0 =
      (acceptedIndices filterNode items)[0]?.getD items.length :=
    acceptedFrom_eq_getD (Nat.zero_le _) fun m index _ => by omega
  cases place with
  | unsought | before => simp only [inItems, searchForward, next, hfirst]
  | «at» n =>
    rcases Nat.lt_or_ge n (acceptedIndices filterNode items).length with hlt | hge
    · have hget := List.getElem?_eq_getElem hlt
      have hindex := (mem_acceptedIndices.mp (List.getElem_mem hlt)).lt_length
      have hnext := acceptedFrom_eq_getD (n := n + 1) (Nat.succ_le_of_lt hindex)
        fun m index hget' => by
          obtain ⟨hm, rfl⟩ := List.getElem?_eq_some_iff.mp hget'
          have := acceptedIndices_lt_iff hlt hm
          omega
      simp only [inItems, hget, Option.getD_some, searchForward, next, if_neg hindex.ne,
        if_neg hlt.ne, hnext]
    · obtain rfl : n = (acceptedIndices filterNode items).length := Nat.le_antisymm hplace hge
      simp [inItems, searchForward, next]

/-- A backward search moves to the previous place among the accepted indices. -/
theorem inItems_searchBackward {place : Place}
    (hplace : place.index ≤ (acceptedIndices filterNode items).length) :
    (place.inItems filterNode items).searchBackward filterNode items =
      (place.prev (acceptedIndices filterNode items)).inItems filterNode items := by
  have hstop : place.stop (acceptedIndices filterNode items) ≤
      (acceptedIndices filterNode items).length := by
    cases place with
    | unsought => exact Nat.le_refl _
    | before => exact Nat.zero_le _
    | «at» n => exact hplace
  have hahead : ∀ m index, (acceptedIndices filterNode items)[m]? = some index →
      (m < place.stop (acceptedIndices filterNode items) ↔
        index < (place.inItems filterNode items).stop items) := by
    intro m index hget
    obtain ⟨hm, hindex⟩ := List.getElem?_eq_some_iff.mp hget
    have hlength := (mem_acceptedIndices.mp (List.mem_of_getElem? hget)).lt_length
    cases place with
    | unsought => simp [inItems, stop, hm, hlength]
    | before => simp [inItems, stop]
    | «at» n =>
      simp only [inItems, stop]
      rcases Nat.lt_or_ge n (acceptedIndices filterNode items).length with hlt | hge
      · rw [List.getElem?_eq_getElem hlt, Option.getD_some, ← hindex]
        exact (acceptedIndices_lt_iff hm hlt).symm
      · rw [List.getElem?_eq_none hge, Option.getD_none]
        omega
  rw [searchBackward, acceptedBefore_eq_getElem? hstop hahead, prev]
  cases hplaceStop : place.stop (acceptedIndices filterNode items) with
  | zero => rfl
  | succ n =>
    have hlt : n < (acceptedIndices filterNode items).length := by omega
    rw [List.getLast?_take, if_neg (by omega), Nat.add_sub_cancel, List.getElem?_eq_getElem hlt,
      Option.some_or]
    simp [ofFound, inItems, hlt]

end Place

/-- `FilterCursor`: a cursor with the filter that it moves with. -/
structure FilterCursor (α σ δ : Type) where
  cursor : Cursor α σ δ
  filterNode : σ → Bool

namespace FilterCursor

/-- `FilterCursor::new`. -/
def new (tree : SumTree α σ) (filterNode : σ → Bool) : FilterCursor α σ δ :=
  ⟨Cursor.new tree, filterNode⟩

/-- `FilterCursor::start`. -/
def start (c : FilterCursor α σ δ) : δ := c.cursor.start

/-- `FilterCursor::item`. -/
def item (c : FilterCursor α σ δ) : Option (Option α) := c.cursor.item

/-- `FilterCursor::next`. -/
def next (c : FilterCursor α σ δ) : Option (FilterCursor α σ δ) := do
  let cursor ← c.cursor.searchForward c.filterNode
  some { c with cursor }

/-- `FilterCursor::prev`. -/
def prev (c : FilterCursor α σ δ) : Option (FilterCursor α σ δ) := do
  let cursor ← c.cursor.searchBackward c.filterNode
  some { c with cursor }

/-- The iterator moves a new cursor to the first item. -/
def iteratorStart (c : FilterCursor α σ δ) : Option (FilterCursor α σ δ) :=
  if c.cursor.didSeek then some c else c.next

/-- `Iterator::next` of a filter cursor: the item it returns and the cursor behind it. -/
def iteratorNext (c : FilterCursor α σ δ) : Option (Option α × FilterCursor α σ δ) := do
  let c ← c.iteratorStart
  let item ← c.item
  match item with
  | none => some (none, c)
  | some item =>
    let c ← c.next
    some (some item, c)

/-- Collecting from the iterator until it ends. -/
def collect : ℕ → FilterCursor α σ δ → Option (List α)
  | 0, _ => none
  | fuel + 1, c => do
    let (item, c) ← c.iteratorNext
    match item with
    | none => some []
    | some item =>
      let items ← collect fuel c
      some (item :: items)

/-- The moves of a filter cursor. -/
inductive Move
  | next
  | prev

/-- Make moves one after the other. -/
def run : List Move → FilterCursor α σ δ → Option (FilterCursor α σ δ)
  | [], c => some c
  | .next :: moves, c => c.next.bind (run moves)
  | .prev :: moves, c => c.prev.bind (run moves)

/-- The move of a place in a list. -/
def Move.apply {β : Type} (items : List β) (place : Place) : Move → Place
  | .next => place.next items
  | .prev => place.prev items

/-- A filter cursor represents a place in the list of the accepted indices. -/
structure Represents (filterNode : σ → Bool) (root : SumTree α σ) (h : ℕ)
    (c : FilterCursor α σ δ) (place : Place) : Prop where
  filterNode_eq : c.filterNode = filterNode
  cursor : c.cursor.Represents root h (place.inItems filterNode root.toList)
  index_le : place.index ≤ (acceptedIndices filterNode root.toList).length

/-- What a filter cursor shows of a place: the item among the accepted ones, and the
dimension of all items before it, accepted or not. -/
structure Shows (filterNode : σ → Bool) (items : List α) (c : FilterCursor α σ δ)
    (place : Place) : Prop where
  item : c.item = place.item (items.filter fun item => filterNode (Item.summary item))
  start : c.start = Dimension.extent δ (items.take (place.inItems filterNode items).index)

section Run

variable [AddMonoid σ] {filterNode : σ → Bool} {root : SumTree α σ} {h : ℕ}
  {c : FilterCursor α σ δ} {place : Place}

omit [AddMonoid σ] in
/-- The accepted item at a place among the accepted indices is the item at its index. -/
theorem item_inItems (filterNode : σ → Bool) (items : List α) (place : Place) :
    (place.inItems filterNode items).item items =
      place.item (items.filter fun item => filterNode (Item.summary item)) := by
  cases place with
  | unsought | before => rfl
  | «at» n =>
    have hget := congrArg (fun l => l[n]?) (filter_eq_acceptedIndices filterNode items)
    simp only [List.getElem?_map] at hget
    simp only [Place.inItems, Place.item]
    cases hindex : (acceptedIndices filterNode items)[n]? with
    | none =>
      rw [hindex, Option.map_none, Option.map_eq_none_iff] at hget
      simp [hget]
    | some index =>
      obtain ⟨item, hitem, -⟩ := mem_acceptedIndices.mp (List.mem_of_getElem? hindex)
      rw [hindex, Option.map_some, hitem] at hget
      cases hfilter : (items.filter fun item => filterNode (Item.summary item))[n]? with
      | none => simp [hfilter] at hget
      | some accepted =>
        rw [hfilter, Option.map_some, Option.some.injEq] at hget
        simp [hitem, hget]

theorem Represents.shows (wf : SumTree.WellFormed h root)
    (hrep : c.Represents filterNode root h place) : c.Shows filterNode root.toList place where
  item := (hrep.cursor.item_eq wf).trans (item_inItems filterNode root.toList place)
  start := hrep.cursor.start_eq

omit [AddMonoid σ] in
theorem new_represents (filterNode : σ → Bool) (root : SumTree α σ) (h : ℕ) :
    (new root filterNode : FilterCursor α σ δ).Represents filterNode root h .unsought :=
  ⟨rfl, Cursor.new_represents root h, Nat.zero_le _⟩

/-- `next` moves the place forward. -/
theorem next_spec (wf : SumTree.WellFormed h root) (hh : h ≤ 15)
    (hlawful : Dimension.Lawful δ root.toList) (hsound : FilterSound filterNode root)
    (hrep : c.Represents filterNode root h place) :
    ∃ c', c.next = some c' ∧ c'.Represents filterNode root h
      (place.next (acceptedIndices filterNode root.toList)) := by
  obtain ⟨rfl, hcursor, hindex⟩ := hrep
  obtain ⟨cursor, hsearch, hrep'⟩ := Cursor.searchForward_spec wf hh hlawful hsound hcursor
  rw [Place.inItems_searchForward hindex] at hrep'
  refine ⟨{ c with cursor }, by simp [next, hsearch], rfl, hrep', ?_⟩
  cases place with
  | unsought | before => exact Nat.zero_le _
  | «at» n =>
    simp only [Place.next]
    simp only [Place.index] at hindex
    split_ifs
    · exact hindex
    · simp only [Place.index]
      omega

/-- `prev` moves the place backward. -/
theorem prev_spec (wf : SumTree.WellFormed h root) (hh : h ≤ 15)
    (hlawful : Dimension.Lawful δ root.toList) (hsound : FilterSound filterNode root)
    (hrep : c.Represents filterNode root h place) :
    ∃ c', c.prev = some c' ∧ c'.Represents filterNode root h
      (place.prev (acceptedIndices filterNode root.toList)) := by
  obtain ⟨rfl, hcursor, hindex⟩ := hrep
  obtain ⟨cursor, hsearch, hrep'⟩ := Cursor.searchBackward_spec wf hh hlawful hsound hcursor
  rw [Place.inItems_searchBackward hindex] at hrep'
  refine ⟨{ c with cursor }, by simp [prev, hsearch], rfl, hrep', ?_⟩
  have hstop : place.stop (acceptedIndices c.filterNode root.toList) ≤
      (acceptedIndices c.filterNode root.toList).length := by
    cases place with
    | unsought => exact Nat.le_refl _
    | before => exact Nat.zero_le _
    | «at» n => exact hindex
  rw [Place.prev]
  split
  · exact Nat.zero_le _
  · simp only [Place.index]
    omega

/-- Any moves move the place. -/
theorem run_spec (wf : SumTree.WellFormed h root) (hh : h ≤ 15)
    (hlawful : Dimension.Lawful δ root.toList) (hsound : FilterSound filterNode root)
    (moves : List Move) (hrep : c.Represents filterNode root h place) :
    ∃ c', c.run moves = some c' ∧ c'.Represents filterNode root h
      (moves.foldl (Move.apply (acceptedIndices filterNode root.toList)) place) := by
  induction moves generalizing c place with
  | nil => exact ⟨c, rfl, hrep⟩
  | cons move moves ih =>
    cases move with
    | next =>
      obtain ⟨c', hnext, hrep'⟩ := next_spec wf hh hlawful hsound hrep
      obtain ⟨c'', hrun, hrep''⟩ := ih hrep'
      exact ⟨c'', by rw [run, hnext, Option.bind_some, hrun], hrep''⟩
    | prev =>
      obtain ⟨c', hprev, hrep'⟩ := prev_spec wf hh hlawful hsound hrep
      obtain ⟨c'', hrun, hrep''⟩ := ih hrep'
      exact ⟨c'', by rw [run, hprev, Option.bind_some, hrun], hrep''⟩

/-- The place after `n + 1` times `next` on a new cursor. -/
theorem foldl_replicate_next {β : Type} (items : List β) (n : ℕ) :
    (List.replicate (n + 1) Move.next).foldl (Move.apply items) .unsought =
      .at (min n items.length) := by
  induction n with
  | zero => simp [Move.apply, Place.next]
  | succ n ih =>
    rw [List.replicate_succ', List.foldl_concat, ih, Move.apply, Place.next]
    split_ifs <;> congr 1 <;> omega

/-- The place after `n + 1` times `prev` on a new cursor. -/
theorem foldl_replicate_prev {β : Type} (items : List β) (n : ℕ) :
    (List.replicate (n + 1) Move.prev).foldl (Move.apply items) .unsought =
      if n < items.length then .at (items.length - 1 - n) else .before := by
  induction n with
  | zero =>
    rw [Nat.zero_add, List.replicate_one, List.foldl_cons, List.foldl_nil, Move.apply, Place.prev,
      Place.stop]
    cases items.length <;> rfl
  | succ n ih =>
    rw [List.replicate_succ', List.foldl_concat, ih, Move.apply, Place.prev]
    by_cases hlt : n + 1 < items.length
    · rw [if_pos (by omega), if_pos hlt, Place.stop,
        show items.length - 1 - n = (items.length - 1 - (n + 1)) + 1 by omega]
    · rw [if_neg hlt]
      split_ifs
      · rw [Place.stop, show items.length - 1 - n = 0 by omega]
      · rfl

/-- One step of the iterator returns the accepted item it is at and goes on. -/
theorem iteratorNext_spec (wf : SumTree.WellFormed h root) (hh : h ≤ 15)
    (hlawful : Dimension.Lawful δ root.toList) (hsound : FilterSound filterNode root) {n : ℕ}
    (hplace : place = .unsought ∧ n = 0 ∨ place = .at n)
    (hrep : c.Represents filterNode root h place) :
    ∃ c', c'.Represents filterNode root h (Place.next (acceptedIndices filterNode root.toList)
        (.at n)) ∧ c.iteratorNext = some
          ((root.toList.filter fun item => filterNode (Item.summary item))[n]?, c') := by
  obtain ⟨c₁, hstart, hrep₁⟩ : ∃ c₁, c.iteratorStart = some c₁ ∧
      c₁.Represents filterNode root h (.at n) := by
    rcases hplace with ⟨rfl, rfl⟩ | rfl
    · obtain ⟨c₁, hnext, hrep₁⟩ := next_spec wf hh hlawful hsound hrep
      have hseek : c.cursor.didSeek = false := hrep.cursor.2.1
      exact ⟨c₁, by simpa [iteratorStart, hseek] using hnext, hrep₁⟩
    · have hseek : c.cursor.didSeek = true := hrep.cursor.2.1
      exact ⟨c, by simp [iteratorStart, hseek], hrep⟩
  have hitem := (hrep₁.shows wf).item
  rw [Place.item] at hitem
  rw [iteratorNext, hstart, Option.bind_eq_bind, Option.bind_some, hitem]
  cases hget : (root.toList.filter fun item => filterNode (Item.summary item))[n]? with
  | none =>
    have hlength := length_acceptedIndices filterNode root.toList
    have hn : n = (acceptedIndices filterNode root.toList).length :=
      Nat.le_antisymm hrep₁.index_le (hlength ▸ List.getElem?_eq_none_iff.mp hget)
    refine ⟨c₁, ?_, rfl⟩
    rwa [Place.next, if_pos hn]
  | some item =>
    obtain ⟨c', hnext, hrep'⟩ := next_spec wf hh hlawful hsound hrep₁
    exact ⟨c', hrep', by simp [hnext]⟩

/-- The iterator collects the accepted items from its place on. -/
theorem collect_spec (wf : SumTree.WellFormed h root) (hh : h ≤ 15)
    (hlawful : Dimension.Lawful δ root.toList) (hsound : FilterSound filterNode root)
    {fuel n : ℕ} (hplace : place = .unsought ∧ n = 0 ∨ place = .at n)
    (hrep : c.Represents filterNode root h place)
    (hfuel : (acceptedIndices filterNode root.toList).length < n + fuel) :
    c.collect fuel =
      some ((root.toList.filter fun item => filterNode (Item.summary item)).drop n) := by
  have hlength := length_acceptedIndices filterNode root.toList
  induction fuel generalizing c n place with
  | zero =>
    have hindex := hrep.index_le
    rcases hplace with ⟨rfl, rfl⟩ | rfl
    · omega
    · exact absurd hindex (by simpa [Place.index] using hfuel)
  | succ fuel ih =>
    obtain ⟨c', hrep', hnext⟩ := iteratorNext_spec wf hh hlawful hsound hplace hrep
    rw [collect, hnext, Option.bind_eq_bind, Option.bind_some]
    cases hget : (root.toList.filter fun item => filterNode (Item.summary item))[n]? with
    | none => rw [List.drop_of_length_le (List.getElem?_eq_none_iff.mp hget)]
    | some item =>
      obtain ⟨hlt, hitem⟩ := List.getElem?_eq_some_iff.mp hget
      rw [Place.next, if_neg (by omega)] at hrep'
      simp only [ih (.inr rfl) hrep' (by omega), Option.bind_eq_bind, Option.bind_some]
      rw [List.drop_eq_getElem_cons hlt, hitem]

/-- The iterator of a new filter cursor collects the accepted items. -/
theorem collect_new (wf : SumTree.WellFormed h root) (hh : h ≤ 15)
    (hlawful : Dimension.Lawful δ root.toList) (hsound : FilterSound filterNode root) {fuel : ℕ}
    (hfuel : root.toList.length < fuel) :
    (new root filterNode : FilterCursor α σ δ).collect fuel =
      some (root.toList.filter fun item => filterNode (Item.summary item)) := by
  have hle : (acceptedIndices filterNode root.toList).length ≤ root.toList.length :=
    (List.length_filter_le _ _).trans_eq List.length_range
  exact collect_spec wf hh hlawful hsound (.inl ⟨rfl, rfl⟩) (new_represents filterNode root h)
    (by omega)

/-- Calling `next` again and again visits the accepted items in order, calling `prev`
again and again visits them in the opposite order, and after any moves in between the
cursor is at a place among them. `start` is the dimension of all preceding items. -/
theorem visits_accepted (wf : SumTree.WellFormed h root) (hh : h ≤ 15)
    (hlawful : Dimension.Lawful δ root.toList) (hsound : FilterSound filterNode root) :
    (∀ n, ∃ c : FilterCursor α σ δ, (new root filterNode).run (.replicate (n + 1) .next) = some c ∧
      c.item = some (root.toList.filter fun item => filterNode (Item.summary item))[n]? ∧
      c.start = Dimension.extent δ (root.toList.take
        ((acceptedIndices filterNode root.toList)[n]?.getD root.toList.length))) ∧
    (∀ n, ∃ c : FilterCursor α σ δ, (new root filterNode).run (.replicate (n + 1) .prev) = some c ∧
      c.item = some (root.toList.filter fun item => filterNode (Item.summary item)).reverse[n]? ∧
      c.start = Dimension.extent δ (root.toList.take
        ((acceptedIndices filterNode root.toList).reverse[n]?.getD 0))) ∧
    ∀ moves, ∃ c : FilterCursor α σ δ, (new root filterNode).run moves = some c ∧
      c.Shows filterNode root.toList
        (moves.foldl (Move.apply (acceptedIndices filterNode root.toList)) .unsought) := by
  have hrun : ∀ moves, ∃ c : FilterCursor α σ δ, (new root filterNode).run moves = some c ∧
      c.Shows filterNode root.toList
        (moves.foldl (Move.apply (acceptedIndices filterNode root.toList)) .unsought) := by
    intro moves
    obtain ⟨c, hrun, hrep⟩ := run_spec wf hh hlawful hsound moves
      (new_represents filterNode root h : (new root filterNode : FilterCursor α σ δ).Represents
        filterNode root h .unsought)
    exact ⟨c, hrun, hrep.shows wf⟩
  have hlength := length_acceptedIndices filterNode root.toList
  refine ⟨fun n => ?_, fun n => ?_, hrun⟩
  · obtain ⟨c, hmoves, hitem, hstart⟩ := hrun (.replicate (n + 1) .next)
    rw [foldl_replicate_next] at hitem hstart
    refine ⟨c, hmoves, hitem.trans ?_, hstart.trans ?_⟩
    · rw [Place.item]
      rcases Nat.lt_or_ge n (acceptedIndices filterNode root.toList).length with h | h
      · rw [Nat.min_eq_left h.le]
      · rw [Nat.min_eq_right h, ← hlength, List.getElem?_eq_none (Nat.le_refl _),
          List.getElem?_eq_none (by omega)]
    · rw [Place.inItems, Place.index]
      rcases Nat.lt_or_ge n (acceptedIndices filterNode root.toList).length with h | h
      · rw [Nat.min_eq_left h.le]
      · rw [Nat.min_eq_right h, List.getElem?_eq_none (Nat.le_refl _),
          List.getElem?_eq_none h]
  · obtain ⟨c, hmoves, hitem, hstart⟩ := hrun (.replicate (n + 1) .prev)
    rw [foldl_replicate_prev] at hitem hstart
    refine ⟨c, hmoves, hitem.trans ?_, hstart.trans ?_⟩
    · split_ifs with h
      · rw [Place.item, List.getElem?_reverse (by omega), hlength]
      · rw [Place.item, List.getElem?_eq_none (by rw [List.length_reverse]; omega)]
    · split_ifs with h
      · have hlt : (acceptedIndices filterNode root.toList).length - 1 - n <
            (acceptedIndices filterNode root.toList).length := by omega
        rw [List.getElem?_reverse h, Place.inItems, Place.index, List.getElem?_eq_getElem hlt,
          Option.getD_some, Option.getD_some]
      · rw [List.getElem?_eq_none (by rw [List.length_reverse]; omega)]
        rfl

end Run

/-- Numbers whose summary counts them and the even ones among them. -/
structure Numbered where
  value : ℕ

instance : Item Numbered (ℕ × ℕ) := ⟨fun item => (1, if item.value % 2 = 0 then 1 else 0)⟩

/-- The dimension `Count` of numbers. -/
local instance : Dimension ℕ (ℕ × ℕ) := ⟨0, fun count summary => count + summary.1⟩

/-- The filter of the summaries with `contains_even`. -/
def containsEven (summary : ℕ × ℕ) : Bool := 0 < summary.2

/-- Five numbers in three leaves, the middle one without an even number. -/
def numberedTree : SumTree Numbered (ℕ × ℕ) :=
  SumTree.parentOf 0 [.leaf (2, 1) [⟨10⟩, ⟨11⟩] [(1, 1), (1, 0)], .leaf (1, 0) [⟨13⟩] [(1, 0)],
    .leaf (2, 2) [⟨14⟩, ⟨16⟩] [(1, 1), (1, 1)]]

theorem numberedTree_wellFormed : SumTree.WellFormed 1 numberedTree := by
  have hleaf : ∀ items : List Numbered, items.length ≤ 2 * TREE_BASE →
      SumTree.WellFormed 0 (.leaf (SumTree.measure items) items (items.map Item.summary)) :=
    fun items h => .leaf h
  refine .internal (by simp) (by decide) ?_ (by simp)
  simp only [List.mem_cons, List.not_mem_nil, or_false, forall_eq_or_imp, forall_eq]
  exact ⟨hleaf [⟨10⟩, ⟨11⟩] (by decide), hleaf [⟨13⟩] (by decide), hleaf [⟨14⟩, ⟨16⟩] (by decide)⟩

theorem numberedTree_lawful : Dimension.Lawful ℕ numberedTree.toList :=
  Dimension.lawful_of_action Nat.add_zero (fun d s t => (Nat.add_assoc d s.1 t.1).symm) _

/-- A run of numbers with an even one has a summary with an even one. -/
theorem containsEven_measure {items : List Numbered} {item : Numbered} (hmem : item ∈ items)
    (heven : containsEven (Item.summary item) = true) :
    containsEven (SumTree.measure items) = true := by
  obtain ⟨left, right, rfl⟩ := List.append_of_mem hmem
  simp only [containsEven, decide_eq_true_eq] at heven ⊢
  simp only [SumTree.measure, List.map_append, List.map_cons, List.sum_append, List.sum_cons,
    Prod.snd_add]
  omega

theorem numberedTree_sound : FilterSound containsEven numberedTree :=
  .of_measure numberedTree_wellFormed fun _ _ hmem heven => containsEven_measure hmem heven

/-- The three even numbers of the tree forward, backward, and off both ends. -/
theorem visits_accepted_numberedTree :
    (∀ n, ∃ c : FilterCursor Numbered (ℕ × ℕ) ℕ,
      (new numberedTree containsEven).run (.replicate (n + 1) .next) = some c ∧
      c.item = some (numberedTree.toList.filter fun item =>
        containsEven (Item.summary item))[n]? ∧
      c.start = Dimension.extent ℕ (numberedTree.toList.take
        ((acceptedIndices containsEven numberedTree.toList)[n]?.getD
          numberedTree.toList.length))) ∧
    (∀ n, ∃ c : FilterCursor Numbered (ℕ × ℕ) ℕ,
      (new numberedTree containsEven).run (.replicate (n + 1) .prev) = some c ∧
      c.item = some (numberedTree.toList.filter fun item =>
        containsEven (Item.summary item)).reverse[n]? ∧
      c.start = Dimension.extent ℕ (numberedTree.toList.take
        ((acceptedIndices containsEven numberedTree.toList).reverse[n]?.getD 0))) ∧
    ∀ moves, ∃ c : FilterCursor Numbered (ℕ × ℕ) ℕ,
      (new numberedTree containsEven).run moves = some c ∧
      c.Shows containsEven numberedTree.toList (moves.foldl
        (Move.apply (acceptedIndices containsEven numberedTree.toList)) .unsought) :=
  visits_accepted numberedTree_wellFormed (by decide) numberedTree_lawful numberedTree_sound

end FilterCursor

end Lucie
