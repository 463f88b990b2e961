import Lucie.SumTree.Seek

/-!
# The place of a cursor

Seen from outside, a cursor is an index into the item list, or it is before the
list. A fresh cursor is also before the list, but its observers panic until it has
been moved for the first time. Every cursor that represents a place answers the
observers as the place does.
-/

set_option autoImplicit false

namespace Lucie

variable {α σ δ : Type} [Item α σ] [Dimension δ σ]

/-- The places of a cursor; the index of the end is the length of the list. -/
inductive Place
  | unsought
  | before
  | at (index : ℕ)
  deriving DecidableEq

namespace Place

/-- The number of items before a place. -/
def index : Place → ℕ
  | .unsought => 0
  | .before => 0
  | .at index => index

/-- What `item` answers at a place; the outer option is the panic. -/
def item (items : List α) : Place → Option (Option α)
  | .unsought => none
  | .before => some none
  | .at index => some items[index]?

end Place

namespace Cursor

/-- A cursor over the tree `root` of height `h` represents a place. -/
def Represents (root : SumTree α σ) (h : ℕ) (c : Cursor α σ δ) : Place → Prop
  | .unsought => c.tree = root ∧ c.didSeek = false ∧ c.stack = [] ∧
      c.position = Dimension.zero ∧ c.atEnd = root.isEmpty
  | .before => c.tree = root ∧ c.didSeek = true ∧ c.stack = [] ∧
      c.position = Dimension.zero ∧ c.atEnd = root.isEmpty
  | .at index => c.tree = root ∧ c.didSeek = true ∧ index ≤ root.toList.length ∧
      SitsAt root h (root.toList.take index) c.stack ∧
      c.position = Dimension.extent δ (root.toList.take index) ∧ c.atEnd = c.stack.isEmpty

section Observers

variable {root : SumTree α σ} {h : ℕ} {c : Cursor α σ δ} {place : Place}

theorem new_represents (root : SumTree α σ) (h : ℕ) :
    Represents root h (new root : Cursor α σ δ) .unsought := ⟨rfl, rfl, rfl, rfl, rfl⟩

theorem Represents.tree_eq (hrep : Represents root h c place) : c.tree = root := by
  cases place <;> exact hrep.1

/-- Resetting forgets the place. -/
theorem Represents.reset (hrep : Represents root h c place) :
    Represents root h c.reset .unsought := by
  have htree := hrep.tree_eq
  exact ⟨htree, rfl, rfl, rfl, by rw [Cursor.reset, htree]⟩

/-- `start` is the dimension of the items before the place. -/
theorem Represents.start_eq (hrep : Represents root h c place) :
    c.start = Dimension.extent δ (root.toList.take place.index) := by
  cases place with
  | unsought | before => simpa [Place.index, start] using hrep.2.2.2.1
  | «at» index => exact hrep.2.2.2.2.1

/-- A resting stack tells the item that follows. -/
theorem SitsAt.getElem? [AddMonoid σ] (wf : SumTree.WellFormed h root) {done : List α}
    {entry : StackEntry α σ δ} {rest : List (StackEntry α σ δ)}
    (hsits : SitsAt root h done (entry :: rest)) :
    ∃ items item, entry.tree = .leaf (SumTree.measure items) items (items.map Item.summary) ∧
      items[entry.index]? = some item ∧ root.toList[done.length]? = some item := by
  cases hsits with
  | atItem hloc hlt hdone =>
    have hcontents := hloc.contents
    have hwf := hloc.wellFormed wf
    obtain ⟨tree, index, position⟩ := entry
    cases hwf with
    | @leaf items hcapacity =>
      have hindex : index < items.length := by simpa [SumTree.width] using hlt
      refine ⟨items, items[index], rfl, List.getElem?_eq_getElem hindex, ?_⟩
      rw [hcontents, ← hdone, SumTree.after, List.drop_eq_getElem_cons hindex, List.cons_append,
        List.getElem?_append_right (Nat.le_refl _), Nat.sub_self, List.getElem?_cons_zero]

/-- At an index, the stack is empty at the end of the list, and otherwise its top is
the leaf of the item. -/
theorem Represents.observe [AddMonoid σ] (wf : SumTree.WellFormed h root) {index : ℕ}
    (hrep : Represents root h c (.at index)) :
    (c.stack = [] ∧ root.toList[index]? = none) ∨
      ∃ entry rest items item, c.stack = entry :: rest ∧
        entry.tree = .leaf (SumTree.measure items) items (items.map Item.summary) ∧
        items[entry.index]? = some item ∧ root.toList[index]? = some item := by
  obtain ⟨-, -, hle, hsits, -, -⟩ := hrep
  cases hstack : c.stack with
  | nil =>
    rw [hstack] at hsits
    cases hsits with
    | atEnd hdone =>
      have hlength := congrArg List.length hdone
      rw [List.length_take] at hlength
      exact .inl ⟨rfl, List.getElem?_eq_none (by omega)⟩
  | cons entry rest =>
    rw [hstack] at hsits
    obtain ⟨items, item, htree, hitem, hget⟩ := hsits.getElem? wf
    rw [List.length_take_of_le hle] at hget
    exact .inr ⟨entry, rest, items, item, rfl, htree, hitem, hget⟩

/-- `item` answers as the place does; in particular it panics only before the
first move. -/
theorem Represents.item_eq [AddMonoid σ] (wf : SumTree.WellFormed h root)
    (hrep : Represents root h c place) : c.item = place.item root.toList := by
  cases place with
  | unsought => simp [item, Place.item, hrep.2.1]
  | before => simp [item, Place.item, hrep.2.1, hrep.2.2.1]
  | «at» index =>
    rw [item, hrep.2.1, Place.item]
    rcases hrep.observe wf with
      ⟨hstack, hget⟩ | ⟨entry, rest, items, item, hstack, htree, hitem, hget⟩
    · simp [hstack, hget]
    · have hindex := (List.getElem?_eq_some_iff.mp hitem).1
      simp [hstack, htree, hitem, hget, hindex.ne]

/-- `item_summary` is the summary of what `item` answers. -/
theorem Represents.itemSummary_eq [AddMonoid σ] (wf : SumTree.WellFormed h root)
    (hrep : Represents root h c place) :
    c.itemSummary = (place.item root.toList).map (Option.map Item.summary) := by
  cases place with
  | unsought => simp [itemSummary, Place.item, hrep.2.1]
  | before => simp [itemSummary, Place.item, hrep.2.1, hrep.2.2.1]
  | «at» index =>
    rw [itemSummary, hrep.2.1, Place.item]
    rcases hrep.observe wf with
      ⟨hstack, hget⟩ | ⟨entry, rest, items, item, hstack, htree, hitem, hget⟩
    · simp [hstack, hget]
    · have hindex := (List.getElem?_eq_some_iff.mp hitem).1
      simp [hstack, htree, hitem, hget, hindex.ne]

end Observers

end Cursor

/-- The dimension `Count` of counted numbers. -/
instance countDimension : Dimension ℕ ℕ := ⟨0, (· + ·)⟩

/-- Five counted numbers in two leaves. -/
def countTree : SumTree ℕ ℕ :=
  SumTree.parentOf 0 [.leaf 3 [10, 11, 12] [1, 1, 1], .leaf 2 [13, 14] [1, 1]]

theorem countTree_wellFormed : SumTree.WellFormed 1 countTree := by
  have hleft : SumTree.WellFormed 0 (.leaf 3 [10, 11, 12] [1, 1, 1] : SumTree ℕ ℕ) :=
    .ofItems _ (by decide) rfl rfl
  have hright : SumTree.WellFormed 0 (.leaf 2 [13, 14] [1, 1] : SumTree ℕ ℕ) :=
    .ofItems _ (by decide) rfl rfl
  exact .internal (by simp) (by decide) (by simp [hleft, hright]) (by simp)

theorem countDimension_lawful (items : List ℕ) : Dimension.Lawful ℕ items :=
  Dimension.lawful_of_action Nat.add_zero (fun d s t => (Nat.add_assoc d s t).symm) items

theorem extent_count (items : List ℕ) : Dimension.extent ℕ items = items.length := by
  induction items using List.reverseRecOn with
  | nil => rfl
  | append_singleton items item ih =>
    rw [Dimension.extent_concat, ih, List.length_append]
    rfl

theorem ofOrd_count_monotoneOn (value : ℕ) (items : List ℕ) :
    (SeekTarget.ofOrd value).MonotoneOn items := by
  refine SeekTarget.ofOrd_monotoneOn (fun i j hij hj => ?_) value
  simp only [extent_count, List.length_take]
  omega

end Lucie
