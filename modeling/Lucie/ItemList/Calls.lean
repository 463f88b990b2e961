import Lucie.ItemList.Layout

/-!
# Runs of a list element

A list is driven by the public functions of its state, by its layouts and by scroll events.
A state is reachable if some such calls lead to it from a new list.
-/

set_option autoImplicit false

namespace Lucie.ItemList

variable {F : Type}

/-- A call that may change a list. -/
inductive ListCall (F : Type)
  | reset (elementCount : ℕ)
  | remeasure
  | splice (start stop : ℕ) (focusHandles : List (Option F))
  | setScrollHandler
  | scrollBy (distance : ℚ)
  | scrollTo (position : ListOffset)
  | scrollToRevealItem (ix : ℕ)
  | scrollbarDragStarted
  | scrollbarDragEnded
  | setOffsetFromScrollbar (y : ℚ)
  | scroll (position : ListOffset) (height deltaY : ℚ)
  | requestLayout (elements : Elements F) (padding : Edges)
  | prepaint (elements : Elements F) (bounds : Bounds ℚ) (padding : Edges)

/-- Elements of one size. -/
def Elements.uniform (F : Type) (size : ItemSize) : Elements F :=
  ⟨fun _ _ => size, fun _ => false, fun _ _ => none⟩

/-- The size of an element of ten by ten pixels. -/
def ItemSize.ten : ItemSize := ⟨10, 10, by decide⟩

namespace StateInner

/-- The state after a call; `none` is a panic. -/
def call (s : StateInner F) : ListCall F → Option (StateInner F)
  | .reset elementCount => s.resetItems elementCount
  | .remeasure => some s.remeasure
  | .splice start stop focusHandles => s.spliceFocusable start stop focusHandles
  | .setScrollHandler => some s.setScrollHandler
  | .scrollBy distance => s.scrollBy distance
  | .scrollTo position => some (s.scrollTo position)
  | .scrollToRevealItem ix => s.scrollToRevealItem ix
  | .scrollbarDragStarted => some s.scrollbarDragStarted
  | .scrollbarDragEnded => some s.scrollbarDragEnded
  | .setOffsetFromScrollbar y => some (s.setOffsetFromScrollbar y)
  | .scroll position height deltaY => (s.scroll position height deltaY).map Prod.fst
  | .requestLayout elements padding => some (s.requestLayout elements padding).1
  | .prepaint elements bounds padding => (s.prepaint elements bounds padding).map Prod.fst

/-- A spliced range is a range of the items. -/
def InRange (s : StateInner F) : ListCall F → Prop
  | .splice start stop _ => start ≤ stop ∧ stop ≤ s.items.length
  | _ => True

instance (s : StateInner F) (c : ListCall F) : Decidable (s.InRange c) := by
  cases c <;> unfold InRange <;> infer_instance

/-- The states that calls reach from a new list, which may measure all its items. -/
def Reachable (s : StateInner F) : Prop :=
  ∃ itemCount alignment overdraw init calls, new itemCount alignment overdraw = some init ∧
    (Foundation.Run call InRange init calls s ∨ Foundation.Run call InRange init.measureAll calls s)

/-- What calls compute from a new list is reachable. -/
theorem reachable_of_execute {itemCount : ℕ} {alignment : ListAlignment} {overdraw : ℚ}
    {calls : List (ListCall F)} {s : StateInner F}
    (h : (new itemCount alignment overdraw).bind (Foundation.execute call InRange · calls) =
      some s) : Reachable s := by
  obtain ⟨init, hinit, hcalls⟩ := Option.bind_eq_some_iff.mp h
  exact ⟨_, _, _, init, calls, hinit, .inl (.of_execute hcalls)⟩

end StateInner

end Lucie.ItemList
