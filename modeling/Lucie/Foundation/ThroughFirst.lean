import Mathlib.Data.List.Basic
import Mathlib.Tactic.SplitIfs

/-!
# Up to the first one, and with it

What a loop looks at when it breaks behind the first element of some kind. An element is among it
when none of this kind is before the element.
-/

set_option autoImplicit false

namespace Lucie.Foundation

variable {α : Type}

/-- The elements up to the first one that is as said, and that one. -/
def throughFirst (p : α → Bool) : List α → List α
  | [] => []
  | x :: xs => if p x then [x] else x :: throughFirst p xs

theorem throughFirst_cons_of_pos {p : α → Bool} {x : α} (h : p x = true) (xs : List α) :
    throughFirst p (x :: xs) = [x] := if_pos h

theorem throughFirst_cons_of_neg {p : α → Bool} {x : α} (h : p x = false) (xs : List α) :
    throughFirst p (x :: xs) = x :: throughFirst p xs := if_neg (by simp [h])

/-- A break in more cases comes no later. -/
theorem throughFirst_prefix_of_imp {p p' : α → Bool} (h : ∀ x, p x = true → p' x = true)
    (xs : List α) : throughFirst p' xs <+: throughFirst p xs := by
  induction xs with
  | nil => exact List.prefix_refl _
  | cons x xs ih =>
    cases hp : p x with
    | true =>
      have hsame : throughFirst p' (x :: xs) = throughFirst p (x :: xs) :=
        (throughFirst_cons_of_pos (h x hp) xs).trans (throughFirst_cons_of_pos hp xs).symm
      exact hsame ▸ List.prefix_refl _
    | false =>
      rw [throughFirst_cons_of_neg hp, throughFirst]
      split_ifs
      · exact ⟨throughFirst p xs, rfl⟩
      · exact List.cons_prefix_cons.mpr ⟨rfl, ih⟩

/-- An element is looked at when there is no break before it. -/
theorem mem_throughFirst {p : α → Bool} {x : α} {xs : List α} :
    x ∈ throughFirst p xs ↔ ∃ before after, xs = before ++ x :: after ∧
      ∀ y ∈ before, p y = false := by
  induction xs with
  | nil => simp [throughFirst]
  | cons y ys ih =>
    constructor
    · intro hx
      cases hp : p y with
      | true =>
        rw [throughFirst_cons_of_pos hp, List.mem_singleton] at hx
        exact ⟨[], ys, by rw [hx]; rfl, by simp⟩
      | false =>
        rw [throughFirst_cons_of_neg hp] at hx
        obtain rfl | hx := List.mem_cons.mp hx
        · exact ⟨[], ys, rfl, by simp⟩
        · obtain ⟨before, after, rfl, hbefore⟩ := ih.mp hx
          exact ⟨y :: before, after, rfl, List.forall_mem_cons.mpr ⟨hp, hbefore⟩⟩
    · rintro ⟨before, after, heq, hbefore⟩
      cases before with
      | nil =>
        obtain ⟨rfl, rfl⟩ := List.cons.inj heq
        rw [throughFirst]
        split_ifs <;> exact List.mem_cons_self
      | cons z before =>
        obtain ⟨rfl, rfl⟩ := List.cons.inj heq
        obtain ⟨hz, hbefore⟩ := List.forall_mem_cons.mp hbefore
        rw [throughFirst_cons_of_neg hz]
        exact List.mem_cons_of_mem _ (ih.mpr ⟨before, after, rfl, hbefore⟩)

/-- The same from the other end. -/
theorem mem_throughFirst_reverse {p : α → Bool} {x : α} {xs : List α} :
    x ∈ throughFirst p xs.reverse ↔ ∃ before after, xs = before ++ x :: after ∧
      ∀ y ∈ after, p y = false := by
  rw [mem_throughFirst]
  constructor
  · rintro ⟨before, after, heq, hbefore⟩
    refine ⟨after.reverse, before.reverse, ?_, by simpa using hbefore⟩
    rw [← List.reverse_reverse xs, heq]
    simp
  · rintro ⟨before, after, rfl, hafter⟩
    exact ⟨after.reverse, before.reverse, by simp, by simpa using hafter⟩

end Lucie.Foundation
