import Mathlib.Data.List.Sort
import Mathlib.Logic.Function.Basic
import Mathlib.Logic.Equiv.Fin.Basic
import Mathlib.Tactic.Common

/-!
# Merging sorted queues

A merge takes non-empty batches off the fronts of a family of queues until all are
empty. When no element of a batch is above an element that waits in another queue, the
output of sorted queues is sorted, and every queue is the part of the output that came
from it.
-/

set_option autoImplicit false

namespace Lucie.Foundation

variable {κ α ω : Type} [DecidableEq κ] [LinearOrder ω]

/-- The queues can be emptied into the output batch by batch, and no batch passes an
element that waits in another queue. -/
inductive Merges (key : α → ω) : (κ → List α) → List α → Prop
  | nil {queues : κ → List α} (empty : ∀ k, queues k = []) : Merges key queues []
  | take {queues : κ → List α} {k : κ} {batch rest out : List α}
      (front : queues k = batch ++ rest)
      (before : ∀ k', k' ≠ k → ∀ x ∈ batch, ∀ y ∈ queues k', key x ≤ key y)
      (merges : Merges key (Function.update queues k rest) out) :
      Merges key queues (batch ++ out)

namespace Merges

variable {key : α → ω} {queues : κ → List α} {out : List α}

/-- Every element of the output waited in some queue. -/
theorem exists_mem (h : Merges key queues out) {x : α} (hx : x ∈ out) : ∃ k, x ∈ queues k := by
  induction h with
  | nil => simp at hx
  | @take queues k batch rest out front before merges ih =>
    rcases List.mem_append.mp hx with hx | hx
    · exact ⟨k, by simp [front, hx]⟩
    · obtain ⟨k', hk'⟩ := ih hx
      by_cases heq : k' = k
      · subst heq
        rw [Function.update_self] at hk'
        exact ⟨k', by simp [front, hk']⟩
      · rw [Function.update_of_ne heq] at hk'
        exact ⟨k', hk'⟩

/-- Sorted queues merge into a sorted output. -/
theorem pairwise (h : Merges key queues out)
    (hsorted : ∀ k, (queues k).Pairwise fun x y => key x ≤ key y) :
    out.Pairwise fun x y => key x ≤ key y := by
  induction h with
  | nil => exact .nil
  | @take queues k batch rest out front before merges ih =>
    have hk := hsorted k
    rw [front, List.pairwise_append] at hk
    obtain ⟨hbatch, hrest, hcross⟩ := hk
    refine List.pairwise_append.mpr ⟨hbatch, ih fun k' => ?_, fun x hx y hy => ?_⟩
    · by_cases heq : k' = k
      · subst heq
        rwa [Function.update_self]
      · rw [Function.update_of_ne heq]
        exact hsorted k'
    · obtain ⟨k', hk'⟩ := merges.exists_mem hy
      by_cases heq : k' = k
      · subst heq
        rw [Function.update_self] at hk'
        exact hcross x hx y hk'
      · rw [Function.update_of_ne heq] at hk'
        exact before k' heq x hx y hk'

/-- A queue is the part of the output that came from it. -/
theorem filter_eq (h : Merges key queues out) {origin : α → κ}
    (horigin : ∀ k, ∀ x ∈ queues k, origin x = k) (k : κ) :
    (out.filter fun x => origin x = k) = queues k := by
  induction h with
  | nil empty => simp [empty k]
  | @take queues k₀ batch rest out front before merges ih =>
    have hbatch : ∀ x ∈ batch, origin x = k₀ := fun x hx => horigin k₀ x (by simp [front, hx])
    have hout := ih fun k' x hx => by
      by_cases heq : k' = k₀
      · subst heq
        rw [Function.update_self] at hx
        exact horigin k' x (by simp [front, hx])
      · rw [Function.update_of_ne heq] at hx
        exact horigin k' x hx
    rw [List.filter_append, hout]
    by_cases heq : k = k₀
    · subst heq
      rw [Function.update_self, front, List.filter_eq_self.mpr fun x hx => by
        simpa using hbatch x hx]
    · rw [Function.update_of_ne heq, List.filter_eq_nil_iff.mpr fun x hx => by
        simpa [hbatch x hx] using Ne.symm heq, List.nil_append]

end Merges

/-- Lists whose parts of each origin are permutations are permutations. -/
theorem perm_of_filter_perm {l l' : List α} (origin : α → κ)
    (h : ∀ k, (l.filter fun x => origin x = k).Perm (l'.filter fun x => origin x = k)) :
    l.Perm l' := by
  classical
  refine List.perm_iff_count.mpr fun x => ?_
  have hcount := List.perm_iff_count.mp (h (origin x)) x
  rwa [List.count_filter (by simp), List.count_filter (by simp)] at hcount

/-- A permutation moves positions by a bijection. -/
theorem exists_equiv_of_perm {l l' : List α} (h : l.Perm l') :
    ∃ e : Fin l.length ≃ Fin l'.length, ∀ i, l'[e i] = l[i] := by
  induction h with
  | nil => exact ⟨Equiv.refl _, fun i => rfl⟩
  | @cons x l l' _ ih =>
    obtain ⟨e, he⟩ := ih
    refine ⟨(finSuccEquiv _).trans (e.optionCongr.trans (finSuccEquiv _).symm), fun i => ?_⟩
    cases i using Fin.cases with
    | zero => simp
    | succ i => simpa using he i
  | swap x y l =>
    refine ⟨Equiv.swap 0 1, fun i => ?_⟩
    cases i using Fin.cases with
    | zero => simp
    | succ i =>
      cases i using Fin.cases with
      | zero => simp
      | succ i =>
        have hne : i.succ.succ ≠ 1 := fun heq => by
          have hval := congrArg Fin.val heq
          simp at hval
        have hfix : Equiv.swap 0 1 i.succ.succ = i.succ.succ :=
          Equiv.swap_apply_of_ne_of_ne (Fin.succ_ne_zero _) hne
        simp [hfix]
  | trans _ _ ih₁ ih₂ =>
    obtain ⟨e₁, he₁⟩ := ih₁
    obtain ⟨e₂, he₂⟩ := ih₂
    exact ⟨e₁.trans e₂, fun i => by simp only [Equiv.trans_apply, he₂, he₁]⟩

end Lucie.Foundation
