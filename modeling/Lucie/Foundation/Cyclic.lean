import Mathlib.Data.List.Cycle
import Mathlib.Order.Defs.Unbundled

/-!
# Neighbours in a sorted list

In a list that is sorted by a strict order, the entries around a given one are those that the
order puts before and behind it. The nearest of them, with a wrap-around at the ends, are its
neighbours in the cycle of the list.
-/

set_option autoImplicit false

namespace Lucie.Foundation

variable {α : Type} {r : α → α → Prop} [DecidableRel r] [IsStrictOrder α r] {l : List α}

/-- The entries before an entry of the order come first. -/
theorem takeWhile_eq_filter (h : l.Pairwise r) (a : α) :
    l.takeWhile (fun x => decide (r x a)) = l.filter fun x => r x a := by
  induction l with
  | nil => rfl
  | cons x l ih =>
    obtain ⟨hx, hl⟩ := List.pairwise_cons.mp h
    by_cases hxa : r x a
    · rw [List.takeWhile_cons_of_pos (by simpa using hxa),
        List.filter_cons_of_pos (by simpa using hxa), ih hl]
    · have hnone : l.filter (fun x => decide (r x a)) = [] := by
        rw [List.filter_eq_nil_iff]
        intro y hy
        simpa using fun hya => hxa (trans_of r (hx y hy) hya)
      rw [List.takeWhile_cons_of_neg (by simpa using hxa),
        List.filter_cons_of_neg (by simpa using hxa), hnone]

/-- The entries that are not before an entry of the order come last. -/
theorem dropWhile_eq_filter (h : l.Pairwise r) (a : α) :
    l.dropWhile (fun x => decide (r x a)) = l.filter fun x => ¬r x a := by
  induction l with
  | nil => rfl
  | cons x l ih =>
    obtain ⟨hx, hl⟩ := List.pairwise_cons.mp h
    by_cases hxa : r x a
    · rw [List.dropWhile_cons_of_pos (by simpa using hxa),
        List.filter_cons_of_neg (by simpa using hxa), ih hl]
    · rw [List.dropWhile_cons_of_neg (by simpa using hxa)]
      refine (List.filter_eq_self.mpr ?_).symm
      intro y hy
      obtain rfl | hy := List.mem_cons.mp hy
      · simpa using hxa
      · simpa using fun hya => hxa (trans_of r (hx y hy) hya)

/-- The entries behind an entry of the list. -/
theorem drop_dropWhile_eq_filter (h : l.Pairwise r) {a : α} (ha : a ∈ l) :
    (l.dropWhile fun x => decide (r x a)).drop 1 = l.filter fun x => r a x := by
  induction l with
  | nil => cases ha
  | cons x l ih =>
    obtain ⟨hx, hl⟩ := List.pairwise_cons.mp h
    obtain rfl | ha := List.mem_cons.mp ha
    · rw [List.dropWhile_cons_of_neg (by simpa using irrefl a), List.drop_one, List.tail_cons,
        List.filter_cons_of_neg (by simpa using irrefl a)]
      exact (List.filter_eq_self.mpr fun y hy => by simpa using hx y hy).symm
    · have hxa := hx a ha
      rw [List.dropWhile_cons_of_pos (by simpa using hxa), ih hl ha,
        List.filter_cons_of_neg (by simpa using asymm hxa)]

/-- Behind an entry of the order are those that follow it in the list. -/
theorem filter_behind_eq {a : α} {before rest : List α} (h : (before ++ a :: rest).Pairwise r) :
    ((before ++ a :: rest).filter fun x => r a x) = rest := by
  obtain ⟨-, hrest, hbefore⟩ := List.pairwise_append.mp h
  have hnone : (before.filter fun x => decide (r a x)) = [] := by
    rw [List.filter_eq_nil_iff]
    intro x hx
    simpa using asymm_of r (hbefore x hx a List.mem_cons_self)
  have hall : (rest.filter fun x => decide (r a x)) = rest := by
    rw [List.filter_eq_self]
    intro x hx
    simpa using (List.pairwise_cons.mp hrest).1 x hx
  rw [List.filter_append, hnone, List.nil_append,
    List.filter_cons_of_neg (by simpa using irrefl a), hall]

variable [DecidableEq α]

/-- The next entry of the cycle is the nearest one behind, or else the first one. -/
theorem head?_filter_or_head? (h : l.Pairwise r) {a : α} (ha : a ∈ l) :
    ((l.filter fun x => r a x).head?).or l.head? = some (l.next a ha) := by
  have hor : ∀ (l : List α) (d : α), l.Pairwise r → a ∈ l →
      ((l.filter fun x => r a x).head?).getD d = l.nextOr a d := by
    intro l d
    induction l with
    | nil => exact fun _ ha => by cases ha
    | cons x l ih =>
      intro h ha
      obtain ⟨hx, hl⟩ := List.pairwise_cons.mp h
      by_cases hxa : a = x
      · subst hxa
        cases l with
        | nil => simp [irrefl]
        | cons y l =>
          have hay := hx y List.mem_cons_self
          simp [irrefl, hay]
      · have ha := (List.mem_cons.mp ha).resolve_left hxa
        rw [List.nextOr_cons_of_ne _ _ _ _ hxa, List.filter_cons_of_neg
          (by simpa using asymm (hx a ha)), ih hl ha]
  obtain ⟨first, rest, rfl⟩ := List.exists_cons_of_ne_nil (List.ne_nil_of_mem ha)
  have hnext := hor (first :: rest) first h ha
  rw [List.next, List.get_eq_getElem, List.getElem_cons_zero, ← hnext, List.head?_cons]
  cases ((first :: rest).filter fun x => r a x).head? with
  | none => rfl
  | some b => rfl

/-- The previous entry of the cycle is the nearest one before, or else the last one. -/
theorem getLast?_filter_or_getLast? (h : l.Pairwise r) {a : α} (ha : a ∈ l) :
    ((l.filter fun x => r x a).getLast?).or l.getLast? = some (l.prev a ha) := by
  have hnodup : l.Nodup := h.imp fun hab => ne_of_irrefl hab
  have hreverse : l.reverse.Pairwise (Function.swap r) := List.pairwise_reverse.mpr h
  have hnext := @head?_filter_or_head? α (Function.swap r) (fun a b => inferInstanceAs
    (Decidable (r b a))) _ l.reverse _ hreverse a (List.mem_reverse.mpr ha)
  rw [← List.next_reverse_eq_prev l hnodup a ha, ← hnext, List.head?_reverse,
    List.filter_reverse, List.head?_reverse]

omit [DecidableRel r] [DecidableEq α] in
/-- Two lists that are sorted by the same strict order and have the same entries are equal. -/
theorem eq_of_pairwise_of_mem_iff {l' : List α} (h : l.Pairwise r) (h' : l'.Pairwise r)
    (hmem : ∀ a, a ∈ l ↔ a ∈ l') : l = l' := by
  have hperm : l.Perm l' := (List.perm_ext_iff_of_nodup (h.imp fun hab => ne_of_irrefl hab)
    (h'.imp fun hab => ne_of_irrefl hab)).mpr hmem
  exact hperm.eq_of_pairwise (fun a b _ _ hab hba => absurd hba (asymm_of r hab)) h h'

end Lucie.Foundation
