import Mathlib.Data.List.Basic

/-!
# Journals

A journal is a list whose entries are justified by those before them. What is added at the end of a
journal has to be justified by all of it.
-/

set_option autoImplicit false

namespace Lucie.Foundation

variable {β : Type}

/-- Each entry is justified by the entries before it. -/
def Journal (Justifies : List β → β → Prop) (entries : List β) : Prop :=
  ∀ before entry after, entries = before ++ entry :: after → Justifies before entry

variable {Justifies : List β → β → Prop} {entries : List β}

theorem journal_nil : Journal Justifies [] := by
  intro before entry after h
  simp at h

/-- An entry of a list with one more at the end is this one, or stands before it. -/
theorem snoc_eq_append_cons {last : β} {before : List β} {entry : β} {after : List β}
    (heq : entries ++ [last] = before ++ entry :: after) :
    before = entries ∧ entry = last ∨ ∃ rest, entries = before ++ entry :: rest := by
  rcases List.eq_nil_or_concat after with rfl | ⟨after, other, rfl⟩
  · obtain ⟨hbefore, hentry⟩ := List.append_inj' heq rfl
    exact .inl ⟨hbefore.symm, (List.singleton_inj.mp hentry).symm⟩
  · rw [List.concat_eq_append, ← List.cons_append, ← List.append_assoc] at heq
    exact .inr ⟨after, (List.append_inj' heq rfl).1⟩

/-- An entry at the end. -/
theorem Journal.snoc (h : Journal Justifies entries) {last : β} (hlast : Justifies entries last) :
    Journal Justifies (entries ++ [last]) := by
  intro before entry after heq
  obtain ⟨rfl, rfl⟩ | ⟨rest, hentry⟩ := snoc_eq_append_cons heq
  · exact hlast
  · exact h before entry rest hentry

/-- What came before the end is a journal. -/
theorem Journal.of_append {later : List β} (h : Journal Justifies (entries ++ later)) :
    Journal Justifies entries := by
  intro before entry after heq
  refine h before entry (after ++ later) ?_
  rw [heq, List.append_assoc, List.cons_append]

end Lucie.Foundation
