import Mathlib.Data.List.Lex
import Mathlib.Data.List.Pairwise
import Mathlib.Data.List.Perm.Subperm
import Mathlib.Data.List.Sort
import Mathlib.Order.Defs.Unbundled

/-!
# Contiguous entries of a list

Some entries of a list are contiguous when no other entry stands between two of them. In a list
that is sorted by a strict order, each other entry is then before all of them or behind all of
them. The lists that begin with a given one are contiguous in the lexicographic order.
-/

set_option autoImplicit false

namespace Lucie.Foundation

variable {α β : Type} {p : α → Prop} {l : List α}

/-- Between two entries with the property all have it. -/
def Contiguous (p : α → Prop) (l : List α) : Prop :=
  ∀ x y z, [x, y, z].Sublist l → p x → p z → p y

theorem contiguous_congr {q : α → Prop} (h : ∀ x ∈ l, p x ↔ q x) :
    Contiguous p l ↔ Contiguous q l := by
  refine forall_congr' fun x => forall_congr' fun y => forall_congr' fun z =>
    forall_congr' fun hsub => ?_
  have hx := hsub.subset (by simp : x ∈ [x, y, z])
  have hy := hsub.subset (by simp : y ∈ [x, y, z])
  have hz := hsub.subset (by simp : z ∈ [x, y, z])
  rw [h x hx, h y hy, h z hz]

theorem contiguous_map {f : β → α} {l : List β} :
    Contiguous p (l.map f) ↔ Contiguous (fun x => p (f x)) l := by
  constructor
  · intro h x y z hsub
    exact h _ _ _ (hsub.map f)
  · intro h x y z hsub
    obtain ⟨sub, hsub, hmap⟩ := List.sublist_map_iff.mp hsub
    obtain ⟨x, _, rfl, rfl, htail⟩ := List.map_eq_cons_iff.mp hmap.symm
    obtain ⟨y, _, rfl, rfl, hlast⟩ := List.map_eq_cons_iff.mp htail
    obtain ⟨z, _, rfl, rfl, hnil⟩ := List.map_eq_cons_iff.mp hlast
    obtain rfl := List.map_eq_nil_iff.mp hnil
    exact h x y z hsub

/-- What is in order stands in the list in that order. -/
theorem sublist_of_pairwise {r : α → α → Prop} [IsStrictOrder α r] (hl : l.Pairwise r) {x y z : α}
    (hx : x ∈ l) (hy : y ∈ l) (hz : z ∈ l) (hxy : r x y) (hyz : r y z) :
    [x, y, z].Sublist l := by
  have hxz : r x z := trans_of r hxy hyz
  have hsorted : [x, y, z].Pairwise r := by simp [hxy, hyz, hxz]
  have hnodup : [x, y, z].Nodup := hsorted.imp fun hab => ne_of_irrefl hab
  have hsubset : [x, y, z] ⊆ l := by simp [hx, hy, hz]
  exact List.sublist_of_subperm_of_pairwise (List.Nodup.subperm hnodup hsubset) hsorted hl

theorem or_of_pairwise {r : α → α → Prop} (hl : l.Pairwise r) {x y : α} (hx : x ∈ l) (hy : y ∈ l)
    (hne : x ≠ y) : r x y ∨ r y x := by
  have hsymm : Std.Symm fun x y => r x y ∨ r y x := ⟨fun _ _ => Or.symm⟩
  have hor : l.Pairwise fun x y => r x y ∨ r y x := hl.imp fun h => Or.inl h
  exact hor.forall hx hy hne

/-- In a sorted list every other entry is before all of the contiguous ones or behind them. -/
theorem contiguous_iff_of_pairwise {r : α → α → Prop} [IsStrictOrder α r] (hl : l.Pairwise r) :
    Contiguous p l ↔ ∀ y ∈ l, ¬p y → (∀ x ∈ l, p x → r y x) ∨ ∀ x ∈ l, p x → r x y := by
  have hother : ∀ {x y}, x ∈ l → y ∈ l → p x → ¬p y → r x y ∨ r y x := by
    intro x y hx hy hpx hnot
    exact or_of_pairwise hl hx hy fun heq => hnot (heq ▸ hpx)
  constructor
  · intro h y hy hnot
    by_contra! hneither
    obtain ⟨⟨x, hx, hpx, hyx⟩, z, hz, hpz, hzy⟩ := hneither
    have hxy := (hother hx hy hpx hnot).resolve_right hyx
    have hyz := (hother hz hy hpz hnot).resolve_left hzy
    exact hnot (h x y z (sublist_of_pairwise hl hx hy hz hxy hyz) hpx hpz)
  · intro h x y z hsub hpx hpz
    by_contra hnot
    have hsorted := hl.sublist hsub
    simp only [List.pairwise_cons, List.mem_cons, List.not_mem_nil, or_false, forall_eq_or_imp,
      forall_eq] at hsorted
    obtain ⟨⟨hxy, -⟩, hyz, -⟩ := hsorted
    obtain hbefore | hbehind := h y (hsub.subset (by simp)) hnot
    · exact asymm_of r hxy (hbefore x (hsub.subset (by simp)) hpx)
    · exact asymm_of r hyz (hbehind z (hsub.subset (by simp)) hpz)

/-- A list between two lists that begin in the same way begins in that way. -/
theorem prefix_of_between {α : Type} [LinearOrder α] {start x y z : List α} (hx : start <+: x)
    (hz : start <+: z) (hxy : ¬y < x) (hyz : ¬z < y) : start <+: y := by
  induction start generalizing x y z with
  | nil => exact List.nil_prefix
  | cons first start ih =>
    obtain ⟨x, rfl⟩ := hx
    obtain ⟨z, rfl⟩ := hz
    cases y with
    | nil => exact absurd (List.nil_lt_cons _ _) hxy
    | cons other y =>
      rw [List.cons_append, List.cons_lt_cons_iff, not_or, not_lt, not_and] at hxy hyz
      obtain rfl : first = other := le_antisymm hxy.1 hyz.1
      exact List.cons_prefix_cons.mpr ⟨rfl, ih (List.prefix_append ..) (List.prefix_append ..)
        (hxy.2 rfl) (hyz.2 rfl)⟩

/-- A list comes behind its proper beginnings. -/
theorem lt_of_prefix {α : Type} [LinearOrder α] {start x : List α} (h : start <+: x)
    (hne : x ≠ start) : start < x := by
  obtain ⟨rest, rfl⟩ := h
  induction start with
  | nil =>
    cases rest with
    | nil => exact absurd rfl hne
    | cons first rest => exact List.nil_lt_cons _ _
  | cons first start ih =>
    rw [List.cons_append, List.cons_lt_cons_iff]
    exact .inr ⟨rfl, ih fun heq => hne (congrArg (List.cons first) heq)⟩

end Lucie.Foundation
