import Mathlib.Algebra.Order.BigOperators.Group.List
import Lucie.Foundation.SignedNumber
import Lucie.Geometry.Bounds

/-!
# Scroll deltas

The deltas of a scroll are joined axis by axis: they are added while their signs are the same, and
a delta of another sign replaces those before it. The sign of a zero is that of its sign bit, so
that a zero between two negative deltas replaces what was scrolled before it.
-/

set_option autoImplicit false

namespace Lucie

open Foundation

variable {α : Type} [AddCommGroup α] [LinearOrder α]

/-- `ScrollDelta`. -/
inductive ScrollDelta (α : Type) [AddCommGroup α] [LinearOrder α]
  | pixels (delta : Point (SignedNumber α))
  | lines (delta : Point (SignedNumber α))
  deriving DecidableEq

namespace ScrollDelta

/-- `ScrollDelta::precise`. -/
def precise : ScrollDelta α → Bool
  | pixels _ => true
  | lines _ => false

/-- The delta of either kind. -/
def delta : ScrollDelta α → Point (SignedNumber α)
  | pixels delta => delta
  | lines delta => delta

/-- One axis of `ScrollDelta::coalesce`. -/
def coalesceAxis (a b : SignedNumber α) : SignedNumber α :=
  if a.signum = b.signum then a + b else b

/-- `ScrollDelta::coalesce`. -/
def coalesce (self other : ScrollDelta α) : ScrollDelta α :=
  match self, other with
  | pixels a, pixels b => pixels ⟨coalesceAxis a.x b.x, coalesceAxis a.y b.y⟩
  | lines a, lines b => lines ⟨coalesceAxis a.x b.x, coalesceAxis a.y b.y⟩
  | _, other => other

theorem coalesce_of_kind {self other : ScrollDelta α} (hkind : other.precise = self.precise) :
    (self.coalesce other).precise = self.precise ∧
      (self.coalesce other).delta =
        ⟨coalesceAxis self.delta.x other.delta.x, coalesceAxis self.delta.y other.delta.y⟩ := by
  cases self with
  | pixels a =>
    cases other with
    | pixels b => exact ⟨rfl, rfl⟩
    | lines b => cases hkind
  | lines a =>
    cases other with
    | pixels b => cases hkind
    | lines b => exact ⟨rfl, rfl⟩

/-- The axes of a scroll are joined independently. -/
theorem foldl_coalesce {first : ScrollDelta α} {rest : List (ScrollDelta α)}
    (hkind : ∀ d ∈ rest, d.precise = first.precise) :
    (rest.foldl coalesce first).precise = first.precise ∧
      (rest.foldl coalesce first).delta =
        ⟨(rest.map (·.delta.x)).foldl coalesceAxis first.delta.x,
          (rest.map (·.delta.y)).foldl coalesceAxis first.delta.y⟩ := by
  induction rest generalizing first with
  | nil => exact ⟨rfl, rfl⟩
  | cons d rest ih =>
    obtain ⟨hprecise, hdelta⟩ := coalesce_of_kind (hkind d List.mem_cons_self)
    have hrest (e : ScrollDelta α) (he : e ∈ rest) : e.precise = (first.coalesce d).precise :=
      (hkind e (List.mem_cons_of_mem d he)).trans hprecise.symm
    obtain ⟨hprecise', hdelta'⟩ := ih hrest
    rw [hdelta] at hdelta'
    exact ⟨hprecise'.trans hprecise, hdelta'⟩

end ScrollDelta

/-! ## One axis -/

section Axis

variable {a b : SignedNumber α} {xs : List (SignedNumber α)}

/-- The numbers that are not zero have the same sign. -/
def SameSign (xs : List (SignedNumber α)) : Prop :=
  ∀ x ∈ xs, ∀ y ∈ xs, x.value ≠ 0 → y.value ≠ 0 → (x.value < 0 ↔ y.value < 0)

instance (xs : List (SignedNumber α)) : Decidable (SameSign xs) :=
  inferInstanceAs (Decidable (∀ x ∈ xs, _))

/-- A number that is not zero is followed by numbers with its sign bit only. -/
def KeepsSign (xs : List (SignedNumber α)) : Prop :=
  xs.Pairwise fun x y => x.value ≠ 0 → x.negative = y.negative

instance (xs : List (SignedNumber α)) : Decidable (KeepsSign xs) :=
  inferInstanceAs (Decidable (xs.Pairwise _))

/-- The sum of the values of numbers. -/
def total (xs : List (SignedNumber α)) : α := (xs.map (·.value)).sum

@[simp] theorem total_cons (a : SignedNumber α) (xs : List (SignedNumber α)) :
    total (a :: xs) = a.value + total xs := by
  rw [total, List.map_cons, List.sum_cons, total]

theorem sameSign_iff : SameSign xs ↔ (∀ x ∈ xs, 0 ≤ x.value) ∨ ∀ x ∈ xs, x.value ≤ 0 := by
  constructor
  · intro h
    by_cases hneg : ∃ x ∈ xs, x.value < 0
    · obtain ⟨x, hx, hlt⟩ := hneg
      refine .inr fun y hy => ?_
      by_cases hzero : y.value = 0
      · exact hzero.le
      · exact ((h x hx y hy hlt.ne hzero).mp hlt).le
    · push Not at hneg
      exact .inl hneg
  · rintro (h | h) x hx y hy hne hne'
    · exact iff_of_false (not_lt.mpr (h x hx)) (not_lt.mpr (h y hy))
    · exact iff_of_true ((h x hx).lt_of_ne hne) ((h y hy).lt_of_ne hne')

theorem SameSign.tail (h : SameSign (a :: xs)) : SameSign xs := fun x hx y hy =>
  h x (List.mem_cons_of_mem a hx) y (List.mem_cons_of_mem a hy)

variable [IsOrderedAddMonoid α]

/-- The magnitudes of numbers of the same sign add up. -/
theorem SameSign.abs_total (h : SameSign xs) : |total xs| = (xs.map fun x => |x.value|).sum := by
  induction xs with
  | nil => exact abs_zero
  | cons a xs ih =>
    rw [total_cons, List.map_cons, List.sum_cons, ← ih h.tail]
    refine (abs_add_eq_add_abs_iff a.value (total xs)).mpr ?_
    rcases sameSign_iff.mp h with hall | hall
    · refine .inl ⟨hall a List.mem_cons_self, List.sum_nonneg fun x hx => ?_⟩
      obtain ⟨y, hy, rfl⟩ := List.mem_map.mp hx
      exact hall y (List.mem_cons_of_mem a hy)
    · have hle := List.sum_le_card_nsmul (xs.map (·.value)) 0 fun x hx => by
        obtain ⟨y, hy, rfl⟩ := List.mem_map.mp hx
        exact hall y (List.mem_cons_of_mem a hy)
      rw [nsmul_zero] at hle
      exact .inr ⟨hall a List.mem_cons_self, hle⟩

/-- What is left of a scroll is no more than its parts. -/
theorem abs_foldl_coalesceAxis_le (a : SignedNumber α) (xs : List (SignedNumber α)) :
    |(xs.foldl ScrollDelta.coalesceAxis a).value| ≤
      ((a :: xs).map fun x => |x.value|).sum := by
  induction xs generalizing a with
  | nil => simp
  | cons b xs ih =>
    refine (ih _).trans ?_
    rw [List.map_cons, List.sum_cons, List.map_cons, List.sum_cons, List.map_cons, List.sum_cons,
      ← add_assoc]
    refine add_le_add_left ?_ _
    unfold ScrollDelta.coalesceAxis
    split_ifs
    · exact abs_add_le a.value b.value
    · exact le_add_of_nonneg_left (abs_nonneg a.value)

theorem keepsSign_add (h : a.negative = b.negative) :
    KeepsSign (a :: b :: xs) ↔ KeepsSign ((a + b) :: xs) := by
  have hzero := SignedNumber.add_eq_zero_iff h
  have hsign := SignedNumber.negative_add_of_eq h
  simp only [KeepsSign, List.pairwise_cons, List.mem_cons, forall_eq_or_imp, hsign, ne_eq, hzero,
    not_and_or]
  constructor
  · rintro ⟨⟨-, ha⟩, hb, hxs⟩
    refine ⟨fun x hx hne => ?_, hxs⟩
    rcases hne with hne | hne
    · exact ha x hx hne
    · exact h.trans (hb x hx hne)
  · rintro ⟨hab, hxs⟩
    exact ⟨⟨fun _ => h, fun x hx hne => hab x hx (.inl hne)⟩,
      fun x hx hne => h.symm.trans (hab x hx (.inr hne)), hxs⟩

theorem SameSign.add (h : SameSign (a :: b :: xs)) : SameSign ((a + b) :: xs) := by
  simp only [sameSign_iff, List.mem_cons, forall_eq_or_imp, SignedNumber.value_add] at h ⊢
  rcases h with ⟨ha, hb, hxs⟩ | ⟨ha, hb, hxs⟩
  · exact .inl ⟨add_nonneg ha hb, hxs⟩
  · exact .inr ⟨add_nonpos ha hb, hxs⟩

/-- One axis of a scroll in one direction is summed up exactly if no zero of the other sign comes
after a delta that is not zero. The induction is on the deltas that are left. -/
theorem SameSign.foldl_eq_total_iff (h : SameSign (a :: xs)) :
    (xs.foldl ScrollDelta.coalesceAxis a).value = total (a :: xs) ↔ KeepsSign (a :: xs) := by
  induction xs generalizing a with
  | nil =>
    rw [total_cons]
    exact iff_of_true (add_zero _).symm (List.pairwise_singleton _ a)
  | cons b xs ih =>
    rw [List.foldl_cons]
    by_cases hsign : a.negative = b.negative
    · have hadd : ScrollDelta.coalesceAxis a b = a + b :=
        if_pos (SignedNumber.signum_eq_iff.mpr hsign)
      rw [hadd, keepsSign_add hsign, ← ih h.add]
      simp only [total_cons, SignedNumber.value_add, add_assoc]
    · have hreplace : ScrollDelta.coalesceAxis a b = b :=
        if_neg fun heq => hsign (SignedNumber.signum_eq_iff.mp heq)
      rw [hreplace]
      by_cases hzero : a.value = 0
      · have hrest : KeepsSign (a :: b :: xs) ↔ KeepsSign (b :: xs) := by
          rw [KeepsSign, List.pairwise_cons, and_iff_right fun x _ hne => absurd hzero hne]
          rfl
        rw [total_cons, hzero, zero_add, hrest]
        exact ih h.tail
      · -- what came before is lost
        refine iff_of_false (fun heq => ?_) fun hkeeps =>
          hsign ((List.pairwise_cons.mp hkeeps).1 b List.mem_cons_self hzero)
        have hle := abs_foldl_coalesceAxis_le b xs
        rw [heq, h.abs_total, List.map_cons, List.sum_cons] at hle
        exact absurd hle (not_le.mpr (lt_add_of_pos_left _ (abs_pos.mpr hzero)))

end Axis

namespace ScrollDelta

/-- The deltas are joined to their sum on both axes. -/
def SumsUp (first : ScrollDelta α) (rest : List (ScrollDelta α)) : Prop :=
  (rest.foldl coalesce first).precise = first.precise ∧
    (rest.foldl coalesce first).delta.x.value = total ((first :: rest).map (·.delta.x)) ∧
    (rest.foldl coalesce first).delta.y.value = total ((first :: rest).map (·.delta.y))

instance (first : ScrollDelta α) (rest : List (ScrollDelta α)) : Decidable (SumsUp first rest) :=
  inferInstanceAs (Decidable (_ ∧ _))

/-- A scroll in one direction on each axis is summed up exactly if on neither axis a zero of the
other sign comes after a delta that is not zero. -/
theorem sumsUp_iff [IsOrderedAddMonoid α] {first : ScrollDelta α} {rest : List (ScrollDelta α)}
    (hkind : ∀ d ∈ rest, d.precise = first.precise)
    (hx : SameSign ((first :: rest).map (·.delta.x)))
    (hy : SameSign ((first :: rest).map (·.delta.y))) :
    SumsUp first rest ↔ KeepsSign ((first :: rest).map (·.delta.x)) ∧
      KeepsSign ((first :: rest).map (·.delta.y)) := by
  obtain ⟨hprecise, hdelta⟩ := foldl_coalesce hkind
  rw [SumsUp, hdelta, and_iff_right hprecise]
  exact and_congr hx.foldl_eq_total_iff hy.foldl_eq_total_iff

/-- A delta of some lines downwards. -/
def linesDown (lines : ℚ) : ScrollDelta ℚ :=
  .lines ⟨⟨0, false, fun hne => absurd rfl hne⟩, ⟨-lines, decide (-lines < 0), by simp⟩⟩

/-- Two lines downwards after nothing has moved. -/
theorem sumsUp_downwards : SumsUp (linesDown 0) [linesDown 1, linesDown 1] :=
  (sumsUp_iff (by decide) (by decide +kernel) (by decide +kernel)).mpr
    ⟨by decide +kernel, by decide +kernel⟩

/-- An event in between that does not move loses the line before it. -/
theorem not_sumsUp_pause :
    SameSign ([linesDown 1, linesDown 0].map (·.delta.x)) ∧
      SameSign ([linesDown 1, linesDown 0].map (·.delta.y)) ∧
      ¬SumsUp (linesDown 1) [linesDown 0] := by
  refine ⟨by decide +kernel, by decide +kernel, by decide +kernel⟩

end ScrollDelta

end Lucie
