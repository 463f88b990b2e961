import Mathlib.Algebra.Order.Group.Abs
import Mathlib.Tactic.Linarith

/-!
# Numbers with a signed zero

Floating point numbers have a sign bit of their own, which tells the sign of a number unless it is
zero. Sums are exact here; a sum of zero is positive unless both of its terms are negative zeros.
-/

set_option autoImplicit false

namespace Lucie.Foundation

variable {α : Type} [AddCommGroup α] [LinearOrder α]

/-- A number and its sign bit. -/
@[ext] structure SignedNumber (α : Type) [AddCommGroup α] [LinearOrder α] where
  value : α
  negative : Bool
  negative_iff : value ≠ 0 → (negative = true ↔ value < 0)
  deriving DecidableEq

namespace SignedNumber

/-- The sum of two numbers. -/
instance : Add (SignedNumber α) where
  add x y := ⟨x.value + y.value,
    if x.value + y.value = 0 then x.negative && y.negative else decide (x.value + y.value < 0),
    fun hne => by rw [if_neg hne, decide_eq_true_iff]⟩

/-- `signum`, which has no value for zero. -/
def signum (x : SignedNumber α) : ℤ := if x.negative then -1 else 1

variable {x y : SignedNumber α}

@[simp] theorem value_add (x y : SignedNumber α) : (x + y).value = x.value + y.value := rfl

theorem negative_add (x y : SignedNumber α) : (x + y).negative =
    if x.value + y.value = 0 then x.negative && y.negative
    else decide (x.value + y.value < 0) := rfl

theorem signum_eq_iff : x.signum = y.signum ↔ x.negative = y.negative := by
  unfold signum
  cases x.negative <;> cases y.negative <;> simp

theorem nonneg_of_negative (h : x.negative = false) : 0 ≤ x.value := by
  by_contra hlt
  have hneg := not_le.mp hlt
  rw [(x.negative_iff hneg.ne).mpr hneg] at h
  cases h

theorem nonpos_of_negative (h : x.negative = true) : x.value ≤ 0 := by
  by_cases hzero : x.value = 0
  · exact hzero.le
  · exact ((x.negative_iff hzero).mp h).le

section Ordered

variable [IsOrderedAddMonoid α]

/-- Numbers of one sign do not cancel each other. -/
theorem add_eq_zero_iff (h : x.negative = y.negative) :
    (x + y).value = 0 ↔ x.value = 0 ∧ y.value = 0 := by
  rw [value_add]
  cases hx : x.negative with
  | false =>
    exact add_eq_zero_iff_of_nonneg (nonneg_of_negative hx) (nonneg_of_negative (h.symm.trans hx))
  | true =>
    have hnonpos := nonpos_of_negative hx
    have hnonpos' := nonpos_of_negative (h.symm.trans hx)
    rw [← neg_eq_zero, neg_add, add_eq_zero_iff_of_nonneg (neg_nonneg.mpr hnonpos)
      (neg_nonneg.mpr hnonpos'), neg_eq_zero, neg_eq_zero]

/-- A sum of numbers of one sign has this sign. -/
theorem negative_add_of_eq (h : x.negative = y.negative) : (x + y).negative = x.negative := by
  rw [negative_add]
  split_ifs with hzero
  · rw [← h, Bool.and_self]
  · cases hx : x.negative with
    | false =>
      have hnonneg := add_nonneg (nonneg_of_negative hx) (nonneg_of_negative (h.symm.trans hx))
      exact decide_eq_false (not_lt.mpr hnonneg)
    | true =>
      have hnonpos := add_nonpos (nonpos_of_negative hx) (nonpos_of_negative (h.symm.trans hx))
      exact decide_eq_true (lt_of_le_of_ne hnonpos hzero)

end Ordered

end SignedNumber

end Lucie.Foundation
