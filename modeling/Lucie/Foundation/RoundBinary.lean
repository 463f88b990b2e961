import Mathlib.Data.Int.Log
import Mathlib.Data.Rat.Floor
import Mathlib.Tactic.Positivity

/-!
# Rounding to binary digits

Positive numbers are rounded to the nearest number with so many binary digits, and half way between
two of them to the even one. The exponent has no bounds. A number that has no more digits stays as
it is.
-/

set_option autoImplicit false

namespace Lucie.Foundation

/-- The nearest integer, and half way between two of them the even one. -/
def roundEven (x : ℚ) : ℤ :=
  let low := ⌊x⌋
  if x - low < 1 / 2 then low
  else if 1 / 2 < x - low then low + 1
  else if low % 2 = 0 then low
  else low + 1

/-- What the last one of the digits of a number counts. -/
def lastDigit (digits : ℕ) (x : ℚ) : ℚ := 2 ^ (Int.log 2 x + 1 - digits)

/-- The nearest number with so many digits. -/
def roundBinary (digits : ℕ) (x : ℚ) : ℚ :=
  roundEven (x / lastDigit digits x) * lastDigit digits x

theorem roundEven_intCast (n : ℤ) : roundEven n = n := by
  rw [roundEven, Int.floor_intCast, sub_self]
  exact if_pos one_half_pos

/-- A number is not rounded when the last digit divides it. -/
theorem roundBinary_eq_self {digits : ℕ} {x : ℚ} (n : ℤ) (h : x = n * lastDigit digits x) :
    roundBinary digits x = x := by
  have hpos : 0 < lastDigit digits x := zpow_pos two_pos _
  have hdiv : x / lastDigit digits x = n := (div_eq_iff hpos.ne').mpr h
  rw [roundBinary, hdiv, roundEven_intCast, ← h]

theorem roundBinary_one {digits : ℕ} (h : 1 ≤ digits) : roundBinary digits 1 = 1 := by
  refine roundBinary_eq_self (2 ^ (digits - 1)) ?_
  have hdigits : (digits : ℤ) - 1 = ((digits - 1 : ℕ) : ℤ) := by omega
  rw [lastDigit, Int.log_one_right, zero_add, ← neg_sub, hdigits, zpow_neg, zpow_natCast]
  push_cast
  exact (mul_inv_cancel₀ (by positivity)).symm

end Lucie.Foundation
