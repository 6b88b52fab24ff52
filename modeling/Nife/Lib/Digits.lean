/-
Numbers by their digits.  Two numbers are equal when they agree in their lowest `n` digits to a
base and in what is left above them.
-/
import Mathlib.Algebra.Order.Group.Nat
import Mathlib.Tactic.Common

namespace Digits

/-- Digit `j` of `x` to the base `b`. -/
def digit (b j x : Nat) : Nat := x / b ^ j % b

theorem digit_zero (b x : Nat) : digit b 0 x = x % b := by
  rw [digit, Nat.pow_zero, Nat.div_one]

theorem digit_succ (b j x : Nat) : digit b (j + 1) x = digit b j (x / b) := by
  rw [digit, digit, Nat.pow_succ, Nat.mul_comm, Nat.div_div_eq_div_mul]

/-- **Equal digits and equal rest, equal numbers.** -/
theorem eq_of_digits {b n x y : Nat} (hrest : x / b ^ n = y / b ^ n)
    (hdigits : ∀ j, j < n → digit b j x = digit b j y) : x = y := by
  induction n generalizing x y with
  | zero => rwa [Nat.pow_zero, Nat.div_one, Nat.div_one] at hrest
  | succ n ih =>
    have hlow := hdigits 0 (Nat.succ_pos n)
    rw [digit_zero, digit_zero] at hlow
    have hhigh : x / b = y / b := by
      refine ih ?_ fun j hj => ?_
      · rwa [Nat.pow_succ, Nat.mul_comm, ← Nat.div_div_eq_div_mul, ← Nat.div_div_eq_div_mul]
          at hrest
      · rw [← digit_succ, ← digit_succ]
        exact hdigits (j + 1) (Nat.succ_lt_succ hj)
    rw [← Nat.div_add_mod x b, ← Nat.div_add_mod y b, hlow, hhigh]

end Digits
