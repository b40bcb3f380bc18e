import Mathlib.Algebra.Order.Field.Basic
import Mathlib.Tactic.Linarith
import Mathlib.Tactic.Ring

/-! Distances on a circle.

Points of a circle of length `L` are numbers modulo `L`. `around L x` is the distance of
two points whose numbers differ by `x`, the shorter way round; on differences of at most
one round it does not depend on the numbers chosen (`around_congr`). -/
namespace CofferLed.Library
variable {α : Type} [Field α] [LinearOrder α] [IsStrictOrderedRing α]

def around (L x : α) : α := min |x| (L - |x|)

omit [IsStrictOrderedRing α] in
theorem around_neg (L x : α) : around L (-x) = around L x := by
  rw [around, abs_neg, around]

/-- The other way round. -/
theorem around_add {L x : α} (low : -L ≤ x) (high : x ≤ 0) : around L (x + L) = around L x := by
  rw [around, around, abs_of_nonneg (by linarith), abs_of_nonpos high, min_comm]
  congr 1 <;> ring

/-- All numbers of a point within one round of another are as far from it. -/
theorem around_congr {L x y : α} (hx : |x| ≤ L) (hy : |y| ≤ L) (q : ℤ) (h : y = x + q * L) :
    around L y = around L x := by
  obtain ⟨x_low, x_high⟩ := abs_le.mp hx
  obtain ⟨y_low, y_high⟩ := abs_le.mp hy
  rcases (show 0 ≤ L by linarith).eq_or_lt with rfl | pos
  · rw [h, mul_zero, add_zero]
  have lower : (-3 : α) < q := by
    by_contra far
    have rounds : (q : α) * L ≤ -3 * L := mul_le_mul_of_nonneg_right (not_lt.mp far) pos.le
    linarith
  have upper : (q : α) < 3 := by
    by_contra far
    have rounds : 3 * L ≤ q * L := mul_le_mul_of_nonneg_right (not_lt.mp far) pos.le
    linarith
  have lower : -3 < q := by exact_mod_cast lower
  have upper : q < 3 := by exact_mod_cast upper
  obtain rfl | rfl | rfl | rfl | rfl : q = -2 ∨ q = -1 ∨ q = 0 ∨ q = 1 ∨ q = 2 := by omega
  all_goals push_cast at h
  · have ends : x = L ∧ y = -L := ⟨by linarith, by linarith⟩
    rw [ends.1, ends.2, around_neg]
  · rw [show x = y + L by linarith, around_add y_low (by linarith)]
  · rw [h, zero_mul, add_zero]
  · rw [show y = x + L by linarith, around_add x_low (by linarith)]
  · have ends : x = -L ∧ y = L := ⟨by linarith, by linarith⟩
    rw [ends.1, ends.2, around_neg]

end CofferLed.Library
