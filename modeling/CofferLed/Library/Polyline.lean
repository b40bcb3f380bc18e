import Mathlib.Algebra.Order.Floor.Ring
import Mathlib.Tactic.Linarith
import Mathlib.Tactic.LinearCombination
import Mathlib.Tactic.Ring

/-! Sequences read between their indices.

`polyline r x` lies on the line between the neighbouring values `r ⌊x⌋` and `r ⌈x⌉`. What
bounds the two bounds it (`polyline_mem`), and if no two neighbours of the sequence differ
by more than `K`, the line is nowhere steeper than `K` (`polyline_steep`); cut down to whole
numbers it can be off by one more, but not by the whole of it (`floor_steep`). -/
namespace CofferLed.Library
variable {α : Type} [Field α] [LinearOrder α] [IsStrictOrderedRing α] [FloorRing α]

def polyline (r : ℤ → α) (x : α) : α := r ⌊x⌋ + (r ⌈x⌉ - r ⌊x⌋) * (x - ⌊x⌋)

variable {r : ℤ → α}

/-- On the stretch from `m` to the next index, both ends included. -/
theorem polyline_stretch {x : α} (m : ℤ) (low : (m : α) ≤ x) (high : x ≤ m + 1) :
    polyline r x = r m + (r (m + 1) - r m) * (x - m) := by
  rcases high.lt_or_eq with inside | rfl
  · have floor : ⌊x⌋ = m := Int.floor_eq_iff.mpr ⟨low, inside⟩
    rcases low.lt_or_eq with above | rfl
    · have ceil : ⌈x⌉ = m + 1 := Int.ceil_eq_iff.mpr ⟨by push_cast; linarith, by push_cast; exact high⟩
      rw [polyline, floor, ceil]
    · rw [polyline, Int.floor_intCast, sub_self, mul_zero, mul_zero]
  · have whole : ((m : α) + 1) = ((m + 1 : ℤ) : α) := by push_cast; rfl
    rw [polyline, whole, Int.floor_intCast, Int.ceil_intCast]
    push_cast
    ring

theorem polyline_index (m : ℤ) : polyline r m = r m := by
  rw [polyline, Int.floor_intCast, sub_self, mul_zero, add_zero]

/-- Bounds of the neighbours. -/
theorem polyline_mem {x low high : α} (left : low ≤ r ⌊x⌋ ∧ r ⌊x⌋ ≤ high)
    (right : low ≤ r ⌈x⌉ ∧ r ⌈x⌉ ≤ high) : low ≤ polyline r x ∧ polyline r x ≤ high := by
  have w0 : 0 ≤ x - ⌊x⌋ := Int.fract_nonneg x
  have w1 : x - ⌊x⌋ ≤ 1 := (Int.fract_lt_one x).le
  have mixed : polyline r x = (1 - (x - ⌊x⌋)) * r ⌊x⌋ + (x - ⌊x⌋) * r ⌈x⌉ := by
    unfold polyline
    ring
  rw [mixed]
  exact ⟨by nlinarith, by nlinarith⟩

/-- Whole bounds survive cutting down. -/
theorem floor_polyline_mem {x : α} {low high : ℤ} (left : (low : α) ≤ r ⌊x⌋ ∧ r ⌊x⌋ ≤ high)
    (right : (low : α) ≤ r ⌈x⌉ ∧ r ⌈x⌉ ≤ high) :
    low ≤ ⌊polyline r x⌋ ∧ ⌊polyline r x⌋ ≤ high := by
  obtain ⟨ge, le⟩ := polyline_mem left right
  exact ⟨Int.le_floor.mpr ge, Int.floor_le_iff.mpr (by linarith)⟩

/-- A neighbour below the bound keeps the line below it, when both do not exceed it. -/
theorem polyline_lt {x high : α} (left : r ⌊x⌋ ≤ high) (right : r ⌈x⌉ ≤ high)
    (below : r ⌊x⌋ < high ∨ r ⌈x⌉ < high) : polyline r x < high := by
  rcases eq_or_ne x ⌊x⌋ with whole | between
  · have ceil : ⌈x⌉ = ⌊x⌋ := by
      rw [whole, Int.ceil_intCast, Int.floor_intCast]
    rw [ceil, or_self] at below
    rw [polyline, ceil, sub_self, zero_mul, add_zero]
    exact below
  · have w0 : 0 < x - ⌊x⌋ := sub_pos.mpr ((Int.floor_le x).lt_of_ne between.symm)
    have w1 : x - ⌊x⌋ < 1 := Int.fract_lt_one x
    unfold polyline
    rcases below with below | below <;> nlinarith

/-! ### Steepness -/

section
variable {K : α} (step : ∀ m : ℤ, |r (m + 1) - r m| ≤ K)
include step

omit [FloorRing α] in
theorem indices_steep (m : ℤ) (n : Nat) : |r (m + n) - r m| ≤ K * n := by
  induction n with
  | zero => simp
  | succ n ih =>
    have next := step (m + n)
    calc |r (m + (n + 1 : Nat)) - r m|
        = |(r (m + n + 1) - r (m + n)) + (r (m + n) - r m)| := by
          congr 1
          push_cast
          rw [← add_assoc]
          ring
      _ ≤ |r (m + n + 1) - r (m + n)| + |r (m + n) - r m| := abs_add_le _ _
      _ ≤ K * (n + 1 : Nat) := by
          push_cast
          linarith

/-- Within one stretch. -/
theorem stretch_steep {x y : α} (m : ℤ) (low : (m : α) ≤ x) (le : x ≤ y) (high : y ≤ m + 1) :
    |polyline r y - polyline r x| ≤ K * (y - x) := by
  have slope : polyline r y - polyline r x = (r (m + 1) - r m) * (y - x) := by
    rw [polyline_stretch m (low.trans le) high, polyline_stretch m low (le.trans high)]
    ring
  rw [slope, abs_mul, abs_of_nonneg (sub_nonneg.mpr le)]
  exact mul_le_mul_of_nonneg_right (step m) (sub_nonneg.mpr le)

theorem polyline_steep {x y : α} (le : x ≤ y) : |polyline r y - polyline r x| ≤ K * (y - x) := by
  have x_floor := Int.floor_le x
  have y_floor := Int.floor_le y
  have x_next := (Int.lt_floor_add_one x).le
  have y_next := (Int.lt_floor_add_one y).le
  rcases (Int.floor_mono le).eq_or_lt with same | apart
  · exact stretch_steep step ⌊x⌋ x_floor le (by rw [same]; exact y_next)
  · -- To the end of the first stretch, along the indices, and into the last stretch.
    obtain ⟨n, hn⟩ := Int.le.dest (Int.add_one_le_of_lt apart)
    have count : (⌊x⌋ : α) + 1 + n = ⌊y⌋ := by exact_mod_cast congrArg (Int.cast : ℤ → α) hn
    have first := stretch_steep step ⌊x⌋ x_floor x_next (le_refl _)
    have along := indices_steep step (⌊x⌋ + 1) n
    have last := stretch_steep step ⌊y⌋ (le_refl _) y_floor y_next
    have start : polyline r ((⌊x⌋ : α) + 1) = r (⌊x⌋ + 1) := by
      have whole : ((⌊x⌋ : α) + 1) = ((⌊x⌋ + 1 : ℤ) : α) := by push_cast; rfl
      rw [whole, polyline_index]
    rw [start] at first
    rw [hn] at along
    rw [polyline_index] at last
    calc |polyline r y - polyline r x|
        = |(polyline r y - r ⌊y⌋) + (r ⌊y⌋ - r (⌊x⌋ + 1)) + (r (⌊x⌋ + 1) - polyline r x)| := by
          congr 1
          ring
      _ ≤ |polyline r y - r ⌊y⌋| + |r ⌊y⌋ - r (⌊x⌋ + 1)| + |r (⌊x⌋ + 1) - polyline r x| :=
          abs_add_three _ _ _
      _ ≤ K * (y - x) := by linear_combination first + along + last + K * count

theorem floor_steep {x y : α} (le : x ≤ y) :
    |((⌊polyline r y⌋ - ⌊polyline r x⌋ : ℤ) : α)| < 1 + K * (y - x) := by
  obtain ⟨falls, rises⟩ := abs_le.mp (polyline_steep step le)
  have x_floor := Int.floor_le (polyline r x)
  have y_floor := Int.floor_le (polyline r y)
  have x_next := Int.lt_floor_add_one (polyline r x)
  have y_next := Int.lt_floor_add_one (polyline r y)
  push_cast
  exact abs_lt.mpr ⟨by linarith, by linarith⟩

end

end CofferLed.Library
