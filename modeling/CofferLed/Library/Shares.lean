import Mathlib.Algebra.Order.Floor.Div

/-! Things dealt out in order.

`n` things in a row go to `m` owners in order, thing `i` to owner `m * i / n`. The share of
owner `k` begins at `first m n k`, the quotient `k * n / m` rounded up: rounding up is adjoint
to multiplication, so the things from there on are those of owner `k` and the owners after
(`first_le_iff`). With no more owners than things nobody goes away empty, and shares differ
by one thing at most. -/
namespace CofferLed.Library.Shares

def owner (m n i : Nat) : Nat := m * i / n

def first (m n k : Nat) : Nat := k * n ⌈/⌉ m

variable {m n : Nat}

section
variable (pos : 0 < m)
include pos

theorem first_le_iff {i k : Nat} (some_thing : 0 < n) : first m n k ≤ i ↔ k ≤ owner m n i := by
  rw [first, ceilDiv_le_iff_le_mul pos, owner, Nat.le_div_iff_mul_le some_thing]

/-- The things of owner `k` are those from `first m n k` up to the next owner's. -/
theorem owner_eq_iff {i k : Nat} (some_thing : 0 < n) :
    owner m n i = k ↔ first m n k ≤ i ∧ i < first m n (k + 1) := by
  have next := first_le_iff (i := i) (k := k + 1) pos some_thing
  rw [first_le_iff pos some_thing, ← Nat.not_le, next]
  omega

omit pos in
theorem first_zero : first m n 0 = 0 := by
  rw [first, Nat.zero_mul, zero_ceilDiv]

theorem first_all : first m n m = n := by
  apply Nat.le_antisymm
  · rw [first, ceilDiv_le_iff_le_mul pos]
  · have le : m * n ≤ m * first m n m := le_smul_ceilDiv pos
    exact Nat.le_of_mul_le_mul_left le pos

/-- No share is smaller than `n / m` rounded down, none greater than `n / m` rounded up. -/
theorem size_bounds (k : Nat) :
    first m n k + n / m ≤ first m n (k + 1) ∧ first m n (k + 1) ≤ first m n k + n ⌈/⌉ m := by
  have ends : (k + 1) * n ≤ m * first m n (k + 1) := le_smul_ceilDiv pos
  have begins : k * n ≤ m * first m n k := le_smul_ceilDiv pos
  have down : m * (n / m) ≤ n := Nat.mul_div_le n m
  have up : n ≤ m * (n ⌈/⌉ m) := le_smul_ceilDiv pos
  rw [Nat.succ_mul] at ends
  refine ⟨?_, ?_⟩
  · have room : n / m ≤ first m n (k + 1) := by
      apply Nat.le_of_mul_le_mul_left _ pos
      omega
    have earlier : first m n k ≤ first m n (k + 1) - n / m := by
      rw [first, ceilDiv_le_iff_le_mul pos, Nat.mul_sub]
      omega
    omega
  · rw [first, ceilDiv_le_iff_le_mul pos, Nat.succ_mul, Nat.mul_add]
    omega

/-- So a share is the one or the other. -/
theorem size_eq (k : Nat) :
    first m n (k + 1) - first m n k = n / m ∨ first m n (k + 1) - first m n k = n ⌈/⌉ m := by
  obtain ⟨low, high⟩ := size_bounds (n := n) pos k
  have close : n ⌈/⌉ m ≤ n / m + 1 := by
    rw [ceilDiv_le_iff_le_mul pos]
    exact (Nat.lt_mul_div_succ n pos).le
  omega

theorem first_lt (k : Nat) (enough : m ≤ n) : first m n k < first m n (k + 1) := by
  have low := (size_bounds (n := n) pos k).1
  have one : 1 ≤ n / m := (Nat.one_le_div_iff pos).mpr enough
  omega

end

end CofferLed.Library.Shares
