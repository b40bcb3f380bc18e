import Mathlib.Algebra.Group.Nat.Defs
import Mathlib.Data.List.Chain

/-! A clock that wraps.

A counter of `w` bits shows the true time modulo `2 ^ w`. The difference of two readings is
the time between them if that is less than a round (`elapsed`), and says nothing about it
otherwise. A program that watches a limit on the time since a moment therefore has to look
at the clock often enough: as long as the limit has not passed at one reading, the next one
is still good if it is at most a round less the limit later (`Ticking`, `in_round`). -/
namespace CofferLed.Library.Counter

def shown (w t : Nat) : BitVec w := BitVec.ofNat w t

theorem elapsed {w s t : Nat} (le : s ≤ t) (soon : t < s + 2 ^ w) :
    (shown w t - shown w s).toNat = t - s := by
  obtain ⟨d, rfl⟩ := Nat.exists_eq_add_of_le le
  have small : d < 2 ^ w := by omega
  have sum : shown w (s + d) = shown w s + BitVec.ofNat w d := BitVec.ofNat_add s d
  rw [sum, BitVec.add_comm, BitVec.add_sub_cancel, BitVec.toNat_ofNat, Nat.mod_eq_of_lt small,
    Nat.add_sub_cancel_left]

/-- True times in order, each at most `gap` after the one before. -/
def Ticking (gap : Nat) (ts : List Nat) : Prop := ts.IsChain fun s t => s ≤ t ∧ t ≤ s + gap

instance (gap : Nat) (ts : List Nat) : Decidable (Ticking gap ts) :=
  inferInstanceAs (Decidable (ts.IsChain _))

theorem Ticking.append {gap : Nat} {past later : List Nat} (h : Ticking gap (past ++ later)) :
    Ticking gap past ∧ Ticking gap later ∧
      ∀ s, past.getLast? = some s → ∀ t, later.head? = some t → s ≤ t ∧ t ≤ s + gap := by
  obtain ⟨before, after, join⟩ := List.isChain_append.mp h
  exact ⟨before, after, fun s hs t ht => join s hs t ht⟩

/-- The next reading after one within the limit is in the same round. -/
theorem in_round {w limit s c t : Nat} (within : c ≤ s + limit)
    (soon : t ≤ c + (2 ^ w - (limit + 1))) (round : limit < 2 ^ w) : t < s + 2 ^ w := by
  omega

end CofferLed.Library.Counter
