import Mathlib.Tactic.Common

/-! The four bytes of a word, numbered from the lowest. -/
namespace CofferLed.Library

def byteOf (c : BitVec 32) (i : Nat) : BitVec 8 := c.extractLsb' (8 * i) 8

/-- The word with the given bytes, lowest first. -/
def wordOf (b₀ b₁ b₂ b₃ : BitVec 8) : BitVec 32 := b₃ ++ b₂ ++ b₁ ++ b₀

theorem byteOf_wordOf (b₀ b₁ b₂ b₃ : BitVec 8) :
    byteOf (wordOf b₀ b₁ b₂ b₃) 0 = b₀ ∧ byteOf (wordOf b₀ b₁ b₂ b₃) 1 = b₁ ∧
      byteOf (wordOf b₀ b₁ b₂ b₃) 2 = b₂ ∧ byteOf (wordOf b₀ b₁ b₂ b₃) 3 = b₃ := by
  refine ⟨?_, ?_, ?_, ?_⟩
  all_goals
    apply BitVec.eq_of_getLsbD_eq
    intro k hk
    simp (disch := omega) only [byteOf, wordOf, BitVec.getLsbD_extractLsb',
      BitVec.getLsbD_append, hk, decide_true, Bool.true_and, if_pos, if_neg]
    congr 1
    omega

/-- A word is its bytes. -/
theorem ext_byteOf {c d : BitVec 32} (h : ∀ i, i < 4 → byteOf c i = byteOf d i) : c = d := by
  apply BitVec.eq_of_getLsbD_eq
  intro k hk
  have here := congrArg (fun b : BitVec 8 => b.getLsbD (k % 8)) (h (k / 8) (by omega))
  simp only [byteOf, BitVec.getLsbD_extractLsb', Nat.div_add_mod] at here
  simpa [Nat.mod_lt] using here

theorem wordOf_byteOf (c : BitVec 32) :
    wordOf (byteOf c 0) (byteOf c 1) (byteOf c 2) (byteOf c 3) = c := by
  apply ext_byteOf
  intro i h
  obtain ⟨b0, b1, b2, b3⟩ := byteOf_wordOf (byteOf c 0) (byteOf c 1) (byteOf c 2) (byteOf c 3)
  match i with
  | 0 => exact b0
  | 1 => exact b1
  | 2 => exact b2
  | 3 => exact b3

theorem shifted_byteOf (c : BitVec 32) (k : Nat) : (c >>> (8 * k)).setWidth 8 = byteOf c k := by
  apply BitVec.eq_of_toNat_eq
  simp [byteOf]

/-- Shifted into one word, bytes are the word of those bytes. -/
theorem wordOf_shifted (b₀ b₁ b₂ b₃ : BitVec 8) :
    b₃.setWidth 32 <<< 24 ||| b₂.setWidth 32 <<< 16 ||| b₁.setWidth 32 <<< 8 ||| b₀.setWidth 32 =
      wordOf b₀ b₁ b₂ b₃ := by
  apply BitVec.eq_of_getLsbD_eq
  intro k hk
  simp only [wordOf, BitVec.getLsbD_or, BitVec.getLsbD_shiftLeft, BitVec.getLsbD_setWidth,
    BitVec.getLsbD_append]
  grind

theorem wordOf_shifted_three (b₀ b₁ b₂ : BitVec 8) :
    b₂.setWidth 32 <<< 16 ||| b₁.setWidth 32 <<< 8 ||| b₀.setWidth 32 = wordOf b₀ b₁ b₂ 0 := by
  rw [← wordOf_shifted]
  simp

end CofferLed.Library
