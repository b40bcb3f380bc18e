import CofferLed.Library.Shares
import CofferLed.Sketch.BootEffect
import CofferLed.Sketch.ColorLaws

/-! The boot display: every node has a fair stretch of the strip to itself.

Dealing `N` LEDs out to 16 nodes is what the integer `map` does (`mapLong_val`), so the
stretches are the shares of `CofferLed.Library.Shares`. On its stretch a node shows its
status: it fades from dark to red up to one half, and turns from red to green after it,
where the two meet. -/
namespace CofferLed.Effects
open Library CofferLed.Core Sketch

/-- The nearest whole number, halves up. -/
def nearest (x : ℚ) : ℤ := ⌊x + 1 / 2⌋

/-- A colour without blue. -/
structure Painted (c : Color) (red green : ℤ) : Prop where
  red : (c.red.toNat : ℤ) = red
  green : (c.green.toNat : ℤ) = green
  blue : c.blue = 0

/-! ### The colour of a node -/

theorem painted_interpolate {a b : Color} {red green red' green' : ℤ} (ha : Painted a red green)
    (hb : Painted b red' green') {w : ℚ} (nonneg : 0 ≤ w) (le : w ≤ 1) :
    Painted (a.interpolate b w).val (nearest (red + w * red' - w * red))
      (nearest (green + w * green' - w * green)) := by
  obtain ⟨rfl, rfl, a_blue⟩ := ha
  obtain ⟨rfl, rfl, b_blue⟩ := hb
  have weight : Color.limited w = w := by
    rw [Color.limited, min_eq_left le, max_eq_right nonneg]
  have byte (k : Nat) (hk : k < 4) := Color.interpolate_byte a b w k hk
  rw [weight] at byte
  refine ⟨byte 2 (by decide), byte 1 (by decide), BitVec.eq_of_toNat_eq ?_⟩
  exact Color.interpolate_byte_zero a b w 0 (by decide) (congrArg BitVec.toNat a_blue)
    (congrArg BitVec.toNat b_blue)

theorem painted_unbooted : Painted unbootedColor 0 0 := ⟨rfl, rfl, rfl⟩
theorem painted_booting : Painted bootingColor 255 0 := ⟨rfl, rfl, rfl⟩
theorem painted_booted : Painted bootedColor 0 255 := ⟨rfl, rfl, rfl⟩

/-- From one half on. -/
theorem bootColor_turns {b : ℚ} (half : 1 / 2 ≤ b) (le : b ≤ 1) :
    Painted (bootColor b).val (nearest (510 * (1 - b))) (nearest (510 * (b - 1 / 2))) := by
  have mixed := painted_interpolate painted_booting painted_booted
    (w := 2 * (b - 1 / 2)) (by linarith) (by linarith)
  have on : b ≠ 0 := by
    rintro rfl
    norm_num at half
  rw [bootColor, if_neg on, if_neg (not_lt.mpr half)]
  convert mixed using 2
  · push_cast
    ring
  · push_cast
    ring

/-- Up to one half, where it is as red as from there on. -/
theorem bootColor_fades {b : ℚ} (nonneg : 0 ≤ b) (half : b ≤ 1 / 2) :
    Painted (bootColor b).val (nearest (510 * b)) 0 := by
  rcases half.lt_or_eq with fading | rfl
  · have mixed := painted_interpolate painted_unbooted painted_booting
      (w := b * 2) (by linarith) (by linarith)
    have value : (bootColor b).val = (unbootedColor.interpolate bootingColor (b * 2)).val := by
      rw [bootColor]
      split
      case isTrue off => rw [off, zero_mul, Color.interpolate_of_nonpos _ _ (le_refl 0)]; rfl
      case isFalse => rfl
    rw [value]
    convert mixed using 1
    · congr 1
      push_cast
      ring
    · norm_num [nearest]
  · convert bootColor_turns (le_refl (1 / 2 : ℚ)) (by norm_num) using 2
    · norm_num
    · norm_num [nearest]

/-- Dimmed to a fifth on the strip. -/
theorem painted_dimmed {c : Color} {red green : ℤ} (h : Painted c red green) :
    Painted ((c.kept).mulAssign (1 / 5)).val.kept (nearest (red / 5)) (nearest (green / 5)) := by
  obtain ⟨rfl, rfl, blue⟩ := h
  have byte (k : Nat) (hk : k < 3) :
      ((((c.kept).mulAssign (1 / 5)).val.kept.byte k).toNat : ℤ) =
        nearest (((c.byte k).toNat : ℤ) / 5) := by
    rw [Strip.kept_byte _ k hk, Color.mulAssign_byte _ _ k (Nat.lt_succ_of_lt hk),
      Strip.kept_byte _ k hk, Color.scaleByte_val _ (by norm_num) (by norm_num), nearest]
    congr 2
    push_cast
    ring
  refine ⟨byte 2 (by decide), byte 1 (by decide), BitVec.eq_of_toNat_eq ?_⟩
  have none : c.byte 0 = 0 := blue
  rw [← Int.ofNat_inj]
  have zero : (0 : BitVec 8).toNat = 0 := rfl
  refine (byte 0 (by decide)).trans ?_
  rw [none, zero]
  norm_num [nearest]

/-! ### The strip -/

variable {N : Nat}

/-- **The boot display.** LED `i` shows the status of node `16 * i / N`, dimmed. The LEDs of
a node are a stretch of the strip, the stretches follow each other in the order of the
nodes from one end of the strip to the other, none is empty, and their lengths are `N / 16`
rounded down or up. The status of a node is seen nowhere else. -/
theorem boot_blocks (enough : 16 ≤ N) (small : N ≤ 21845) (boot : Vector ℚ 16)
    (range : ∀ k : Fin 16, 0 ≤ boot.get k ∧ boot.get k ≤ 1) (pixels : PixelBuffer)
    (strip : Strip N) :
    (bootFrame boot pixels strip).Safe ∧
      (∀ (i : Nat) (h : i < N),
        let b := boot.get ⟨16 * i / N, node_lt i h⟩
        let shown := (bootFrame boot pixels strip).val.2.2.pixel i
        (b ≤ 1 / 2 → Painted shown (nearest (nearest (510 * b) / 5)) 0) ∧
          (1 / 2 ≤ b → Painted shown (nearest (nearest (510 * (1 - b)) / 5))
            (nearest (nearest (510 * (b - 1 / 2)) / 5)))) ∧
      (∃ start : Nat → Nat, start 0 = 0 ∧ start 16 = N ∧
        (∀ k, k < 16 → start k < start (k + 1) ∧
          (start (k + 1) - start k = N / 16 ∨ start (k + 1) - start k = (N + 15) / 16)) ∧
        ∀ i, i < N → ∀ k, k < 16 → (16 * i / N = k ↔ start k ≤ i ∧ i < start (k + 1))) ∧
      ∀ (k : Fin 16) (boot' : Vector ℚ 16), (∀ j, j ≠ k → boot'.get j = boot.get j) →
        ∀ i, i < N → 16 * i / N ≠ k →
          (bootFrame boot' pixels strip).val.2.2.pixel i =
            (bootFrame boot pixels strip).val.2.2.pixel i := by
  refine ⟨bootFrame_safe boot pixels strip small, ?_, ?_, ?_⟩
  · intro i h b shown
    obtain ⟨nonneg, le⟩ := range ⟨16 * i / N, node_lt i h⟩
    have pixel : shown = ((bootColor b).val.kept.mulAssign (1 / 5)).val.kept :=
      bootFrame_pixel boot pixels strip i h
    rw [pixel]
    refine ⟨fun half => ?_, fun half => painted_dimmed (bootColor_turns half le)⟩
    convert painted_dimmed (bootColor_fades nonneg half) using 1
    norm_num [nearest]
  · have pos : 0 < 16 := by decide
    exact ⟨Shares.first 16 N, Shares.first_zero, Shares.first_all pos,
      fun k _ => ⟨Shares.first_lt pos k enough, Shares.size_eq pos k⟩,
      fun i h k _ => Shares.owner_eq_iff pos (Nat.zero_lt_of_lt h)⟩
  · intro k boot' same i h other
    have status := same ⟨16 * i / N, node_lt i h⟩ fun he => other (congrArg Fin.val he)
    rw [bootFrame_pixel boot' pixels strip i h, bootFrame_pixel boot pixels strip i h, status]

/-- The coffer's strip, with all nodes half-way. -/
theorem boot_blocks_coffer :
    Painted ((bootFrame (Vector.replicate 16 (1 / 2)) PixelBuffer.reset (Strip.create 98)).val.2.2.pixel
      97) 51 0 := by
  have range (k : Fin 16) : 0 ≤ (Vector.replicate 16 (1 / 2 : ℚ)).get k ∧
      (Vector.replicate 16 (1 / 2 : ℚ)).get k ≤ 1 := by
    norm_num [Vector.get]
  have shown := (boot_blocks (by decide) (by decide) _ range PixelBuffer.reset
    (Strip.create 98)).2.1 97 (by decide)
  convert shown.1 (by norm_num [Vector.get]) using 1
  norm_num [Vector.get, nearest]

end CofferLed.Effects
