import CofferLed.Effects.LoadLocality
import Mathlib.Data.Finset.Lattice.Fold
import Mathlib.Order.Lattice.Nat

/-! The load display has no jumps.

From one pixel of the ring to the next a channel changes by half the contrast of two
neighbouring segments at most: where two segments meet there are two pixels, one drawn from
either side, and both are the same middle (`meeting_next`). The line through the pixels is
as steep as its steps, and the strip begins and ends inside one segment. -/
namespace CofferLed.Effects
open Library CofferLed.Core Sketch

/-- The difference of a channel across the boundary after segment `s`. -/
def boundary (load : Vector (BitVec 8) 16) (k s : Nat) : Nat :=
  ((((loadColor load s).byte k).toNat : ℤ) - ((loadColor load (nextSegment s)).byte k).toNat).natAbs

/-- The largest difference of a channel between neighbouring segments. -/
def contrast (load : Vector (BitVec 8) 16) (k : Nat) : Nat :=
  (Finset.range numSegments).sup (boundary load k)

theorem boundary_le (load : Vector (BitVec 8) 16) (k s : Nat) (h : s < numSegments) :
    boundary load k s ≤ contrast load k :=
  Finset.le_sup (Finset.mem_range.mpr h)

/-! ### Along the ring -/

/-- From a pixel to the next: within a segment, or onto its edge, or off it. The edge of
the next segment is no step at all. -/
theorem meeting_next : ∀ j < resolution,
    meeting ((j + 1) % resolution) = meeting j ∨ ∃ s < numSegments,
      (meeting j = (s, s) ∧ meeting ((j + 1) % resolution) = (s, nextSegment s)) ∨
        (meeting j = (s, nextSegment s) ∧
          meeting ((j + 1) % resolution) = (nextSegment s, nextSegment s)) := by
  decide

theorem onRing_next (m : ℤ) :
    onRing (m + 1) = onRing m ∨ onRing (m + 1) = (onRing m + 1) % resolution := by
  simp only [onRing, resolution, numSegments, numSubsegments]
  omega

/-- The middle of two values is near either one. -/
private theorem middle_close {x y D : Nat} (close : ((x : ℤ) - y).natAbs ≤ D) {z : Nat}
    (hz : z = x ∨ z = y) :
    |(((x + y + 1) / 2 : ℕ) : ℚ) - ((z + z + 1) / 2 : ℕ)| ≤ ((D : ℚ) + 1) / 2 := by
  have above : 2 * ((x + y + 1) / 2) ≤ 2 * ((z + z + 1) / 2) + (D + 1) := by omega
  have below : 2 * ((z + z + 1) / 2) ≤ 2 * ((x + y + 1) / 2) + (D + 1) := by omega
  generalize (x + y + 1) / 2 = a at *
  generalize (z + z + 1) / 2 = b at *
  have above : (2 * a : ℚ) ≤ 2 * b + (D + 1) := by exact_mod_cast above
  have below : (2 * b : ℚ) ≤ 2 * a + (D + 1) := by exact_mod_cast below
  exact abs_le.mpr ⟨by linarith, by linarith⟩

theorem ringByte_step (load : Vector (BitVec 8) 16) (k : Nat) (hk : k < 4) (m : ℤ) :
    |ringByte load k (m + 1) - ringByte load k m| ≤ ((contrast load k : ℚ) + 1) / 2 := by
  have still : (0 : ℚ) ≤ ((contrast load k : ℚ) + 1) / 2 := by positivity
  rw [ringByte_eq load k hk (m + 1), ringByte_eq load k hk m]
  rcases onRing_next m with stay | step
  · rw [stay, sub_self, abs_zero]
    exact still
  · rw [step]
    rcases meeting_next (onRing m) (onRing_lt m) with same | ⟨s, hs, ⟨here, next⟩ | ⟨here, next⟩⟩
    · rw [same, sub_self, abs_zero]
      exact still
    · have close := boundary_le load k s hs
      simp only [here, next]
      exact middle_close close (Or.inl rfl)
    · have close := boundary_le load k s hs
      simp only [here, next]
      rw [abs_sub_comm]
      exact middle_close close (Or.inr rfl)

/-! ### Along the strip -/

theorem position_next {N : Nat} (i : Nat) : position N (i + 1) = position N i + 35 / (N - 1) := by
  rw [position, position]
  push_cast
  ring

/-- An LED right at a pixel inside segment 0. -/
theorem loadShown_end {N : Nat} (two : 2 ≤ N) {pixels : PixelBuffer}
    (offset : pixels.shiftOffset = 4) (load : Vector (BitVec 8) 16) (strip : Strip N)
    (i : Nat) (h : i < N) (m : ℤ) (here : position N i = m)
    (inside : ∀ t ∈ touches (onRing m), t = 0) :
    loadShown load pixels strip i = loadColor load 0 := by
  refine loadShown_alone two offset load strip i h 0 fun t ht => inside t ?_
  rw [touchedBy, here, Int.floor_intCast, Int.ceil_intCast, List.mem_append, or_self] at ht
  exact ht

/-- **The load display has no jumps.** On a strip of `N` LEDs neighbouring ones differ on a
channel by less than `1 + (D + 1) / 2 * 35 / (N - 1)`, where `D` is the largest difference
of that channel between neighbouring segments. The two ends of the strip, which meet on the
coffer, have the same colour. -/
theorem load_smooth {N : Nat} (two : 2 ≤ N) {pixels : PixelBuffer}
    (offset : pixels.shiftOffset = 4) (load : Vector (BitVec 8) 16) (strip : Strip N) :
    (∀ (k : Nat), k < 3 → ∀ (i : Nat), i + 1 < N →
      |(((loadShown load pixels strip (i + 1)).byte k).toNat : ℚ) -
          ((loadShown load pixels strip i).byte k).toNat| <
        1 + ((contrast load k : ℚ) + 1) / 2 * 35 / (N - 1)) ∧
      loadShown load pixels strip (N - 1) = loadShown load pixels strip 0 := by
  refine ⟨?_, ?_⟩
  · intro k hk i h
    have enough : (2 : ℚ) ≤ N := by exact_mod_cast two
    have apart : (0 : ℚ) ≤ 35 / (N - 1) := div_nonneg (by norm_num) (by linarith)
    have steep := floor_steep (ringByte_step load k (by omega))
      (show position N i ≤ position N (i + 1) by rw [position_next]; linarith)
    rw [← loadShown_byte two offset load strip i (by omega) k hk,
      ← loadShown_byte two offset load strip (i + 1) h k hk, position_next, add_sub_cancel_left,
      ← mul_div_assoc] at steep
    exact_mod_cast steep
  · have start : position N 0 = (0 : ℤ) := by
      norm_num [position]
    have stop : position N (N - 1) = (35 : ℤ) := by
      have apart : (N : ℚ) - 1 ≠ 0 := by
        have : (2 : ℚ) ≤ N := by exact_mod_cast two
        linarith
      rw [position, Nat.cast_sub (by omega : 1 ≤ N)]
      push_cast
      exact mul_div_cancel_right₀ 35 apart
    rw [loadShown_end two offset load strip 0 (by omega) 0 start (by decide),
      loadShown_end two offset load strip (N - 1) (by omega) 35 stop (by decide)]

/-- On the coffer's strip, where only one node is busy. -/
theorem load_smooth_coffer :
    let load : Vector (BitVec 8) 16 := (Vector.replicate 16 0).set 8 200
    let shown := loadShown load (PixelBuffer.reset.offset 4) (Strip.create 98)
    |(((shown 43).byte 2).toNat : ℚ) - ((shown 42).byte 2).toNat| <
        1 + ((contrast load 2 : ℚ) + 1) / 2 * 35 / ((98 : ℕ) - 1) ∧
      shown 97 = shown 0 := by
  intro load shown
  have offset : (PixelBuffer.reset.offset 4).shiftOffset = 4 := rfl
  obtain ⟨steps, ends⟩ := load_smooth (by decide) offset load (Strip.create 98)
  exact ⟨steps 2 (by decide) 42 (by decide), ends⟩

end CofferLed.Effects
