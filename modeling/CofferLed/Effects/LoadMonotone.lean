import CofferLed.Sketch.ColorLaws
import CofferLed.Sketch.Wave

/-! More load is never shown colder.

From the loads to the strip a colour goes through five stages, each with a rounding of its
own. `Warmer` compares two colours of the load display, and every stage keeps it: what a
stage does to a channel grows with the channel, and makes nothing out of nothing. -/
namespace CofferLed.Effects
open Library CofferLed.Core Sketch

/-- At least as much red, at most as much green, and no blue in either. -/
structure Warmer (c d : Color) : Prop where
  red : (c.byte 2).toNat ≤ (d.byte 2).toNat
  green : (d.byte 1).toNat ≤ (c.byte 1).toNat
  blue : (c.byte 0).toNat = 0 ∧ (d.byte 0).toNat = 0

namespace Warmer

/-- A mixture whose channels grow with those of its parts. -/
theorem mix (g : Nat → Nat → ℤ) (mono : ∀ {x x' y y'}, x ≤ x' → y ≤ y' → g x y ≤ g x' y')
    (zero : g 0 0 = 0) {c d c' d' e e' : Color}
    (left : ∀ k, k < 3 → ((e.byte k).toNat : ℤ) = g (c.byte k).toNat (d.byte k).toNat)
    (right : ∀ k, k < 3 → ((e'.byte k).toNat : ℤ) = g (c'.byte k).toNat (d'.byte k).toNat)
    (hc : Warmer c c') (hd : Warmer d d') : Warmer e e' := by
  have red := mono hc.red hd.red
  have green := mono hc.green hd.green
  have blue : ((e.byte 0).toNat : ℤ) = 0 ∧ ((e'.byte 0).toNat : ℤ) = 0 := by
    rw [left 0 (by decide), right 0 (by decide), hc.blue.1, hd.blue.1, hc.blue.2, hd.blue.2]
    exact ⟨zero, zero⟩
  rw [← left 2 (by decide), ← right 2 (by decide)] at red
  rw [← left 1 (by decide), ← right 1 (by decide)] at green
  exact ⟨by exact_mod_cast red, by exact_mod_cast green, by exact_mod_cast blue⟩

theorem interpolate {c d c' d' : Color} (hc : Warmer c c') (hd : Warmer d d') (p : ℚ) :
    Warmer (c.interpolate d p).val (c'.interpolate d' p).val := by
  refine ⟨?_, ?_, ?_⟩
  · exact Color.interpolate_byte_mono c d p 2 (by decide) c' d' hc.red hd.red
  · exact Color.interpolate_byte_mono c' d' p 1 (by decide) c d hc.green hd.green
  · exact ⟨Color.interpolate_byte_zero c d p 0 (by decide) hc.blue.1 hd.blue.1,
      Color.interpolate_byte_zero c' d' p 0 (by decide) hc.blue.2 hd.blue.2⟩

theorem mulAssign {c d : Color} (h : Warmer c d) {scalar : ℚ} (low : 0 ≤ scalar) (high : scalar ≤ 1) :
    Warmer (c.mulAssign scalar).val (d.mulAssign scalar).val := by
  refine mix (fun x _ => ⌊(x : ℚ) * scalar + 1 / 2⌋) ?_ ?_ (fun k hk => ?_) (fun k hk => ?_) h h
  · intro x x' _ _ hx _
    have hx : (x : ℚ) ≤ x' := by exact_mod_cast hx
    apply Int.floor_le_floor
    nlinarith
  · norm_num
  · rw [Color.mulAssign_byte c scalar k (by omega), Color.scaleByte_val _ low high]
  · rw [Color.mulAssign_byte d scalar k (by omega), Color.scaleByte_val _ low high]

theorem kept {c d : Color} (h : Warmer c d) : Warmer c.kept d.kept := by
  refine ⟨?_, ?_, ?_⟩
  · rw [Strip.kept_byte c 2 (by decide), Strip.kept_byte d 2 (by decide)]
    exact h.red
  · rw [Strip.kept_byte c 1 (by decide), Strip.kept_byte d 1 (by decide)]
    exact h.green
  · rw [Strip.kept_byte c 0 (by decide), Strip.kept_byte d 0 (by decide)]
    exact h.blue

end Warmer

/-! ### From the loads to the ring -/

theorem total_mono {a b : Vector (BitVec 8) 16} (le : ∀ n : Fin 16, a.get n ≤ b.get n)
    (nodes : List (Fin 16)) : total a nodes ≤ total b nodes := by
  induction nodes with
  | nil => exact Nat.le_refl 0
  | cons n rest ih =>
    have here : (a.get n).toNat ≤ (b.get n).toNat := le n
    simp only [total, List.map_cons, List.sum_cons] at ih ⊢
    omega

/-- A higher load has a warmer colour. -/
theorem mapLoadToColor_mono {x y : BitVec 8} (h : x.toNat ≤ y.toNat) :
    Warmer (mapLoadToColor x).val (mapLoadToColor y).val := by
  have h : (x.toNat : ℚ) ≤ y.toNat := by exact_mod_cast h
  have weight : (x.toNat : ℚ) / 100 ≤ y.toNat / 100 := by linarith
  have blue (z : BitVec 8) : ((mapLoadToColor z).val.byte 0).toNat = 0 :=
    Color.interpolate_byte_zero coldColor hotColor _ 0 (by decide) (by decide) (by decide)
  refine ⟨?_, ?_, ?_⟩
  · exact Color.interpolate_byte_rises coldColor hotColor _ 2 (by decide) weight (by decide)
  · exact Color.interpolate_byte_falls coldColor hotColor _ 1 (by decide) weight (by decide)
  · exact ⟨blue x, blue y⟩

section Loads
variable {a b : Vector (BitVec 8) 16} (le : ∀ n : Fin 16, a.get n ≤ b.get n)
include le

theorem segmentColor_mono (s : Nat) (h : s < numSegments) :
    Warmer (segmentColor (calcAggregateLoad a).val s) (segmentColor (calcAggregateLoad b).val s) := by
  have h : s < 4 := h
  apply mapLoadToColor_mono
  rw [Vector.getElem?_eq_getElem h, Vector.getElem?_eq_getElem h, Option.getD_some, Option.getD_some,
    calcAggregateLoad_val a s h, calcAggregateLoad_val b s h]
  exact Nat.div_le_div_right (total_mono le _)

/-- Inside a segment and at its edges. -/
theorem ringColor_mono (i : Nat) (h : i < resolution) :
    Warmer (ringColor (calcAggregateLoad a).val i).val (ringColor (calcAggregateLoad b).val i).val := by
  obtain ⟨_, lt⟩ := segment_index i h
  have here := segmentColor_mono le _ lt
  have prev := segmentColor_mono le _ (prevSegment_lt _ lt)
  have next := segmentColor_mono le _ (nextSegment_lt (i / numSubsegments))
  rw [ringColor_val _ i h, ringColor_val _ i h]
  split
  · exact prev.interpolate here _
  · split
    · exact here.interpolate next _
    · exact here

/-! ### From the ring to the strip -/

/-- A sample of the ring, whatever was in the two buffers before. -/
theorem sampleAt_mono {p q : PixelBuffer} (offset : p.shiftOffset = q.shiftOffset) {x : ℚ}
    (low : 0 ≤ x) :
    Warmer (sampleAt (updateLoadEffect a p).val x).val (sampleAt (updateLoadEffect b q).val x).val := by
  have same (i : Nat) :
      (updateLoadEffect b q).val.shifted i = (updateLoadEffect a p).val.shifted i := by
    rw [PixelBuffer.shifted, PixelBuffer.shifted, updateLoadEffect_offset, updateLoadEffect_offset,
      offset]
  have pixel (i : Nat) :
      Warmer ((updateLoadEffect a p).val.pixel ((updateLoadEffect a p).val.shifted i))
        ((updateLoadEffect b q).val.pixel ((updateLoadEffect b q).val.shifted i)) := by
    have lt := (updateLoadEffect a p).val.shifted_lt i
    rw [same, updateLoadEffect_pixel a p _ lt, updateLoadEffect_pixel b q _ lt]
    exact ringColor_mono le _ lt
  have w0 : 0 ≤ x - ⌊x⌋ := Int.fract_nonneg x
  have w1 : x - ⌊x⌋ ≤ 1 := (Int.fract_lt_one x).le
  refine Warmer.mix (fun cur next => ⌊(cur : ℚ) + ((next : ℚ) - cur) * (x - ⌊x⌋)⌋) ?_ ?_
    (fun k hk => sampleAt_byte low _ k hk) (fun k hk => sampleAt_byte low _ k hk)
    (pixel ⌊x⌋.toNat) (pixel ⌈x⌉.toNat)
  · intro cur cur' next next' hcur hnext
    have hcur : (cur : ℚ) ≤ cur' := by exact_mod_cast hcur
    have hnext : (next : ℚ) ≤ next' := by exact_mod_cast hnext
    apply Int.floor_le_floor
    nlinarith
  · norm_num

/-- **More load is never shown colder.** With the same wave position and the same shift of
the ring, a load that is nowhere less gives each LED at least as much red and at most as
much green; no LED has blue in it. -/
theorem load_monotone {N : Nat} (ten : 10 ≤ N) {pos : ℚ} (low : 0 ≤ pos) (high : pos ≤ N)
    {p q : PixelBuffer} (offset : p.shiftOffset = q.shiftOffset) (strip strip' : Strip N)
    (i : Nat) (h : i < N) :
    let shown := (loadFrame a pos p strip).val.2.pixel i
    let shown' := (loadFrame b pos q strip').val.2.pixel i
    shown.red ≤ shown'.red ∧ shown'.green ≤ shown.green ∧ shown.blue = 0 ∧ shown'.blue = 0 := by
  obtain ⟨dim, bright⟩ := factor_bounds low high i h
  have sample := (sampleAt_mono le offset (position_nonneg (by omega : 2 ≤ N) i)).kept
  have frame := (sample.mulAssign (by linarith) bright).kept
  rw [← loadFrame_pixel a pos p strip i h, ← loadFrame_pixel b pos q strip' i h] at frame
  exact ⟨frame.red, frame.green, BitVec.eq_of_toNat_eq frame.blue.1,
    BitVec.eq_of_toNat_eq frame.blue.2⟩

end Loads

/-- On the coffer's strip, all nodes at 10 and all at 200. -/
theorem load_monotone_coffer :
    ((loadFrame (Vector.replicate 16 10) 3 (PixelBuffer.reset.offset 4) (Strip.create 98)).val.2.pixel
        0).red ≤
      ((loadFrame (Vector.replicate 16 200) 3 (PixelBuffer.reset.offset 4)
        (Strip.create 98)).val.2.pixel 0).red := by
  have le (n : Fin 16) : (Vector.replicate 16 10 : Vector (BitVec 8) 16).get n ≤
      (Vector.replicate 16 200 : Vector (BitVec 8) 16).get n := by
    simp [Vector.get]
  exact (load_monotone le (by decide) (by norm_num) (by norm_num) rfl (Strip.create 98)
    (Strip.create 98) 0 (by decide)).1

end CofferLed.Effects
