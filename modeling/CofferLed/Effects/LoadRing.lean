import CofferLed.Library.Polyline
import CofferLed.Sketch.ColorLaws
import CofferLed.Sketch.LoadEffect
import CofferLed.Sketch.Resample

/-! The load display along the ring.

Every pixel of the ring is the middle of two segments' colours, where the two are the same
segment everywhere but at an edge (`ringColor_meeting`). `setup` turns the ring by 4 pixels,
and from there on the strip shows the line through the pixels (`loadShown_byte`). -/
namespace CofferLed.Effects
open Library CofferLed.Core Sketch

/-- The two segments that meet at a pixel of the ring. -/
def meeting (j : Nat) : Nat × Nat :=
  let s := j / numSubsegments
  if j % numSubsegments = 0 then (prevSegment s, s)
  else if j % numSubsegments = numSubsegments - 1 then (s, nextSegment s)
  else (s, s)

theorem ringColor_meeting (aggregateLoad : Vector (BitVec 8) 4) (j : Nat) (h : j < resolution) :
    (ringColor aggregateLoad j).val =
      ((segmentColor aggregateLoad (meeting j).1).interpolate
        (segmentColor aggregateLoad (meeting j).2) (1 / 2)).val := by
  rw [ringColor_val aggregateLoad j h, meeting]
  split
  · rfl
  · split
    · rfl
    · rw [Color.interpolate_self]

/-- The colour of the mean load of segment `s`. -/
def loadColor (load : Vector (BitVec 8) 16) (s : Nat) : Color :=
  segmentColor (calcAggregateLoad load).val s

theorem loadColor_congr {load load' : Vector (BitVec 8) 16} (s : Nat) (h : s < numSegments)
    (same : ∀ n ∈ segmentNodes s, load'.get n = load.get n) :
    loadColor load' s = loadColor load s := by
  have h : s < 4 := h
  have sum : total load' (segmentNodes s) = total load (segmentNodes s) :=
    congrArg List.sum (List.map_congr_left fun n hn => congrArg BitVec.toNat (same n hn))
  have mean : (calcAggregateLoad load').val[s] = (calcAggregateLoad load).val[s] := by
    apply BitVec.eq_of_toNat_eq
    rw [calcAggregateLoad_val load' s h, calcAggregateLoad_val load s h, sum]
  rw [loadColor, loadColor, segmentColor, segmentColor, Vector.getElem?_eq_getElem h,
    Vector.getElem?_eq_getElem h, mean]

/-- The pixel that is `m` places after the first one shown. -/
def onRing (m : ℤ) : Nat := (m.toNat + 4) % resolution

theorem onRing_lt (m : ℤ) : onRing m < resolution := Nat.mod_lt _ (by decide)

/-- A channel along the ring. -/
def ringByte (load : Vector (BitVec 8) 16) (k : Nat) (m : ℤ) : ℚ :=
  ((ringColor (calcAggregateLoad load).val (onRing m)).val.byte k).toNat

theorem ringByte_eq (load : Vector (BitVec 8) 16) (k : Nat) (hk : k < 4) (m : ℤ) :
    ringByte load k m =
      ((((loadColor load (meeting (onRing m)).1).byte k).toNat +
        ((loadColor load (meeting (onRing m)).2).byte k).toNat + 1) / 2 : ℕ) := by
  rw [ringByte, ringColor_meeting _ _ (onRing_lt m), Color.interpolate_half_byte _ _ k hk]
  rfl

/-! ### The strip -/

variable {N : Nat}

/-- What LED `i` shows after `updateLoadEffect` and `interpolatePixels`. -/
def loadShown (load : Vector (BitVec 8) 16) (pixels : PixelBuffer) (strip : Strip N) (i : Nat) :
    Color :=
  (interpolatePixels (updateLoadEffect load pixels).val strip).val.pixel i

theorem loadShown_byte (two : 2 ≤ N) {pixels : PixelBuffer} (offset : pixels.shiftOffset = 4)
    (load : Vector (BitVec 8) 16) (strip : Strip N) (i : Nat) (h : i < N) (k : Nat) (hk : k < 3) :
    (((loadShown load pixels strip i).byte k).toNat : ℤ) =
      ⌊polyline (ringByte load k) (position N i)⌋ := by
  have cell (m : ℤ) : (updateLoadEffect load pixels).val.pixel
      ((updateLoadEffect load pixels).val.shifted m.toNat) =
        (ringColor (calcAggregateLoad load).val (onRing m)).val := by
    rw [PixelBuffer.shifted, updateLoadEffect_offset, offset]
    exact updateLoadEffect_pixel load pixels (onRing m) (onRing_lt m)
  rw [loadShown, interpolatePixels_pixel _ strip i h, Strip.kept_byte _ k hk,
    sampleAt_byte (position_nonneg two i) _ k hk, cell, cell]
  rfl

/-- Only the 24 bits of the colour are stored, and no colour of the display has more. -/
theorem loadShown_top (load : Vector (BitVec 8) 16) (pixels : PixelBuffer) (strip : Strip N)
    (i : Nat) (h : i < N) : (loadShown load pixels strip i).byte 3 = 0 := by
  rw [loadShown, interpolatePixels_pixel _ strip i h]
  exact (Color.byte_ofBytes _ _ _ 0).2.2.2

theorem loadColor_top (load : Vector (BitVec 8) 16) (s : Nat) : (loadColor load s).byte 3 = 0 := by
  apply BitVec.eq_of_toNat_eq
  exact Color.interpolate_byte_zero coldColor hotColor _ 3 (by decide) (by decide) (by decide)

/-- So an LED shows a colour if its three channels are that colour's. -/
theorem loadShown_eq {load : Vector (BitVec 8) 16} {pixels : PixelBuffer} {strip : Strip N}
    {i : Nat} (h : i < N) {c : Color} (top : c.byte 3 = 0)
    (channels : ∀ k, k < 3 → ((loadShown load pixels strip i).byte k).toNat = (c.byte k).toNat) :
    loadShown load pixels strip i = c := by
  apply Color.ext_bytes
  intro k hk
  rcases (Nat.le_of_lt_succ hk).lt_or_eq with channel | rfl
  · exact BitVec.eq_of_toNat_eq (channels k channel)
  · rw [loadShown_top load pixels strip i h, top]

end CofferLed.Effects
