import CofferLed.Sketch.PixelBuffer
import CofferLed.Sketch.Strip

/-! `interpolatePixels`: the ring of pixels resampled to the length of the strip. The first
and the last LED lie on the two ends of the ring, the others at equal distances between. -/
namespace CofferLed.Sketch
open Library CofferLed.Core

/-- The position on the ring of LED `i`. -/
def pixelPos (N i : Nat) : Exec ℚ := mapFloat i 0 ((N : ℚ) - 1) 0 ((resolution : ℚ) - 1)

/-- A channel on the line between two neighbouring pixels. -/
def blend (cur next : BitVec 8) (weight : ℚ) : Exec (BitVec 8) :=
  floatToUint8 (cur.toNat + ((next.toNat : ℚ) - cur.toNat) * weight)

/-- The colour of the ring at a position: of the pixel there, or between its
neighbours. The top byte of the latter is that of a fresh `Color`. -/
def sampleAt (pixels : PixelBuffer) (pixelPos : ℚ) : Exec Color := do
  let curPixelIdx ← floatToUint16 ⌊pixelPos⌋
  let nextPixelIdx ← floatToUint16 ⌈pixelPos⌉
  let curPixel ← pixels.subscript curPixelIdx
  if (curPixelIdx : ℚ) = pixelPos then pure curPixel
  else
    let weight := pixelPos - curPixelIdx
    let nextPixel ← pixels.subscript nextPixelIdx
    let r ← blend (curPixel.byte 0) (nextPixel.byte 0) weight
    let g ← blend (curPixel.byte 1) (nextPixel.byte 1) weight
    let b ← blend (curPixel.byte 2) (nextPixel.byte 2) weight
    pure (Color.ofBytes r g b 0)

def interpolatePixels {N : Nat} (pixels : PixelBuffer) (strip : Strip N) : Exec (Strip N) :=
  Checked.forRange strip.numPixels
    (fun i strip => do
      let pos ← pixelPos strip.numPixels i
      let color ← sampleAt pixels pos
      strip.setPixelColor i color.val)
    strip

/-! ### Positions -/

/-- The position of LED `i`, for what the code computes (`pixelPos_val`). -/
def position (N i : Nat) : ℚ := 35 * i / (N - 1)

theorem pixelPos_val (N i : Nat) : (pixelPos N i).val = position N i := by
  have range : (resolution : ℚ) = 36 := by norm_num [resolution, numSegments, numSubsegments]
  show ((i : ℚ) - 0) * ((resolution : ℚ) - 1 - 0) / ((N : ℚ) - 1 - 0) + 0 = _
  rw [position, range]
  ring

theorem pixelPos_safe {N : Nat} (two : 2 ≤ N) (i : Nat) : (pixelPos N i).Safe := by
  have : (2 : ℚ) ≤ N := by exact_mod_cast two
  rw [pixelPos, mapFloat, Checked.safe_bind, divide_safe]
  exact ⟨by linarith, Checked.safe_pure _⟩

theorem position_nonneg {N : Nat} (two : 2 ≤ N) (i : Nat) : 0 ≤ position N i := by
  have : (2 : ℚ) ≤ N := by exact_mod_cast two
  exact div_nonneg (by positivity) (by linarith)

theorem position_le {N : Nat} (two : 2 ≤ N) (i : Nat) (h : i < N) : position N i ≤ 35 := by
  have : (2 : ℚ) ≤ N := by exact_mod_cast two
  have hi : (i : ℚ) + 1 ≤ N := by exact_mod_cast h
  rw [position, div_le_iff₀ (by linarith)]
  linarith

/-! ### Between two pixels -/

/-- The line between two bytes. -/
def line (cur next : BitVec 8) (w : ℚ) : ℚ := cur.toNat + ((next.toNat : ℚ) - cur.toNat) * w

theorem line_eq_between (cur next : BitVec 8) (w : ℚ) : line cur next w = Color.between cur next w := by
  rw [line, Color.between]
  ring

theorem line_bounds (cur next : BitVec 8) {w : ℚ} (nonneg : 0 ≤ w) (le : w ≤ 1) :
    0 ≤ line cur next w ∧ line cur next w ≤ 255 := by
  rw [line_eq_between]
  exact Color.between_bounds cur next nonneg le

theorem blend_val (cur next : BitVec 8) {w : ℚ} (nonneg : 0 ≤ w) (le : w ≤ 1) :
    ((blend cur next w).val.toNat : ℤ) = ⌊line cur next w⌋ := by
  obtain ⟨low, high⟩ := line_bounds cur next nonneg le
  obtain ⟨floor_low, floor_high⟩ := floor_byte low (by linarith)
  have value : (blend cur next w).val = BitVec.ofInt 8 ⌊line cur next w⌋ := by
    rw [← trunc_of_nonneg low]
    rfl
  rw [value, ofInt_toNat floor_low floor_high]

theorem blend_safe (cur next : BitVec 8) {w : ℚ} (nonneg : 0 ≤ w) (le : w ≤ 1) :
    (blend cur next w).Safe :=
  (floatToUint8_safe _).mpr (line_bounds cur next nonneg le)

/-! ### A sample -/

section Sample
variable {p : ℚ} (low : 0 ≤ p)
include low

private theorem floor_index : (trunc (⌊p⌋ : ℚ)).toNat = ⌊p⌋.toNat := by
  have : (0 : ℤ) ≤ ⌊p⌋ := Int.floor_nonneg.mpr low
  rw [trunc_of_nonneg (by exact_mod_cast this), Int.floor_intCast]

private theorem ceil_index : (trunc (⌈p⌉ : ℚ)).toNat = ⌈p⌉.toNat := by
  have : (0 : ℤ) ≤ ⌈p⌉ := Int.ceil_nonneg low
  rw [trunc_of_nonneg (by exact_mod_cast this), Int.floor_intCast]

private theorem floor_cast : ((⌊p⌋.toNat : Nat) : ℚ) = ⌊p⌋ := by
  have : (0 : ℤ) ≤ ⌊p⌋ := Int.floor_nonneg.mpr low
  exact_mod_cast congrArg (Int.cast : ℤ → ℚ) (Int.toNat_of_nonneg this)

private theorem weight_bounds : 0 ≤ p - ⌊p⌋.toNat ∧ p - ⌊p⌋.toNat ≤ 1 := by
  rw [floor_cast low]
  exact ⟨Int.fract_nonneg p, (Int.fract_lt_one p).le⟩

/-- The colour bytes of a sample, fractions cut off. At a pixel itself the line has the
weight 0 and gives the pixel's byte. -/
theorem sampleAt_byte (pixels : PixelBuffer) (k : Nat) (h : k < 3) :
    (((sampleAt pixels p).val.byte k).toNat : ℤ) =
      ⌊line ((pixels.pixel (pixels.shifted ⌊p⌋.toNat)).byte k)
        ((pixels.pixel (pixels.shifted ⌈p⌉.toNat)).byte k) (p - ⌊p⌋)⌋ := by
  obtain ⟨w0, w1⟩ := weight_bounds low
  simp only [sampleAt, Checked.val_bind, Checked.val_ite, Checked.val_pure, floatToUint16_val,
    floor_index low, ceil_index low, PixelBuffer.subscript_val]
  split
  case isTrue here =>
    rw [floor_cast low] at here
    rw [line, here, sub_self, mul_zero, add_zero, Int.floor_natCast]
  case isFalse =>
    rw [← floor_cast low]
    obtain ⟨r, g, b, _⟩ := Color.byte_ofBytes
      (blend ((pixels.pixel (pixels.shifted ⌊p⌋.toNat)).byte 0)
        ((pixels.pixel (pixels.shifted ⌈p⌉.toNat)).byte 0) (p - ⌊p⌋.toNat)).val
      (blend ((pixels.pixel (pixels.shifted ⌊p⌋.toNat)).byte 1)
        ((pixels.pixel (pixels.shifted ⌈p⌉.toNat)).byte 1) (p - ⌊p⌋.toNat)).val
      (blend ((pixels.pixel (pixels.shifted ⌊p⌋.toNat)).byte 2)
        ((pixels.pixel (pixels.shifted ⌈p⌉.toNat)).byte 2) (p - ⌊p⌋.toNat)).val 0
    match k with
    | 0 => rw [r, blend_val _ _ w0 w1]
    | 1 => rw [g, blend_val _ _ w0 w1]
    | 2 => rw [b, blend_val _ _ w0 w1]

/-- The two neighbours of a position are pixels of the ring. -/
theorem neighbours_bounds (high : p ≤ 35) :
    (0 ≤ ⌊p⌋ ∧ ⌊p⌋ < resolution) ∧ (0 ≤ ⌈p⌉ ∧ ⌈p⌉ < resolution) := by
  have down : ⌊p⌋ < 36 := by
    rw [Int.floor_lt]
    push_cast
    linarith
  have up : ⌈p⌉ ≤ 35 := Int.ceil_le.mpr (by exact_mod_cast high)
  exact ⟨⟨Int.floor_nonneg.mpr low, down⟩, Int.ceil_nonneg low, Int.lt_add_one_of_le up⟩

theorem sampleAt_safe (high : p ≤ 35) (pixels : PixelBuffer) : (sampleAt pixels p).Safe := by
  obtain ⟨w0, w1⟩ := weight_bounds low
  have down : (0 : ℚ) ≤ ⌊p⌋ := by exact_mod_cast Int.floor_nonneg.mpr low
  have up : (0 : ℚ) ≤ ⌈p⌉ := by exact_mod_cast Int.ceil_nonneg low
  have down_le : (⌊p⌋ : ℚ) ≤ 65535 := by linarith [Int.floor_le p]
  have up_le : (⌈p⌉ : ℚ) ≤ 65535 := by linarith [Int.ceil_lt_add_one p]
  simp only [sampleAt, Checked.safe_bind, floatToUint16_safe, floatToUint16_val,
    PixelBuffer.subscript_safe, floor_index low, down, down_le, up, up_le, true_and]
  split
  · exact Checked.safe_pure _
  · simp only [Checked.safe_bind, Checked.safe_pure, PixelBuffer.subscript_safe, blend_safe _ _ w0 w1,
      true_and]

end Sample

/-! ### The strip -/

variable {N : Nat}

theorem interpolatePixels_pixel (pixels : PixelBuffer) (strip : Strip N) (j : Nat) (h : j < N) :
    (interpolatePixels pixels strip).val.pixel j = (sampleAt pixels (position N j)).val.kept := by
  refine Strip.pixel_forRange (fun i _ => (sampleAt pixels (position N i)).val) _ ?_ strip j h
  intro i _ s
  simp only [Checked.val_bind, pixelPos_val]

theorem interpolatePixels_safe (pixels : PixelBuffer) (strip : Strip N) (two : 2 ≤ N)
    (small : N ≤ 21845) : (interpolatePixels pixels strip).Safe := by
  apply Checked.forRange_safe_of_rounds
  intro i hi s
  have hi : i < N := hi
  simp only [Checked.safe_bind, pixelPos_val]
  exact ⟨pixelPos_safe two i, sampleAt_safe (position_nonneg two i) (position_le two i hi) pixels,
    Strip.setPixelColor_safe _ _ _ (by omega)⟩

end CofferLed.Sketch
