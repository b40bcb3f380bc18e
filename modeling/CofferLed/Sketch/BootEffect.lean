import CofferLed.Sketch.PixelBuffer
import CofferLed.Sketch.Strip

/-! The boot effect: a colour per node, drawn into the first 16 pixels of the buffer,
spread over the strip and dimmed. -/
namespace CofferLed.Sketch
open Library CofferLed.Core

def unbootedColor : Color := ⟨0x000000⟩
def bootingColor : Color := ⟨0xFF0000⟩
def bootedColor : Color := ⟨0x00FF00⟩

/-- The colour of a node at status `b`. -/
def bootColor (b : ℚ) : Exec Color :=
  if b = 0 then pure unbootedColor
  else if b < 1 / 2 then unbootedColor.interpolate bootingColor (b * 2)
  else bootingColor.interpolate bootedColor (2 * (b - 1 / 2))

/-- An animation under way is one hundredth further in the next frame. -/
def advanceBoot (boot : Vector ℚ 16) (i : Nat) (b : ℚ) : Exec (Vector ℚ 16) :=
  if 0 < b ∧ b < 1 then Checked.writeAt .index boot i (b + 1 / 100) else pure boot

/-- One frame of the animations: the colours of the nodes into the buffer, and the
animations on their way. -/
def updateBootEffect (boot : Vector ℚ 16) (pixels : PixelBuffer) :
    Exec (Vector ℚ 16 × PixelBuffer) :=
  Checked.forRange 16
    (fun i s => do
      let b ← Checked.readAt .index s.1 i
      let color ← bootColor b
      let pixels ← s.2.assign i color
      let boot ← advanceBoot s.1 i b
      pure (boot, pixels))
    (boot, pixels)

/-- The call of `map` here is the one on 32-bit integers: the template does not fit
arguments of the types `uint16_t` and `float`. -/
def mapBootBufferToPixels {N : Nat} (pixels : PixelBuffer) (strip : Strip N) : Exec (Strip N) :=
  Checked.forRange strip.numPixels
    (fun i strip => do
      let colIdx ← mapLong i 0 strip.numPixels 0 16
      let color ← pixels.atIndex colIdx
      strip.setPixelColor i color.val)
    strip

def regulateBrightness {N : Nat} (strip : Strip N) : Exec (Strip N) :=
  Checked.forRange strip.numPixels
    (fun i strip => do
      let curPixel ← strip.getPixelColor i
      let curPixel ← Color.mulAssign ⟨curPixel⟩ (1 / 5)
      strip.setPixelColor i curPixel.val)
    strip

/-- What `loop` does in BOOT mode. -/
def bootFrame {N : Nat} (boot : Vector ℚ 16) (pixels : PixelBuffer) (strip : Strip N) :
    Exec (Vector ℚ 16 × PixelBuffer × Strip N) := do
  let drawn ← updateBootEffect boot pixels
  let strip ← mapBootBufferToPixels drawn.2 strip
  let strip ← regulateBrightness strip
  pure (drawn.1, drawn.2, strip)

/-! ### The buffer and the animations -/

/-- The pixels of the nodes are the first of the buffer. -/
theorem node_pixel {i : Nat} (h : i < 16) : i < resolution := Nat.lt_trans h (by decide)

/-- A status after a frame. -/
def advanced (b : ℚ) : ℚ := if 0 < b ∧ b < 1 then b + 1 / 100 else b

theorem advanceBoot_val (boot : Vector ℚ 16) (i : Nat) (h : i < 16) (j : Nat) :
    (advanceBoot boot i boot[i]).val[j]?.getD 0 =
      if j = i then advanced (boot[j]?.getD 0) else boot[j]?.getD 0 := by
  rw [advanceBoot, Checked.val_ite, advanced]
  by_cases here : j = i
  · subst here
    split <;> simp_all [Checked.val_writeAt]
  · rw [if_neg here]
    split <;> simp [Checked.val_writeAt, Ne.symm here]

private theorem updateBootEffect_cell (boot : Vector ℚ 16) (pixels : PixelBuffer) (j : Nat) :
    let out := (updateBootEffect boot pixels).val
    (out.1[j]?.getD 0, out.2.pixel j) =
      if j < 16 then (advanced (boot[j]?.getD 0), (bootColor (boot[j]?.getD 0)).val)
      else (boot[j]?.getD 0, pixels.pixel j) := by
  refine Checked.forRange_cell
    (fun (s : Vector ℚ 16 × PixelBuffer) j => (s.1[j]?.getD 0, s.2.pixel j))
    (fun _ c => (advanced c.1, (bootColor c.1).val)) ?_ ?_ (boot, pixels) j
  · intro i hi s
    simp only [Checked.val_bind, Checked.val_readAt _ _ _ hi, Checked.val_pure,
      advanceBoot_val _ i hi, PixelBuffer.assign_pixel _ _ (node_pixel hi), if_true]
    simp [hi]
  · intro i hi s j hj
    simp only [Checked.val_bind, Checked.val_readAt _ _ _ hi, Checked.val_pure,
      advanceBoot_val _ i hi, PixelBuffer.assign_pixel _ _ (node_pixel hi), if_neg hj]

theorem updateBootEffect_boot (boot : Vector ℚ 16) (pixels : PixelBuffer) (j : Nat) (h : j < 16) :
    (updateBootEffect boot pixels).val.1[j] = advanced boot[j] := by
  have := congrArg Prod.fst (updateBootEffect_cell boot pixels j)
  simpa [h] using this

theorem updateBootEffect_pixel (boot : Vector ℚ 16) (pixels : PixelBuffer) (j : Nat) (h : j < 16) :
    (updateBootEffect boot pixels).val.2.pixel j = (bootColor boot[j]).val := by
  have := congrArg Prod.snd (updateBootEffect_cell boot pixels j)
  simpa [h] using this

theorem updateBootEffect_offset (boot : Vector ℚ 16) (pixels : PixelBuffer) :
    (updateBootEffect boot pixels).val.2.shiftOffset = pixels.shiftOffset := by
  refine Checked.forRange_keep (fun s : Vector ℚ 16 × PixelBuffer => s.2.shiftOffset) ?_ _
  intro i _ s
  rfl

theorem bootColor_safe (b : ℚ) : (bootColor b).Safe := by
  unfold bootColor
  split
  · exact Checked.safe_pure _
  · split <;> exact Color.interpolate_safe _ _ _

theorem updateBootEffect_safe (boot : Vector ℚ 16) (pixels : PixelBuffer) :
    (updateBootEffect boot pixels).Safe := by
  apply Checked.forRange_safe_of_rounds
  intro i hi s
  simp only [Checked.safe_bind, Checked.safe_readAt, Checked.safe_pure, bootColor_safe,
    PixelBuffer.assign_safe _ _ (node_pixel hi), hi, true_and, and_true]
  unfold advanceBoot
  split
  · exact (Checked.safe_writeAt _ _ _ _).mpr hi
  · exact Checked.safe_pure _

/-! ### The strip -/

variable {N : Nat}

/-- The integer `map` of an LED is the node whose share of the strip it is in. -/
theorem mapLong_val (i : Nat) : (mapLong i 0 N 0 16).val = ((16 * i / N : Nat) : ℤ) := by
  show (((i : ℤ) - 0) * (16 - 0)).tdiv ((N : ℤ) - 0) + 0 = _
  rw [Int.sub_zero, Int.sub_zero, Int.sub_zero, Int.add_zero, Nat.mul_comm]
  rfl

theorem mapLong_safe (i : Nat) (h : i < N) (small : N ≤ 21845) : (mapLong i 0 N 0 16).Safe := by
  simp only [mapLong, Checked.safe_bind, Checked.safe_require, Checked.safe_pure, and_true]
  omega

theorem node_lt (i : Nat) (h : i < N) : 16 * i / N < 16 :=
  Nat.div_lt_of_lt_mul (by omega)

theorem mapBootBufferToPixels_pixel (pixels : PixelBuffer) (strip : Strip N) (j : Nat) (h : j < N) :
    (mapBootBufferToPixels pixels strip).val.pixel j = (pixels.pixel (16 * j / N)).kept := by
  refine Strip.pixel_forRange (fun i _ => pixels.pixel (16 * i / N)) _ ?_ strip j h
  intro i hi s
  simp only [Checked.val_bind, Strip.numPixels, mapLong_val,
    PixelBuffer.atIndex_val _ _ (node_pixel (node_lt i hi))]

theorem regulateBrightness_pixel (strip : Strip N) (j : Nat) (h : j < N) :
    (regulateBrightness strip).val.pixel j = ((strip.pixel j).mulAssign (1 / 5)).val.kept := by
  refine Strip.pixel_forRange (fun _ c => (c.mulAssign (1 / 5)).val) _ ?_ strip j h
  intro i _ s
  rw [Checked.val_bind, Checked.val_bind, Strip.pixel]

theorem mapBootBufferToPixels_safe (pixels : PixelBuffer) (strip : Strip N) (small : N ≤ 21845) :
    (mapBootBufferToPixels pixels strip).Safe := by
  apply Checked.forRange_safe_of_rounds
  intro i hi s
  have hi : i < N := hi
  simp only [Checked.safe_bind, Strip.numPixels, mapLong_val]
  exact ⟨mapLong_safe i hi small, PixelBuffer.atIndex_safe _ _ (node_pixel (node_lt i hi)),
    Strip.setPixelColor_safe _ _ _ (by omega)⟩

theorem regulateBrightness_safe (strip : Strip N) (small : N ≤ 21845) :
    (regulateBrightness strip).Safe := by
  apply Checked.forRange_safe_of_rounds
  intro i hi s
  have hi : i < N := hi
  simp only [Checked.safe_bind]
  exact ⟨Strip.getPixelColor_safe _ _ (by omega), Color.mulAssign_safe _ (by norm_num) (by norm_num),
    Strip.setPixelColor_safe _ _ _ (by omega)⟩

theorem bootFrame_safe (boot : Vector ℚ 16) (pixels : PixelBuffer) (strip : Strip N)
    (small : N ≤ 21845) : (bootFrame boot pixels strip).Safe := by
  simp only [bootFrame, Checked.safe_bind, Checked.safe_pure, and_true]
  exact ⟨updateBootEffect_safe boot pixels, mapBootBufferToPixels_safe _ strip small,
    regulateBrightness_safe _ small⟩

theorem bootFrame_boot (boot : Vector ℚ 16) (pixels : PixelBuffer) (strip : Strip N) (j : Nat)
    (h : j < 16) : (bootFrame boot pixels strip).val.1[j] = advanced boot[j] := by
  have drawn : (bootFrame boot pixels strip).val.1 = (updateBootEffect boot pixels).val.1 := by
    simp only [bootFrame, Checked.val_bind, Checked.val_pure]
  simp only [drawn]
  exact updateBootEffect_boot boot pixels j h

/-- The frame on the strip: LED `j` shows its node's colour, dimmed. -/
theorem bootFrame_pixel (boot : Vector ℚ 16) (pixels : PixelBuffer) (strip : Strip N) (j : Nat)
    (h : j < N) :
    (bootFrame boot pixels strip).val.2.2.pixel j =
      (((bootColor (boot.get ⟨16 * j / N, node_lt j h⟩)).val.kept).mulAssign (1 / 5)).val.kept := by
  show (regulateBrightness _).val.pixel j = _
  rw [regulateBrightness_pixel _ j h, mapBootBufferToPixels_pixel _ _ j h,
    updateBootEffect_pixel _ _ _ (node_lt j h)]
  rfl

end CofferLed.Sketch
