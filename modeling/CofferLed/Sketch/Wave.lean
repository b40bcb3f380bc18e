import CofferLed.Sketch.LoadEffect
import CofferLed.Sketch.Resample

/-! `imposeWave`: the strip is dimmed to a tenth of its brightness, except around a
position that travels along it, where it fades up to full brightness. -/
namespace CofferLed.Sketch
open Library CofferLed.Core

def waveLength (N : Nat) : Nat := N / 10

/-- The distance of LED `i` from the wave, `waveDist` where the source compares it with
the length of the wave. -/
def waveDist (N : Nat) (pos : ℚ) (i : Nat) : ℚ :=
  let waveDist : ℚ := if (i : ℚ) < pos then pos - i else i - pos
  let wrappedWaveDist :=
    if pos + (waveLength N : ℚ) / 2 > N then
      let wrappedPos := pos - N
      i - wrappedPos
    else if pos - (waveLength N : ℚ) / 2 < 0 then
      let wrappedPos := pos + N
      wrappedPos - i
    else waveDist
  if wrappedWaveDist < waveDist then wrappedWaveDist else waveDist

/-- The brightness at a distance. -/
def waveBrightness (N : Nat) (waveDist : ℚ) : Exec ℚ :=
  if waveDist > (waveLength N : ℚ) / 2 then pure (1 / 10)
  else do
    let share ← divide waveDist ((waveLength N : ℚ) / 2)
    let intensity := 1 - share
    let waveBrightness := 1 * intensity
    pure (if waveBrightness < 1 / 10 then 1 / 10 else waveBrightness)

def imposeWave {N : Nat} (pos : ℚ) (strip : Strip N) : Exec (Strip N) :=
  Checked.forRange strip.numPixels
    (fun i strip => do
      let curPixel ← strip.getPixelColor i
      let brightness ← waveBrightness strip.numPixels (waveDist strip.numPixels pos i)
      let curPixel ← Color.mulAssign ⟨curPixel⟩ brightness
      strip.setPixelColor i curPixel.val)
    strip

/-- What `loop` does in LOAD mode. -/
def loadFrame {N : Nat} (load : Vector (BitVec 8) 16) (wavePos : ℚ) (pixels : PixelBuffer)
    (strip : Strip N) : Exec (PixelBuffer × Strip N) := do
  let pixels ← updateLoadEffect load pixels
  let strip ← interpolatePixels pixels strip
  let strip ← imposeWave wavePos strip
  pure (pixels, strip)

variable {N : Nat}

/-! ### The factor of an LED -/

/-- The factor LED `i` is scaled by. -/
def factor (N : Nat) (pos : ℚ) (i : Nat) : ℚ := (waveBrightness N (waveDist N pos i)).val

theorem waveDist_nonneg {pos : ℚ} (low : 0 ≤ pos) (high : pos ≤ N) (i : Nat) (h : i < N) :
    0 ≤ waveDist N pos i := by
  have hi : (i : ℚ) ≤ N := by exact_mod_cast h.le
  have i0 : (0 : ℚ) ≤ i := Nat.cast_nonneg i
  have direct : 0 ≤ if (i : ℚ) < pos then pos - i else i - pos := by split <;> linarith
  rw [waveDist, ← min_def_lt]
  refine le_min ?_ direct
  split
  · linarith
  · split
    · linarith
    · exact direct

/-- Outside the wave the brightness is the normal one, and it is nowhere less. -/
theorem waveBrightness_val (d : ℚ) :
    (waveBrightness N d).val =
      if d > (waveLength N : ℚ) / 2 then 1 / 10
      else max (1 - d / ((waveLength N : ℚ) / 2)) (1 / 10) := by
  rw [waveBrightness, Checked.val_ite]
  simp only [Checked.val_bind, Checked.val_pure, divide_val, one_mul, max_def_lt]
  rfl

theorem waveBrightness_bounds {d : ℚ} (nonneg : 0 ≤ d) :
    1 / 10 ≤ (waveBrightness N d).val ∧ (waveBrightness N d).val ≤ 1 := by
  rw [waveBrightness_val]
  split
  · norm_num
  · have : 0 ≤ d / ((waveLength N : ℚ) / 2) := div_nonneg nonneg (by positivity)
    exact ⟨le_max_right _ _, max_le (by linarith) (by norm_num)⟩

theorem waveBrightness_safe (ten : 10 ≤ N) (d : ℚ) : (waveBrightness N d).Safe := by
  have : 1 ≤ waveLength N := (Nat.one_le_div_iff (by decide)).mpr ten
  have : (1 : ℚ) ≤ waveLength N := by exact_mod_cast this
  unfold waveBrightness
  split
  · exact Checked.safe_pure _
  · rw [Checked.safe_bind, divide_safe]
    exact ⟨by linarith, Checked.safe_pure _⟩

theorem factor_bounds {pos : ℚ} (low : 0 ≤ pos) (high : pos ≤ N) (i : Nat) (h : i < N) :
    1 / 10 ≤ factor N pos i ∧ factor N pos i ≤ 1 :=
  waveBrightness_bounds (waveDist_nonneg low high i h)

/-! ### The strip -/

theorem imposeWave_pixel (pos : ℚ) (strip : Strip N) (j : Nat) (h : j < N) :
    (imposeWave pos strip).val.pixel j =
      ((strip.pixel j).mulAssign (factor N pos j)).val.kept := by
  refine Strip.pixel_forRange (fun i c => (c.mulAssign (factor N pos i)).val) _ ?_ strip j h
  intro i _ s
  rw [Checked.val_bind, Checked.val_bind, Checked.val_bind, factor, Strip.pixel]

/-- Each channel is scaled by the factor of the LED, halves rounded up. -/
theorem imposeWave_byte {pos : ℚ} (low : 0 ≤ pos) (high : pos ≤ N) (strip : Strip N) (j : Nat)
    (h : j < N) (k : Nat) (hk : k < 3) :
    ((((imposeWave pos strip).val.pixel j).byte k).toNat : ℤ) =
      ⌊(((strip.pixel j).byte k).toNat : ℚ) * factor N pos j + 1 / 2⌋ := by
  obtain ⟨dim, bright⟩ := factor_bounds low high j h
  rw [imposeWave_pixel pos strip j h, Strip.kept_byte _ k hk,
    Color.mulAssign_byte _ _ k (Nat.lt_succ_of_lt hk), Color.scaleByte_val _ (by linarith) bright]

/-- No channel gets brighter. -/
theorem imposeWave_byte_le {pos : ℚ} (low : 0 ≤ pos) (high : pos ≤ N) (strip : Strip N) (j : Nat)
    (h : j < N) (k : Nat) (hk : k < 3) :
    (((imposeWave pos strip).val.pixel j).byte k).toNat ≤ ((strip.pixel j).byte k).toNat := by
  have scaled := imposeWave_byte low high strip j h k hk
  obtain ⟨_, bright⟩ := factor_bounds low high j h
  have old : (0 : ℚ) ≤ ((strip.pixel j).byte k).toNat := Nat.cast_nonneg _
  have below : ⌊(((strip.pixel j).byte k).toNat : ℚ) * factor N pos j + 1 / 2⌋ <
      ((strip.pixel j).byte k).toNat + 1 := by
    rw [Int.floor_lt]
    push_cast
    nlinarith
  omega

theorem imposeWave_safe {pos : ℚ} (low : 0 ≤ pos) (high : pos ≤ N) (strip : Strip N)
    (ten : 10 ≤ N) (small : N ≤ 21845) : (imposeWave pos strip).Safe := by
  apply Checked.forRange_safe_of_rounds
  intro i hi s
  have hi : i < N := hi
  obtain ⟨dim, bright⟩ := factor_bounds low high i hi
  simp only [Checked.safe_bind]
  exact ⟨Strip.getPixelColor_safe _ _ (by omega), waveBrightness_safe ten _,
    Color.mulAssign_safe _ (by unfold factor at dim; linarith) bright,
    Strip.setPixelColor_safe _ _ _ (by omega)⟩

theorem loadFrame_safe (load : Vector (BitVec 8) 16) {pos : ℚ} (low : 0 ≤ pos) (high : pos ≤ N)
    (pixels : PixelBuffer) (strip : Strip N) (ten : 10 ≤ N) (small : N ≤ 21845) :
    (loadFrame load pos pixels strip).Safe := by
  simp only [loadFrame, Checked.safe_bind, Checked.safe_pure, and_true]
  exact ⟨updateLoadEffect_safe load pixels, interpolatePixels_safe _ strip (by omega) small,
    imposeWave_safe low high _ ten small⟩

/-- The frame on the strip: LED `j` shows the ring at its position, dimmed by the wave. -/
theorem loadFrame_pixel (load : Vector (BitVec 8) 16) (pos : ℚ) (pixels : PixelBuffer)
    (strip : Strip N) (j : Nat) (h : j < N) :
    (loadFrame load pos pixels strip).val.2.pixel j =
      ((sampleAt (updateLoadEffect load pixels).val (position N j)).val.kept.mulAssign
        (factor N pos j)).val.kept := by
  show (imposeWave pos _).val.pixel j = _
  rw [imposeWave_pixel _ _ j h, interpolatePixels_pixel _ _ j h]

end CofferLed.Sketch
