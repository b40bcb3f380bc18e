import CofferLed.Effects.WavePhase

/-! Nothing goes out of range.

Every access to an array, every conversion of a value to a byte, every sum and product of
bounded width and every division of the model is behind a check; in a run from power-up,
on a strip the library can address, none of them fails. -/
namespace CofferLed.Effects
open Library CofferLed.Core Sketch

variable {N : Nat}

theorem handleMessage_safe (received : Bool) (clock : Clock) (f : Firmware N) :
    (f.handleMessage received clock).Safe := by
  unfold Firmware.handleMessage
  split
  · dsimp only
    split
    · exact (Checked.safe_bind _ _).mpr ⟨Firmware.startBoots_safe _ _, Checked.safe_pure _⟩
    · exact Checked.safe_pure _
  · exact Checked.safe_pure _

theorem moveWave_safe (f : Firmware N) : f.moveWave.Safe := by
  have advance : f.advanceWave.Safe := by
    unfold Firmware.advanceWave
    split
    · exact (Checked.safe_bind _ _).mpr ⟨calcTotalLoad_safe _, Checked.safe_pure _⟩
    · exact Checked.safe_pure _
  exact (Checked.safe_bind _ _).mpr ⟨advance, Checked.safe_pure _⟩

theorem step_wavePos (two : 2 ≤ N) (e : Event) (f : Firmware N)
    (h : 0 ≤ f.wavePos ∧ f.wavePos ≤ N) :
    0 ≤ (Firmware.step e f).val.wavePos ∧ (Firmware.step e f).val.wavePos ≤ N := by
  cases e with
  | rx c => exact h
  | poll clock =>
    by_cases hc : f.receiver.Condition
    · rw [Firmware.step_body clock hc]
      exact h
    · rw [Firmware.step_finish clock hc, Firmware.loop_wavePos]
      exact Firmware.moved_bounds two _ h.1 h.2

section
variable (ten : 10 ≤ N) (small : N ≤ 21845)
include ten small

theorem drawFrame_safe (f : Firmware N) (low : 0 ≤ f.wavePos) (high : f.wavePos ≤ N) :
    f.drawFrame.Safe := by
  unfold Firmware.drawFrame
  split
  · exact (Checked.safe_bind _ _).mpr ⟨bootFrame_safe _ _ _ small, Checked.safe_pure _⟩
  · split
    · exact (Checked.safe_bind _ _).mpr ⟨loadFrame_safe _ low high _ _ ten small, Checked.safe_pure _⟩
    · exact Checked.safe_pure _

theorem loop_safe (received : Bool) (clock : Clock) (f : Firmware N) (low : 0 ≤ f.wavePos)
    (high : f.wavePos ≤ N) : (f.loop received clock).Safe := by
  obtain ⟨moved_low, moved_high⟩ := f.moved_bounds (by omega) low high
  rw [Firmware.loop, Checked.safe_bind, Checked.safe_bind]
  refine ⟨handleMessage_safe received clock f, moveWave_safe _, ?_⟩
  rw [Firmware.moveWave_val, Firmware.flashCheck_eq, Firmware.handleMessage_val]
  exact drawFrame_safe ten small _ moved_low moved_high

theorem step_safe (e : Event) (f : Firmware N) (low : 0 ≤ f.wavePos) (high : f.wavePos ≤ N) :
    (Firmware.step e f).Safe := by
  cases e with
  | rx c => exact (Checked.safe_bind _ _).mpr ⟨Checked.safe_pure _, Checked.safe_pure _⟩
  | poll clock =>
    by_cases hc : f.receiver.Condition
    · rw [Firmware.step, if_pos hc]
      exact (Checked.safe_bind _ _).mpr ⟨Receiver.body_safe hc.2, Checked.safe_pure _⟩
    · rw [Firmware.step_finish clock hc]
      exact loop_safe ten small _ clock _ low high

/-- **Safety.** No check fails in any run from power-up; the index of the receive buffer
and the shift of the pixel buffer stay in range; and so do both neighbours of every LED on
the ring. -/
theorem run_safe (millis : BitVec 32) (events : List Event) :
    let f := Firmware.powerUp N millis
    f.faults events = [] ∧ (f.after events).receiver.rcvIdx ≤ 16 ∧
      (f.after events).pixels.shiftOffset < resolution ∧
      ∀ i, i < N →
        (0 ≤ ⌊(pixelPos N i).val⌋ ∧ ⌊(pixelPos N i).val⌋ < resolution) ∧
          (0 ≤ ⌈(pixelPos N i).val⌉ ∧ ⌈(pixelPos N i).val⌉ < resolution) := by
  have two : 2 ≤ N := by omega
  intro f
  refine ⟨?_, ?_, PixelBuffer.offset_lt _, ?_⟩
  · exact trace_eq_nil (fun f : Firmware N => 0 ≤ f.wavePos ∧ f.wavePos ≤ N)
      (step_wavePos two) (fun e f h => step_safe ten small e f h.1 h.2) f
      ⟨le_refl 0, Nat.cast_nonneg N⟩ events
  · rw [Firmware.after_receiver]
    exact Receiver.after_idx_le _ (Nat.zero_le 16) events
  · intro i hi
    rw [pixelPos_val]
    exact neighbours_bounds (position_nonneg two i) (position_le two i hi)

end

/-- The strip of the coffer, and a load message with data out of range. -/
theorem run_safe_coffer :
    (Firmware.powerUp 98 0).faults
      (((0xF2 :: List.replicate 16 239).flatMap fun b => [.rx b, .poll ⟨7, 7⟩]) ++
        [.poll ⟨7, 7⟩]) = [] :=
  (run_safe (by decide) (by decide) 0 _).1

end CofferLed.Effects
