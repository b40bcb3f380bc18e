import CofferLed.Protocol.Schedule

/-! A frame shows the state of the effects and nothing else.

`regulateBrightness` and `imposeWave` read the strip back that they dim, and both effects
draw into one buffer. Still nothing of an earlier frame gets into a later one: what is
read in a frame has been written in it. Two firmwares that agree on everything but the
strip, the pixels of the buffer and the status LED (`Agree`) go on agreeing, and show the
same as soon as either effect has drawn a frame. -/
namespace CofferLed.Effects
open Library CofferLed.Core Sketch Protocol

/-- The same bytes to read, and the same variables. -/
structure SameReceiver (r q : Receiver) : Prop where
  pending : r.serial.pending = q.serial.pending
  rcvBuffer : r.rcvBuffer = q.rcvBuffer
  rcvIdx : r.rcvIdx = q.rcvIdx
  rcvdMode : r.rcvdMode = q.rcvdMode
  buffer : r.buffer = q.buffer
  modeStatus : r.modeStatus = q.modeStatus

namespace SameReceiver
variable {r q : Receiver} (h : SameReceiver r q)
include h

theorem condition : r.Condition ↔ q.Condition := by
  unfold Receiver.Condition
  rw [← r.serial.pending_length, ← q.serial.pending_length, h.pending, h.rcvIdx]

theorem body (hc : r.Condition) : SameReceiver r.body.val q.body.val := by
  obtain ⟨taken, _⟩ := body_pending hc
  obtain ⟨taken', _⟩ := body_pending (h.condition.mp hc)
  rw [h.pending, taken', List.cons.injEq] at taken
  obtain ⟨rcvd, rest⟩ := taken
  cases hh : Receiver.isHeader r.rcvd with
  | true =>
    have hh' := hh
    rw [← rcvd] at hh'
    rw [Receiver.body_header hh] at rest ⊢
    rw [Receiver.body_header hh'] at rest ⊢
    exact ⟨rest.symm, h.rcvBuffer, rfl, by rw [rcvd], h.buffer, h.modeStatus⟩
  | false =>
    have hh' := hh
    rw [← rcvd] at hh'
    rw [Receiver.body_data hh] at rest ⊢
    rw [Receiver.body_data hh'] at rest ⊢
    exact ⟨rest.symm, by rw [h.rcvBuffer, h.rcvIdx, rcvd], by rw [h.rcvIdx], h.rcvdMode,
      h.buffer, h.modeStatus⟩

theorem finish : r.finish.1 = q.finish.1 ∧ SameReceiver r.finish.2 q.finish.2 := by
  by_cases full : 16 ≤ r.rcvIdx
  · rw [Receiver.finish_delivers full, Receiver.finish_delivers (h.rcvIdx ▸ full)]
    exact ⟨rfl, h.pending, h.rcvBuffer, rfl, h.rcvdMode, h.rcvBuffer, by rw [h.rcvdMode]⟩
  · have short : r.rcvIdx < 16 := Nat.not_le.mp full
    rw [Receiver.finish_waits short, Receiver.finish_waits (h.rcvIdx ▸ short)]
    exact ⟨rfl, h⟩

theorem arrive (b : BitVec 8) :
    SameReceiver (Receiver.step (.rx b) r).val (Receiver.step (.rx b) q).val := by
  have pending : (r.serial.rxCompleteIrq false b).pending = (q.serial.rxCompleteIrq false b).pending := by
    rw [HardwareSerial.pending_rxCompleteIrq_eq, HardwareSerial.pending_rxCompleteIrq_eq, h.pending]
  exact ⟨pending, h.rcvBuffer, h.rcvIdx, h.rcvdMode, h.buffer, h.modeStatus⟩

end SameReceiver

/-! ### One iteration -/

variable {N : Nat}

structure Agree (f g : Firmware N) : Prop where
  receiver : SameReceiver f.receiver g.receiver
  bootStatus : f.bootStatus = g.bootStatus
  wavePos : f.wavePos = g.wavePos
  shiftOffset : f.pixels.shiftOffset = g.pixels.shiftOffset

def Draws (mode : ModeBits) : Prop := mode = ModeBits.boot ∨ mode = ModeBits.load

instance (mode : ModeBits) : Decidable (Draws mode) := by unfold Draws; infer_instance

/-- The strip after a boot frame has nothing of the strip and the buffer before it. -/
theorem bootFrame_strip (boot : Vector ℚ 16) (p q : PixelBuffer) (s t : Strip N) :
    (bootFrame boot p s).val.2.2 = (bootFrame boot q t).val.2.2 := by
  apply Strip.ext_pixels
  intro j hj
  rw [bootFrame_pixel boot p s j hj, bootFrame_pixel boot q t j hj]

theorem bootFrame_status (boot : Vector ℚ 16) (p q : PixelBuffer) (s t : Strip N) :
    (bootFrame boot p s).val.1 = (bootFrame boot q t).val.1 := by
  apply Vector.ext
  intro j hj
  rw [bootFrame_boot boot p s j hj, bootFrame_boot boot q t j hj]

theorem bootFrame_offset (boot : Vector ℚ 16) (p : PixelBuffer) (s : Strip N) :
    (bootFrame boot p s).val.2.1.shiftOffset = p.shiftOffset := by
  simp only [bootFrame, Checked.val_bind, Checked.val_pure]
  exact updateBootEffect_offset boot p

/-- A load frame draws all of the buffer. -/
theorem updateLoadEffect_eq (load : Vector (BitVec 8) 16) {p q : PixelBuffer}
    (offset : p.shiftOffset = q.shiftOffset) :
    (updateLoadEffect load p).val = (updateLoadEffect load q).val := by
  apply PixelBuffer.ext_pixel
  · intro j hj
    rw [updateLoadEffect_pixel load p j hj, updateLoadEffect_pixel load q j hj]
  · rw [updateLoadEffect_offset, updateLoadEffect_offset, offset]

theorem loadFrame_strip (load : Vector (BitVec 8) 16) (pos : ℚ) {p q : PixelBuffer} (s t : Strip N)
    (offset : p.shiftOffset = q.shiftOffset) :
    (loadFrame load pos p s).val.2 = (loadFrame load pos q t).val.2 := by
  apply Strip.ext_pixels
  intro j hj
  rw [loadFrame_pixel load pos p s j hj, loadFrame_pixel load pos q t j hj,
    updateLoadEffect_eq load offset]

theorem loadFrame_offset (load : Vector (BitVec 8) 16) (pos : ℚ) (p : PixelBuffer) (s : Strip N) :
    (loadFrame load pos p s).val.1.shiftOffset = p.shiftOffset := by
  simp only [loadFrame, Checked.val_bind, Checked.val_pure]
  exact updateLoadEffect_offset load p

section
variable {f g : Firmware N} (h : Agree f g)
include h

theorem Agree.boots (received : Bool) : Firmware.boots received f = Firmware.boots received g := by
  unfold Firmware.boots Firmware.modeState Firmware.rcvBuffer
  rw [h.receiver.modeStatus, h.receiver.buffer, h.bootStatus]

theorem Agree.moved : f.moved = g.moved := by
  unfold Firmware.moved Firmware.reached Firmware.modeState Firmware.rcvBuffer
  rw [h.receiver.modeStatus, h.receiver.buffer, h.wavePos]

/-- An iteration keeps the agreement; in BOOT and LOAD mode it makes the strips agree. -/
theorem Agree.loop (received : Bool) (clock : Clock) :
    Agree (f.loop received clock).val (g.loop received clock).val ∧
      (Draws f.modeState → (f.loop received clock).val.strip = (g.loop received clock).val.strip) := by
  have mode : g.modeState = f.modeState := h.receiver.modeStatus.symm
  have receiver : SameReceiver (f.loop received clock).val.receiver
      (g.loop received clock).val.receiver := by
    rw [Firmware.loop_receiver, Firmware.loop_receiver]
    exact h.receiver
  have wave : (f.loop received clock).val.wavePos = (g.loop received clock).val.wavePos := by
    rw [Firmware.loop_wavePos, Firmware.loop_wavePos, h.moved]
  by_cases boot : f.modeState = ModeBits.boot
  · obtain ⟨status, pixels, strip⟩ := Firmware.loop_boot received clock f boot
    obtain ⟨status', pixels', strip'⟩ := Firmware.loop_boot received clock g (mode.trans boot)
    refine ⟨⟨receiver, ?_, wave, ?_⟩, fun _ => ?_⟩
    · rw [status, status', h.boots]
      exact bootFrame_status _ _ _ _ _
    · rw [pixels, pixels', bootFrame_offset, bootFrame_offset, h.shiftOffset]
    · rw [strip, strip', h.boots]
      exact bootFrame_strip _ _ _ _ _
  · have status : (f.loop received clock).val.bootStatus =
        (g.loop received clock).val.bootStatus := by
      rw [Firmware.loop_bootStatus _ _ f boot, Firmware.loop_bootStatus _ _ g (mode ▸ boot),
        h.bootStatus]
    by_cases load : f.modeState = ModeBits.load
    · obtain ⟨pixels, strip⟩ := Firmware.loop_load received clock f load
      obtain ⟨pixels', strip'⟩ := Firmware.loop_load received clock g (mode.trans load)
      have data : f.rcvBuffer = g.rcvBuffer := h.receiver.buffer
      refine ⟨⟨receiver, status, wave, ?_⟩, fun _ => ?_⟩
      · rw [pixels, pixels', loadFrame_offset, loadFrame_offset, h.shiftOffset]
      · rw [strip, strip', data, h.moved]
        exact loadFrame_strip _ _ _ _ h.shiftOffset
    · obtain ⟨pixels, _⟩ := Firmware.loop_other received clock f boot load
      obtain ⟨pixels', _⟩ := Firmware.loop_other received clock g (mode ▸ boot) (mode ▸ load)
      refine ⟨⟨receiver, status, wave, ?_⟩, fun draws => ?_⟩
      · rw [pixels, pixels', h.shiftOffset]
      · rcases draws with draws | draws
        · exact absurd draws boot
        · exact absurd draws load

theorem Agree.step (e : Event) :
    Agree (Firmware.step e f).val (Firmware.step e g).val ∧
      f.receiver.turn e = g.receiver.turn e ∧
      ∀ t ∈ f.receiver.turn e, Draws t.mode →
        (Firmware.step e f).val.strip = (Firmware.step e g).val.strip := by
  cases e with
  | rx b =>
    exact ⟨⟨h.receiver.arrive b, h.bootStatus, h.wavePos, h.shiftOffset⟩, rfl, nofun⟩
  | poll clock =>
    by_cases hc : f.receiver.Condition
    · have hc' := h.receiver.condition.mp hc
      rw [Firmware.step_body clock hc, Firmware.step_body clock hc', Receiver.step_body clock hc,
        Receiver.step_body clock hc', Receiver.turn_body clock hc, Receiver.turn_body clock hc']
      exact ⟨⟨h.receiver.body hc, h.bootStatus, h.wavePos, h.shiftOffset⟩, rfl, nofun⟩
    · have hc' : ¬ g.receiver.Condition := fun hg => hc (h.receiver.condition.mpr hg)
      obtain ⟨received, rest⟩ := h.receiver.finish
      have returned : Agree {f with receiver := f.receiver.finish.2}
          {g with receiver := g.receiver.finish.2} :=
        ⟨rest, h.bootStatus, h.wavePos, h.shiftOffset⟩
      obtain ⟨agree, strips⟩ := returned.loop g.receiver.finish.1 clock
      rw [Firmware.step_finish clock hc, Firmware.step_finish clock hc',
        Receiver.turn_finish clock hc, Receiver.turn_finish clock hc', received]
      refine ⟨agree, by rw [rest.modeStatus, rest.buffer], fun t ht draws => strips ?_⟩
      rw [List.mem_singleton] at ht
      rw [ht] at draws
      exact draws

end

/-- Without a frame drawn, strip and buffer stay as they are. -/
theorem step_undrawn (e : Event) (f : Firmware N) (h : ∀ t ∈ f.receiver.turn e, ¬ Draws t.mode) :
    (Firmware.step e f).val.strip = f.strip ∧ (Firmware.step e f).val.pixels = f.pixels := by
  cases e with
  | rx b => exact ⟨rfl, rfl⟩
  | poll clock =>
    by_cases hc : f.receiver.Condition
    · rw [Firmware.step_body clock hc]
      exact ⟨rfl, rfl⟩
    · rw [Receiver.turn_finish clock hc] at h
      have undrawn := h _ (List.mem_singleton_self _)
      obtain ⟨pixels, strip⟩ := Firmware.loop_other f.receiver.finish.1 clock
        {f with receiver := f.receiver.finish.2} (fun boot => undrawn (.inl boot))
        (fun load => undrawn (.inr load))
      rw [Firmware.step_finish clock hc]
      exact ⟨strip, pixels⟩

/-! ### Runs -/

theorem run_undrawn (f : Firmware N) (events : List Event)
    (h : ∀ t ∈ f.turns events, ¬ Draws t.mode) :
    (f.after events).strip = f.strip ∧ (f.after events).pixels = f.pixels := by
  induction events generalizing f with
  | nil => exact ⟨rfl, rfl⟩
  | cons e rest ih =>
    rw [Firmware.turns_cons] at h
    obtain ⟨strip, pixels⟩ := step_undrawn e f fun t ht => h t (List.mem_append_left _ ht)
    obtain ⟨strip', pixels'⟩ := ih (Firmware.step e f).val fun t ht => h t (List.mem_append_right _ ht)
    rw [Firmware.after_cons, strip', pixels', strip, pixels]
    exact ⟨rfl, rfl⟩

/-- The strips agree from the first frame drawn on, if they did not before. -/
theorem Agree.run {f g : Firmware N} (h : Agree f g) (events : List Event) :
    Agree (f.after events) (g.after events) ∧ f.turns events = g.turns events ∧
      ((f.strip = g.strip ∨ ∃ t ∈ f.turns events, Draws t.mode) →
        (f.after events).strip = (g.after events).strip) := by
  induction events generalizing f g with
  | nil =>
    refine ⟨h, rfl, fun shown => ?_⟩
    rcases shown with same | ⟨t, ht, _⟩
    · exact same
    · cases ht
  | cons e rest ih =>
    obtain ⟨agree, turns, strips⟩ := h.step e
    obtain ⟨agree', turns', strips'⟩ := ih agree
    rw [Firmware.after_cons, Firmware.after_cons, Firmware.turns_cons, Firmware.turns_cons, turns']
    refine ⟨agree', by rw [turns], fun shown => strips' ?_⟩
    by_cases now : ∃ t ∈ f.receiver.turn e, Draws t.mode
    · obtain ⟨t, ht, draws⟩ := now
      exact .inl (strips t ht draws)
    · rcases shown with same | ⟨t, ht, draws⟩
      · have quiet : ∀ t ∈ f.receiver.turn e, ¬ Draws t.mode := fun t ht draws => now ⟨t, ht, draws⟩
        have quiet' : ∀ t ∈ g.receiver.turn e, ¬ Draws t.mode := turns ▸ quiet
        left
        rw [(step_undrawn e f quiet).1, (step_undrawn e g quiet').1, same]
      · rcases List.mem_append.mp ht with ht | ht
        · exact absurd ⟨t, ht, draws⟩ now
        · exact .inr ⟨t, turns' ▸ ht, draws⟩

/-- **Frames.** Two firmwares that agree on everything but the strip, the pixels of the
buffer and the status LED, go through the same iterations and go on agreeing. An iteration
in BOOT or LOAD mode leaves them with the same strip, one in another mode leaves strip
and buffer as they were; and in any run the strips are the same once a frame is drawn. -/
theorem frame_of_state {f g : Firmware N} (h : Agree f g) (events : List Event) :
    let f' := f.after events
    let g' := g.after events
    (∀ t, f.turns events = [t] →
        g.turns events = [t] ∧ Agree f' g' ∧ (Draws t.mode → f'.strip = g'.strip) ∧
          (¬ Draws t.mode →
            (f'.strip = f.strip ∧ f'.pixels = f.pixels) ∧
              (g'.strip = g.strip ∧ g'.pixels = g.pixels))) ∧
      Agree f' g' ∧ ((∃ t ∈ f.turns events, Draws t.mode) → f'.strip = g'.strip) := by
  obtain ⟨agree, turns, strips⟩ := h.run events
  intro f' g'
  refine ⟨?_, agree, fun drawn => strips (.inr drawn)⟩
  intro t one
  have one' : g.turns events = [t] := turns ▸ one
  refine ⟨one', agree, fun draws => strips (.inr ⟨t, by simp [one], draws⟩), fun undrawn => ?_⟩
  exact ⟨run_undrawn f events (by simpa [one] using undrawn),
    run_undrawn g events (by simpa [one'] using undrawn)⟩

/-- A strip left on, and one that is dark, after a load message. -/
theorem frame_of_state_load :
    let f := Firmware.powerUp 98 0
    let g : Firmware 98 := {f with strip := (f.strip.setPixelColor 3 0xFFFFFF).val}
    let events := oneByOne ⟨7, 7⟩ (0xF2 :: List.replicate 16 50)
    (f.after events).strip = (g.after events).strip := by
  intro f g events
  have agree : Agree f g := ⟨⟨rfl, rfl, rfl, rfl, rfl, rfl⟩, rfl, rfl, rfl⟩
  have drawn : ∃ t ∈ f.turns events, Draws t.mode := by
    rw [Firmware.turns_receiver]
    decide +kernel
  exact (frame_of_state agree events).2.2 drawn

end CofferLed.Effects
