import CofferLed.Sketch.BootEffect
import CofferLed.Sketch.ReceiveMsg
import CofferLed.Sketch.Wave

/-! `setup` and `loop`: the whole firmware as a machine that moves on the events of
`CofferLed.Sketch.ReceiveMsg`.

`receiveMsg` is called with the statics `s_rcvBuffer` and `s_modeState` of `loop`, so
these are the `buffer` and the `modeStatus` of the receiver here. The event that ends a
call takes the rest of the iteration with it. -/
namespace CofferLed.Sketch
open Library CofferLed.Core

def statusLedFlashDelay : BitVec 32 := 100

structure Firmware (N : Nat) where
  receiver : Receiver
  bootStatus : Vector ℚ 16
  statusLedFlashStart : BitVec 32
  statusLed : Bool
  wavePos : ℚ
  strip : Strip N
  pixels : PixelBuffer

namespace Firmware
variable {N : Nat}

def modeState (f : Firmware N) : ModeBits := f.receiver.modeStatus
def rcvBuffer (f : Firmware N) : Vector (BitVec 8) 16 := f.receiver.buffer

/-- After `setup`, with what `millis()` returns when the first iteration begins. -/
def powerUp (N : Nat) (millis : BitVec 32) : Firmware N :=
  { receiver := Receiver.reset
    bootStatus := Vector.replicate 16 0
    statusLedFlashStart := millis
    statusLed := false
    wavePos := 0
    strip := Strip.create N
    pixels := PixelBuffer.reset.offset 4 }

/-! ### An iteration -/

/-- A boot message, at one node: it is reset if it is off, and starts booting if it is on
and has not started. -/
def startBoot (rcvBuffer : Vector (BitVec 8) 16) (i : Nat) (bootStatus : Vector ℚ 16) :
    Exec (Vector ℚ 16) := do
  let c ← Checked.readAt .index rcvBuffer i
  if c = 0 then Checked.writeAt .index bootStatus i 0
  else do
    let b ← Checked.readAt .index bootStatus i
    if b = 0 then Checked.writeAt .index bootStatus i (1 / 100) else pure bootStatus

def startBoots (rcvBuffer : Vector (BitVec 8) 16) (bootStatus : Vector ℚ 16) :
    Exec (Vector ℚ 16) :=
  Checked.forRange 16 (startBoot rcvBuffer) bootStatus

/-- `if (receiveMsg(s_rcvBuffer, s_modeState)) { … }`. -/
def handleMessage (received : Bool) (clock : Clock) (f : Firmware N) : Exec (Firmware N) :=
  if received then
    let f := {f with statusLed := true, statusLedFlashStart := clock.received}
    if f.modeState = ModeBits.boot then do
      let boot ← startBoots f.rcvBuffer f.bootStatus
      pure {f with bootStatus := boot}
    else pure f
  else pure f

def flashCheck (clock : Clock) (f : Firmware N) : Firmware N :=
  if clock.check - f.statusLedFlashStart > statusLedFlashDelay then {f with statusLed := false}
  else f

/-- In LOAD mode the wave moves, at a speed that depends on the load. -/
def advanceWave (f : Firmware N) : Exec ℚ :=
  if f.modeState = ModeBits.load then do
    let totalLoad ← calcTotalLoad f.rcvBuffer
    pure (f.wavePos + (1 / 2 + 3 / 2 * (totalLoad.toNat / 100)))
  else pure f.wavePos

/-- It is put back by the length of the strip in any mode. -/
def moveWave (f : Firmware N) : Exec (Firmware N) := do
  let pos ← advanceWave f
  pure {f with wavePos := if pos > f.strip.numPixels then pos - f.strip.numPixels else pos}

def drawFrame (f : Firmware N) : Exec (Firmware N) :=
  if f.modeState = ModeBits.boot then do
    let drawn ← bootFrame f.bootStatus f.pixels f.strip
    pure {f with bootStatus := drawn.1, pixels := drawn.2.1, strip := drawn.2.2}
  else if f.modeState = ModeBits.load then do
    let drawn ← loadFrame f.rcvBuffer f.wavePos f.pixels f.strip
    pure {f with pixels := drawn.1, strip := drawn.2}
  else pure f

/-- An iteration of `loop`, from the value that `receiveMsg` returns on. -/
def loop (received : Bool) (clock : Clock) (f : Firmware N) : Exec (Firmware N) := do
  let f ← handleMessage received clock f
  let f ← moveWave (flashCheck clock f)
  drawFrame f

def step : Event → Firmware N → Exec (Firmware N)
  | .rx c, f => do
    let receiver ← Receiver.step (.rx c) f.receiver
    pure {f with receiver := receiver}
  | .poll clock, f =>
    if f.receiver.Condition then do
      let receiver ← f.receiver.body
      pure {f with receiver := receiver}
    else loop f.receiver.finish.1 clock {f with receiver := f.receiver.finish.2}

/-! ### Runs -/

def after (f : Firmware N) (events : List Event) : Firmware N :=
  run (fun e f => (step e f).val) f events

def bytesRead (f : Firmware N) (events : List Event) : List (BitVec 8) :=
  trace (fun e f => (step e f).val) (fun e f => f.receiver.consumed e) f events

def deliveries (f : Firmware N) (events : List Event) : List Delivery :=
  trace (fun e f => (step e f).val) (fun e f => f.receiver.delivered e) f events

def turns (f : Firmware N) (events : List Event) : List Turn :=
  trace (fun e f => (step e f).val) (fun e f => f.receiver.turn e) f events

/-- The checks that fail in a run. -/
def faults (f : Firmware N) (events : List Event) : List Fault :=
  trace (fun e f => (step e f).val) (fun e f => (step e f).faults) f events

/-! ### What an iteration changes -/

/-- The boot status of a node after a boot message with the byte `c` for it. -/
def started (c : BitVec 8) (b : ℚ) : ℚ := if c = 0 then 0 else if b = 0 then 1 / 100 else b

theorem startBoot_val (data : Vector (BitVec 8) 16) (i : Nat) (h : i < 16) (boot : Vector ℚ 16)
    (j : Nat) :
    (startBoot data i boot).val[j]?.getD 0 =
      if j = i then started (data[j]?.getD 0) (boot[j]?.getD 0) else boot[j]?.getD 0 := by
  simp only [startBoot, Checked.val_bind, Checked.val_ite, Checked.val_readAt _ _ _ h, started,
    Checked.val_writeAt, Checked.val_pure]
  by_cases here : j = i
  · subst here
    simp only [if_true, h, Vector.getElem?_eq_getElem, Option.getD_some]
    split
    · simp
    · split <;> simp
  · rw [if_neg here]
    split
    · simp [Ne.symm here]
    · split <;> simp [Ne.symm here]

theorem startBoots_val (data : Vector (BitVec 8) 16) (boot : Vector ℚ 16) (j : Nat) (h : j < 16) :
    (startBoots data boot).val[j] = started data[j] boot[j] := by
  have cell : (startBoots data boot).val[j]?.getD 0 =
      if j < 16 then started (data[j]?.getD 0) (boot[j]?.getD 0) else boot[j]?.getD 0 := by
    refine Checked.forRange_cell (fun (boot : Vector ℚ 16) j => boot[j]?.getD 0)
      (fun j b => started (data[j]?.getD 0) b) ?_ ?_ boot j
    · intro i hi boot
      rw [startBoot_val data i hi boot i, if_pos rfl]
    · intro i hi boot k hk
      rw [startBoot_val data i hi boot k, if_neg hk]
  simpa [h] using cell

theorem startBoots_safe (data : Vector (BitVec 8) 16) (boot : Vector ℚ 16) :
    (startBoots data boot).Safe := by
  apply Checked.forRange_safe_of_rounds
  intro i hi boot
  simp only [startBoot, Checked.safe_bind, Checked.safe_readAt, hi, true_and]
  split
  · exact (Checked.safe_writeAt _ _ _ _).mpr hi
  · simp only [Checked.safe_bind, Checked.safe_readAt, hi, true_and]
    split
    · exact (Checked.safe_writeAt _ _ _ _).mpr hi
    · exact Checked.safe_pure _

/-- How far the wave moves in an iteration. -/
def increment (data : Vector (BitVec 8) 16) : ℚ :=
  1 / 2 + 3 / 2 * ((min 100 (total data allNodes / 16) : Nat) / 100)

theorem increment_bounds (data : Vector (BitVec 8) 16) :
    1 / 2 ≤ increment data ∧ increment data ≤ 2 := by
  have le : ((min 100 (total data allNodes / 16) : Nat) : ℚ) ≤ 100 := by
    exact_mod_cast Nat.min_le_left _ _
  have nonneg : (0 : ℚ) ≤ (min 100 (total data allNodes / 16) : Nat) := Nat.cast_nonneg _
  unfold increment
  constructor <;> linarith

/-- Where the wave gets before it is put back. -/
def reached (f : Firmware N) : ℚ :=
  if f.modeState = ModeBits.load then f.wavePos + increment f.rcvBuffer else f.wavePos

/-- The position of the wave for a frame. -/
def moved (f : Firmware N) : ℚ := if f.reached > N then f.reached - N else f.reached

theorem reached_bounds (f : Firmware N) :
    f.wavePos ≤ f.reached ∧ f.reached ≤ f.wavePos + 2 := by
  obtain ⟨slow, fast⟩ := increment_bounds f.rcvBuffer
  unfold reached
  split
  · exact ⟨by linarith, by linarith⟩
  · exact ⟨le_refl _, by linarith⟩

/-- The wave stays on the strip. -/
theorem moved_bounds (two : 2 ≤ N) (f : Firmware N) (low : 0 ≤ f.wavePos)
    (high : f.wavePos ≤ N) : 0 ≤ f.moved ∧ f.moved ≤ N := by
  have : (2 : ℚ) ≤ N := by exact_mod_cast two
  obtain ⟨not_back, not_far⟩ := f.reached_bounds
  unfold moved
  split
  case isTrue beyond => exact ⟨by linarith, by linarith⟩
  case isFalse inside => exact ⟨by linarith, not_lt.mp inside⟩

/-- The animations for a frame. -/
def boots (received : Bool) (f : Firmware N) : Vector ℚ 16 :=
  if received = true ∧ f.modeState = ModeBits.boot then
    (startBoots f.rcvBuffer f.bootStatus).val
  else f.bootStatus

/-- Where the flash of the status LED starts, for an iteration. -/
def flashStart (received : Bool) (clock : Clock) (f : Firmware N) : BitVec 32 :=
  if received then clock.received else f.statusLedFlashStart

/-- Whether the status LED is lit after an iteration. -/
def lit (received : Bool) (clock : Clock) (f : Firmware N) : Bool :=
  (received || f.statusLed) &&
    !decide (clock.check - flashStart received clock f > statusLedFlashDelay)

theorem handleMessage_val (received : Bool) (clock : Clock) (f : Firmware N) :
    (handleMessage received clock f).val =
      {f with
        statusLed := received || f.statusLed
        statusLedFlashStart := flashStart received clock f
        bootStatus := boots received f} := by
  cases received with
  | false => rfl
  | true =>
    by_cases h : f.modeState = ModeBits.boot
    · have h' : f.receiver.modeStatus = ModeBits.boot := h
      simp [handleMessage, flashStart, boots, modeState, rcvBuffer, h']
    · have h' : f.receiver.modeStatus ≠ ModeBits.boot := h
      simp [handleMessage, flashStart, boots, modeState, h']

theorem flashCheck_eq (clock : Clock) (f : Firmware N) :
    flashCheck clock f =
      {f with statusLed := f.statusLed &&
        !decide (clock.check - f.statusLedFlashStart > statusLedFlashDelay)} := by
  unfold flashCheck
  split
  case isTrue late => simp [late]
  case isFalse early => simp [early]

theorem moveWave_val (f : Firmware N) : (moveWave f).val = {f with wavePos := f.moved} := by
  have pos : (advanceWave f).val = f.reached := by
    rw [advanceWave, Checked.val_ite]
    simp only [Checked.val_bind, Checked.val_pure, calcTotalLoad_val, increment, reached]
  rw [moveWave, Checked.val_bind, pos]
  rfl

theorem drawFrame_boot {f : Firmware N} (mode : f.modeState = ModeBits.boot) :
    (drawFrame f).val =
      {f with
        bootStatus := (bootFrame f.bootStatus f.pixels f.strip).val.1
        pixels := (bootFrame f.bootStatus f.pixels f.strip).val.2.1
        strip := (bootFrame f.bootStatus f.pixels f.strip).val.2.2} := by
  rw [drawFrame, if_pos mode]
  rfl

theorem drawFrame_load {f : Firmware N} (mode : f.modeState = ModeBits.load) :
    (drawFrame f).val =
      {f with
        pixels := (loadFrame f.rcvBuffer f.wavePos f.pixels f.strip).val.1
        strip := (loadFrame f.rcvBuffer f.wavePos f.pixels f.strip).val.2} := by
  have other : f.modeState ≠ ModeBits.boot := by
    rw [mode]
    decide
  rw [drawFrame, if_neg other, if_pos mode]
  rfl

theorem drawFrame_other {f : Firmware N} (boot : f.modeState ≠ ModeBits.boot)
    (load : f.modeState ≠ ModeBits.load) : drawFrame f = pure f := by
  rw [drawFrame, if_neg boot, if_neg load]

/-- What is drawn touches neither the messages nor the wave nor the status LED. -/
theorem drawFrame_keeps (f : Firmware N) :
    (drawFrame f).val.receiver = f.receiver ∧ (drawFrame f).val.wavePos = f.wavePos ∧
      (drawFrame f).val.statusLed = f.statusLed ∧
      (drawFrame f).val.statusLedFlashStart = f.statusLedFlashStart := by
  by_cases boot : f.modeState = ModeBits.boot
  · rw [drawFrame_boot boot]
    exact ⟨rfl, rfl, rfl, rfl⟩
  · by_cases load : f.modeState = ModeBits.load
    · rw [drawFrame_load load]
      exact ⟨rfl, rfl, rfl, rfl⟩
    · rw [drawFrame_other boot load]
      exact ⟨rfl, rfl, rfl, rfl⟩

/-- The firmware when it comes to draw. -/
def prepared (received : Bool) (clock : Clock) (f : Firmware N) : Firmware N :=
  {f with
    statusLed := lit received clock f
    statusLedFlashStart := flashStart received clock f
    bootStatus := boots received f
    wavePos := f.moved}

section
variable (received : Bool) (clock : Clock) (f : Firmware N)

theorem prepared_bootStatus : (prepared received clock f).bootStatus = boots received f := rfl
theorem prepared_wavePos : (prepared received clock f).wavePos = f.moved := rfl
theorem prepared_rcvBuffer : (prepared received clock f).rcvBuffer = f.rcvBuffer := rfl
theorem prepared_pixels : (prepared received clock f).pixels = f.pixels := rfl
theorem prepared_strip : (prepared received clock f).strip = f.strip := rfl

theorem loop_val : (loop received clock f).val = (drawFrame (prepared received clock f)).val := by
  show (drawFrame (moveWave (flashCheck clock (handleMessage received clock f).val)).val).val = _
  rw [moveWave_val, flashCheck_eq, handleMessage_val]
  rfl

theorem loop_receiver : (loop received clock f).val.receiver = f.receiver := by
  rw [loop_val, (drawFrame_keeps _).1]
  rfl

theorem loop_wavePos : (loop received clock f).val.wavePos = f.moved := by
  rw [loop_val, (drawFrame_keeps _).2.1]
  rfl

theorem loop_led :
    (loop received clock f).val.statusLed = lit received clock f ∧
      (loop received clock f).val.statusLedFlashStart = flashStart received clock f := by
  obtain ⟨_, _, led, start⟩ := drawFrame_keeps (prepared received clock f)
  rw [loop_val, led, start]
  exact ⟨rfl, rfl⟩

/-- An iteration in BOOT mode. -/
theorem loop_boot (mode : f.modeState = ModeBits.boot) :
    (loop received clock f).val.bootStatus =
        (bootFrame (boots received f) f.pixels f.strip).val.1 ∧
      (loop received clock f).val.pixels =
        (bootFrame (boots received f) f.pixels f.strip).val.2.1 ∧
      (loop received clock f).val.strip =
        (bootFrame (boots received f) f.pixels f.strip).val.2.2 := by
  have here : (prepared received clock f).modeState = ModeBits.boot := mode
  rw [loop_val, drawFrame_boot here]
  simp only [prepared_bootStatus, prepared_pixels, prepared_strip, and_self]

/-- Outside BOOT mode the animations stand still. -/
theorem loop_bootStatus (mode : f.modeState ≠ ModeBits.boot) :
    (loop received clock f).val.bootStatus = f.bootStatus := by
  have still : (prepared received clock f).bootStatus = f.bootStatus :=
    if_neg fun h => mode h.2
  have here : (prepared received clock f).modeState ≠ ModeBits.boot := mode
  by_cases load : (prepared received clock f).modeState = ModeBits.load
  · rw [loop_val, drawFrame_load load]
    exact still
  · rw [loop_val, drawFrame_other here load]
    exact still

/-- An iteration in LOAD mode. -/
theorem loop_load (mode : f.modeState = ModeBits.load) :
    (loop received clock f).val.pixels =
        (loadFrame f.rcvBuffer f.moved f.pixels f.strip).val.1 ∧
      (loop received clock f).val.strip =
        (loadFrame f.rcvBuffer f.moved f.pixels f.strip).val.2 := by
  have here : (prepared received clock f).modeState = ModeBits.load := mode
  rw [loop_val, drawFrame_load here]
  simp only [prepared_wavePos, prepared_rcvBuffer, prepared_pixels, prepared_strip, and_self]

/-- In the other modes nothing is drawn. -/
theorem loop_other (boot : f.modeState ≠ ModeBits.boot) (load : f.modeState ≠ ModeBits.load) :
    (loop received clock f).val.pixels = f.pixels ∧
      (loop received clock f).val.strip = f.strip := by
  have not_boot : (prepared received clock f).modeState ≠ ModeBits.boot := boot
  have not_load : (prepared received clock f).modeState ≠ ModeBits.load := load
  rw [loop_val, drawFrame_other not_boot not_load]
  exact ⟨rfl, rfl⟩

end

/-! ### Events -/

theorem step_rx (c : BitVec 8) (f : Firmware N) :
    (step (.rx c) f).val = {f with receiver := (Receiver.step (.rx c) f.receiver).val} := rfl

theorem step_body (clock : Clock) {f : Firmware N} (h : f.receiver.Condition) :
    (step (.poll clock) f).val =
      {f with receiver := (Receiver.step (.poll clock) f.receiver).val} := by
  rw [step, if_pos h, Receiver.step_body clock h]
  rfl

theorem step_finish (clock : Clock) {f : Firmware N} (h : ¬ f.receiver.Condition) :
    step (.poll clock) f =
      loop f.receiver.finish.1 clock {f with receiver := f.receiver.finish.2} := if_neg h

/-- The receiver in the firmware moves as it does alone. -/
theorem step_receiver (e : Event) (f : Firmware N) :
    (step e f).val.receiver = (Receiver.step e f.receiver).val := by
  cases e with
  | rx c => rfl
  | poll clock =>
    by_cases h : f.receiver.Condition
    · rw [step_body clock h]
    · rw [step_finish clock h, loop_receiver, Receiver.step_finish clock h]

theorem after_receiver (f : Firmware N) (events : List Event) :
    (f.after events).receiver = f.receiver.after events :=
  run_project (fun f => f.receiver) step_receiver f events

theorem bytesRead_receiver (f : Firmware N) (events : List Event) :
    f.bytesRead events = f.receiver.bytesRead events := by
  unfold bytesRead Receiver.bytesRead
  exact trace_project (fun f : Firmware N => f.receiver) step_receiver (fun _ _ => rfl) f events

theorem deliveries_receiver (f : Firmware N) (events : List Event) :
    f.deliveries events = f.receiver.deliveries events := by
  unfold deliveries Receiver.deliveries
  exact trace_project (fun f : Firmware N => f.receiver) step_receiver (fun _ _ => rfl) f events

theorem turns_receiver (f : Firmware N) (events : List Event) :
    f.turns events = f.receiver.turns events := by
  unfold turns Receiver.turns
  exact trace_project (fun f : Firmware N => f.receiver) step_receiver (fun _ _ => rfl) f events

theorem after_cons (f : Firmware N) (e : Event) (rest : List Event) :
    f.after (e :: rest) = (step e f).val.after rest := rfl

theorem turns_cons (f : Firmware N) (e : Event) (rest : List Event) :
    f.turns (e :: rest) = f.receiver.turn e ++ (step e f).val.turns rest := rfl

/-- **Iterations.** A relation between the iterations so far and the firmware holds of
every run if it says nothing of the receiver and every iteration keeps it. -/
theorem turns_history (Rel : List Turn → Firmware N → Prop)
    (quiet : ∀ past f receiver, Rel past f → Rel past {f with receiver := receiver})
    (iteration : ∀ past received clock f, Rel past f →
      Rel (past ++ [⟨received, f.modeState, f.rcvBuffer⟩]) (loop received clock f).val)
    (f : Firmware N) (start : Rel [] f) (events : List Event) :
    Rel (f.turns events) (f.after events) := by
  refine run_history Rel ?_ f start events
  intro past e f h
  cases e with
  | rx c =>
    rw [step_rx, Receiver.turn, List.append_nil]
    exact quiet past f _ h
  | poll clock =>
    by_cases hc : f.receiver.Condition
    · rw [step_body clock hc, Receiver.turn_body clock hc, List.append_nil]
      exact quiet past f _ h
    · rw [step_finish clock hc, Receiver.turn_finish clock hc]
      exact iteration past _ clock _ (quiet past f _ h)

end Firmware

end CofferLed.Sketch
