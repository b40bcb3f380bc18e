import CofferLed.Core.Pins
import CofferLed.Sketch.Loop

/-! The sketch on its board: the calls that it makes for its two pins.

`setup` readies the pin of the strip and that of the status LED, an iteration switches the
status LED on and off, and at its end the strip is sent, which writes the whole port of its
pin over and over. The pins come out of this as the sketch means them: the status LED is
what the firmware has it as, and the strip's pin is low whenever a frame begins, which is what
the frame needs (`board_pins`).

The registers are those of the ports and timers. `Serial.begin` also hands pins 0 and 1 to the
USART, in registers of its own. -/
namespace CofferLed.Effects
open Library Avr CofferLed.Core Registers Show Sketch

variable {N : Nat}

def ledPin : Pin := 6
def statusLedPin : Pin := 13

/-- `g_strip.begin()` and the last line of `setup`. -/
def setupCalls : List Call :=
  [.pinMode ledPin Mode.output, .digitalWrite ledPin Level.low, .pinMode statusLedPin Mode.output]

/-- The calls of an iteration, which end in `flashCheck`. -/
def loopCalls (received : Bool) (clock : Clock) (f : Firmware N) : List Call :=
  let f' := (Firmware.handleMessage received clock f).val
  (if received then [.digitalWrite statusLedPin Level.high] else []) ++
    if clock.check - f'.statusLedFlashStart > statusLedFlashDelay then
      [.digitalWrite statusLedPin Level.low]
    else []

def calls : Event → Firmware N → List Call
  | .rx _, _ => []
  | .poll clock, f =>
    if f.receiver.Condition then []
    else loopCalls f.receiver.finish.1 clock {f with receiver := f.receiver.finish.2}

structure Board (N : Nat) where
  firmware : Firmware N
  registers : Registers

namespace Board

def powerUp (N : Nat) (millis : BitVec 32) : Board N :=
  ⟨Firmware.powerUp N millis, Registers.reset.after setupCalls⟩

def step (e : Event) (b : Board N) : Board N :=
  ⟨(Firmware.step e b.firmware).val, b.registers.after (calls e b.firmware)⟩

def after (b : Board N) (events : List Event) : Board N := run step b events

theorem after_firmware (b : Board N) (events : List Event) :
    (b.after events).firmware = b.firmware.after events :=
  run_project firmware (fun _ _ => rfl) b events

/-! ### The pins -/

/-- The calls of an iteration are for the status LED, and leave it as the firmware has it. -/
theorem loopCalls_led (received : Bool) (clock : Clock) (f : Firmware N) (r : Registers)
    (driven : r.pin statusLedPin = ⟨true, f.statusLed, false⟩) :
    (r.after (loopCalls received clock f)).pin statusLedPin =
      ⟨true, Firmware.lit received clock f, false⟩ := by
  have start : (Firmware.handleMessage received clock f).val.statusLedFlashStart =
      Firmware.flashStart received clock f := by
    rw [Firmware.handleMessage_val]
  rw [pin_after, driven, loopCalls, start, Firmware.lit]
  generalize f.statusLed = led
  by_cases late : clock.check - Firmware.flashStart received clock f > statusLedFlashDelay
  · rw [if_pos late, decide_eq_true late]
    cases received <;> cases led <;> rfl
  · rw [if_neg late, decide_eq_false late]
    cases received <;> cases led <;> rfl

/-- No call of an iteration is for another pin. -/
theorem loopCalls_pin (received : Bool) (clock : Clock) (f : Firmware N) :
    ∀ c ∈ loopCalls received clock f, c.pin = statusLedPin := by
  intro c among
  rw [loopCalls, List.mem_append] at among
  rcases among with on | off
  · split at on
    · rw [List.mem_singleton.mp on]
      rfl
    · cases on
  · split at off
    · rw [List.mem_singleton.mp off]
      rfl
    · cases off

theorem calls_pin (e : Event) (f : Firmware N) : ∀ c ∈ calls e f, c.pin = statusLedPin := by
  unfold calls
  split
  · nofun
  · split
    · nofun
    · exact loopCalls_pin _ _ _

/-- What the firmware makes of the registers. -/
structure Wired (b : Board N) : Prop where
  led : b.registers.pin statusLedPin = ⟨true, b.firmware.statusLed, false⟩
  strip : b.registers.pin ledPin = ⟨true, false, false⟩
  others : ∀ pin, pin ≠ statusLedPin → pin ≠ ledPin → b.registers.pin pin = ⟨false, false, false⟩
  clock : b.registers.clock = Registers.reset.clock

theorem wired_powerUp (N : Nat) (millis : BitVec 32) : Wired (powerUp N millis) := by
  have ready : let r := Registers.reset.after setupCalls
      r.pin statusLedPin = ⟨true, false, false⟩ ∧ r.pin ledPin = ⟨true, false, false⟩ ∧
        ∀ pin, pin ≠ statusLedPin → pin ≠ ledPin → r.pin pin = ⟨false, false, false⟩ := by
    decide
  exact ⟨ready.1, ready.2.1, ready.2.2, clock_after _ _⟩

theorem wired_step (e : Event) (b : Board N) (h : Wired b) : Wired (step e b) := by
  have kept (pin : Pin) (other : pin ≠ statusLedPin) :
      (step e b).registers.pin pin = b.registers.pin pin := by
    have none : (calls e b.firmware).filter (·.pin = pin) = [] := by
      rw [List.filter_eq_nil_iff]
      intro c among
      rw [calls_pin e b.firmware c among]
      simpa using Ne.symm other
    rw [step, pin_after, none]
    rfl
  refine ⟨?_, ?_, ?_, (clock_after _ _).trans h.clock⟩
  · cases e with
    | rx c =>
      rw [step, calls, Firmware.step_rx]
      exact h.led
    | poll clock =>
      by_cases more : b.firmware.receiver.Condition
      · rw [step, calls, if_pos more, Firmware.step_body clock more]
        exact h.led
      · rw [step, calls, if_neg more, Firmware.step_finish clock more, (Firmware.loop_led _ _ _).1]
        exact loopCalls_led _ _ _ _ h.led
  · rw [kept ledPin (by decide)]
    exact h.strip
  · intro pin notLed notStrip
    rw [kept pin notLed]
    exact h.others pin notLed notStrip

theorem wired_run (millis : BitVec 32) (events : List Event) :
    Wired ((powerUp N millis).after events) :=
  run_invariant Wired wired_step _ (wired_powerUp N millis) events

/-- **The board.** In any run from power-up the status LED's pin is driven to what the firmware
has the status LED as, the strip's pin is driven low between the frames, and every other pin and
the timers are as `init` left them. A frame sent now finds what it needs: it ends, leaves the
memory as it was, and on the way moves no pin of its port but its own. -/
theorem board_pins (some_pixel : 0 < N) (fits : 3 * N < 2 ^ 16) (millis : BitVec 32)
    (events : List Event) (address pixels : BitVec 16) (mem : BitVec 16 → BitVec 8)
    (zero carry : Bool)
    (port : mem address =
      ((powerUp N millis).after events).registers.output (digitalPinToPort ledPin))
    (buffer : Buffer mem address pixels
      ((powerUp N millis).after events).firmware.strip.1.pixels.toList) :
    let b := (powerUp N millis).after events
    let begun := start address pixels (digitalPinToBitMask ledPin) (BitVec.ofNat 16 (3 * N)) mem
      zero carry
    b.firmware = (Firmware.powerUp N millis).after events ∧ Wired b ∧
      ∃ enough, ∀ n, enough ≤ n →
        (Avr.after code n begun).rest = [] ∧ (Avr.after code n begun).core.mem = mem ∧
          ∀ level ∈ wave code address n begun, ∀ pin, pin ≠ ledPin →
            digitalPinToPort pin = digitalPinToPort ledPin →
              pinLevel (digitalPinToBitMask pin) level = (b.registers.pin pin).level := by
  intro b begun
  have wired : Wired b := wired_run millis events
  have size : b.firmware.strip.1.pixels.toList.length = 3 * N := Vector.length_toList
  have low : mem address &&& digitalPinToBitMask ledPin = 0 := by
    have off : pinLevel (digitalPinToBitMask ledPin) (mem address) = false := by
      rw [port]
      exact congrArg PinState.level wired.strip
    simpa [pinLevel] using off
  obtain ⟨enough, stable⟩ := bytes_sent address pixels (digitalPinToBitMask ledPin) zero carry
    b.firmware.strip.1.pixels.toList (List.ne_nil_of_length_pos (by omega)) (by omega) buffer low
  rw [size] at stable
  refine ⟨after_firmware _ events, wired, enough, fun n le => ?_⟩
  obtain ⟨ended, same, whole⟩ := stable n le
  refine ⟨ended, same, fun level among pin other beside => ?_⟩
  have sent := List.mem_append_left [mem address] among
  rw [whole] at sent
  obtain ⟨byte, -, pulse⟩ := List.mem_flatMap.mp sent
  have apart := bitMask_apart ledPin pin (Ne.symm other) beside.symm
  have still : pinLevel (digitalPinToBitMask pin) level =
      pinLevel (digitalPinToBitMask pin) (mem address) := by
    rcases pulses_level pulse with rfl | rfl
    · exact pinLevel_set_other apart _
    · rfl
  rw [still, port, ← beside]
  rfl

theorem board_pins_coffer :
    let b := (powerUp 98 0).after [.rx 0xf1, .poll ⟨7, 7⟩, .poll ⟨9, 9⟩]
    Wired b := by
  intro b
  have size : b.firmware.strip.1.pixels.toList.length = 294 := Vector.length_toList
  exact (board_pins (by decide) (by decide) 0 _ 0x2b 0x200
    (memory 0x2b (b.registers.output .pd) 0x200 b.firmware.strip.1.pixels.toList) false false
    (if_pos rfl) (buffer_memory _ _ _ _ (by rw [size]; decide))).2.1

end Board

end CofferLed.Effects
