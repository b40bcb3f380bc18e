import CofferLed.Core.Baud
import CofferLed.Core.HardwareSerial
import CofferLed.Library.Runs

/-! Receiving while interrupts are off.

`show` keeps all interrupts off while a frame goes out, so the bytes that come in meanwhile
wait in the hardware, which has two places for them and loses the rest. `setup` therefore
chooses a rate slow enough. How slow that has to be: a byte has to take longer than a frame
and twice the time that an interrupt may be late, and an interrupt must not be so late that the
next frame begins before it (`nothing_overrun`). Then not even the second place is ever
needed. -/
namespace CofferLed.Core
open Library

/-- All in clock cycles: the least time from the end of one byte to the end of the next, the
most that interrupts are off at a time, the least that they are on between two frames, and the
most that an interrupt is late when they are on. -/
structure Pace where
  gap : Nat
  blackout : Nat
  pause : Nat
  latency : Nat
  fits : blackout + 2 * latency < gap
  served : latency < pause

/-- The receiver of the hardware, and the ring behind it. -/
structure Inbox where
  fifo : List (BitVec 8)
  serial : HardwareSerial
  masked : Bool
  /-- The cycles since the last byte came in, since interrupts were switched, and for which the
  interrupt has been let through and has not come. -/
  since : Nat
  phase : Nat
  late : Nat
  /-- What came in, what the interrupt has fetched, and how many bytes were lost. -/
  arrived : List (BitVec 8)
  fetched : List (BitVec 8)
  lost : Nat

namespace Inbox

/-- Both a byte and a frame may come at once. -/
def reset (pace : Pace) : Inbox :=
  { fifo := [], serial := HardwareSerial.reset, masked := false, since := pace.gap,
    phase := pace.pause, late := 0, arrived := [], fetched := [], lost := 0 }

inductive Event where
  | cycle
  /-- A byte is complete. -/
  | byte (c : BitVec 8)
  /-- `_rx_complete_irq`; reading the data register frees a place. -/
  | irq
  /-- `noInterrupts()` and `interrupts()` of `show`. -/
  | mask
  | unmask

/-- Waiting is over: the clock does not go on before the interrupt has come, or before the frame
has ended. -/
def due (pace : Pace) (b : Inbox) : Bool :=
  if b.masked then pace.blackout ≤ b.phase else b.fifo ≠ [] && pace.latency ≤ b.late

def step (pace : Pace) : Event → Inbox → Inbox
  | .cycle, b =>
    if b.due pace then b
    else
      {b with
        since := b.since + 1
        phase := b.phase + 1
        late := if b.masked || b.fifo = [] then b.late else b.late + 1}
  | .byte c, b =>
    if b.since < pace.gap then b
    else if b.fifo.length < 2 then
      {b with
        fifo := b.fifo ++ [c]
        since := 0
        late := if b.fifo = [] then 0 else b.late
        arrived := b.arrived ++ [c]}
    else {b with since := 0, arrived := b.arrived ++ [c], lost := b.lost + 1}
  | .irq, b =>
    if b.masked then b
    else
      match b.fifo with
      | [] => b
      | c :: rest =>
        {b with
          fifo := rest
          serial := b.serial.rxCompleteIrq false c
          late := 0
          fetched := b.fetched ++ [c]}
  | .mask, b => if b.masked || b.phase < pace.pause then b else {b with masked := true, phase := 0}
  | .unmask, b => if b.masked then {b with masked := false, phase := 0, late := 0} else b

def after (pace : Pace) (b : Inbox) (events : List Event) : Inbox := run (step pace) b events

/-! ### What holds at any time -/

/-- How long a byte that waits has been waiting. -/
structure Timely (pace : Pace) (b : Inbox) : Prop where
  frame : b.masked = true → b.phase ≤ pace.blackout
  off : b.fifo ≠ [] → b.masked = true → b.since ≤ pace.latency + b.phase
  /-- It has come in since interrupts are on, or it has been waiting for them. -/
  on : b.fifo ≠ [] → b.masked = false → b.late ≤ pace.latency ∧
    (b.since = b.late ∨ b.late = b.phase ∧ b.since ≤ pace.latency + pace.blackout + b.late)

structure Sound (pace : Pace) (b : Inbox) : Prop where
  timely : Timely pace b
  one : b.fifo.length ≤ 1
  order : b.fetched ++ b.fifo = b.arrived
  none : b.lost = 0
  ring : b.serial = b.fetched.foldl (fun s c => s.rxCompleteIrq false c) HardwareSerial.reset

variable {pace : Pace}

theorem sound_reset : Sound pace (reset pace) := by
  refine ⟨⟨nofun, fun some => absurd rfl some, fun some => absurd rfl some⟩, Nat.zero_le 1, rfl, rfl,
    rfl⟩

/-- When a byte is complete, the one before it has been fetched. -/
theorem Timely.ready {b : Inbox} (h : Timely pace b) (next : pace.gap ≤ b.since) : b.fifo = [] := by
  by_contra some
  have fits := pace.fits
  cases masked : b.masked with
  | true =>
    have frame := h.frame masked
    have waiting := h.off some masked
    omega
  | false =>
    obtain ⟨late, waiting⟩ := h.on some masked
    omega

/-! ### What a step does to the bytes -/

theorem step_cycle {b : Inbox} (early : b.due pace = false) :
    step pace .cycle b =
      {b with
        since := b.since + 1
        phase := b.phase + 1
        late := if b.masked || b.fifo = [] then b.late else b.late + 1} := by
  rw [step, early, if_neg Bool.false_ne_true]

/-- A byte comes to an empty receiver, or has still to wait. -/
theorem step_byte (c : BitVec 8) {b : Inbox} (h : Timely pace b) :
    step pace (.byte c) b = b ∨
      pace.gap ≤ b.since ∧ b.fifo = [] ∧
        step pace (.byte c) b =
          {b with fifo := [c], since := 0, late := 0, arrived := b.arrived ++ [c]} := by
  rw [step]
  split
  case isTrue => exact .inl rfl
  case isFalse complete =>
    have free := h.ready (Nat.not_lt.mp complete)
    refine .inr ⟨Nat.not_lt.mp complete, free, ?_⟩
    rw [if_pos (by rw [free]; decide), if_pos free, free, List.nil_append]

/-- The interrupt takes the byte that waits, if there is one and interrupts are on. -/
theorem step_irq {b : Inbox} (one : b.fifo.length ≤ 1) :
    (b.masked = true ∨ b.fifo = []) ∧ step pace .irq b = b ∨
      ∃ c, b.masked = false ∧ b.fifo = [c] ∧
        step pace .irq b =
          {b with
            fifo := []
            serial := b.serial.rxCompleteIrq false c
            late := 0
            fetched := b.fetched ++ [c]} := by
  rw [step]
  split
  case isTrue masked => exact .inl ⟨.inl masked, rfl⟩
  case isFalse masked =>
    split
    case h_1 none => exact .inl ⟨.inr none, rfl⟩
    case h_2 c rest waiting =>
      rw [waiting] at one
      obtain rfl : rest = [] :=
        List.eq_nil_of_length_eq_zero (Nat.le_zero.mp (Nat.le_of_succ_le_succ one))
      exact .inr ⟨c, Bool.not_eq_true _ ▸ masked, waiting, rfl⟩

/-- Switching interrupts leaves the bytes alone. -/
theorem switch_keeps (pace : Pace) {e : Event} (switch : e = .mask ∨ e = .unmask) (b : Inbox) :
    (step pace e b).fifo = b.fifo ∧ (step pace e b).arrived = b.arrived ∧
      (step pace e b).since = b.since := by
  rcases switch with rfl | rfl
  all_goals
    rw [step]
    split <;> exact ⟨rfl, rfl, rfl⟩

/-! ### Every step keeps it -/

theorem sound_step (e : Event) (b : Inbox) (h : Sound pace b) : Sound pace (step pace e b) := by
  have frame := h.timely.frame
  have off := h.timely.off
  have on := h.timely.on
  cases e with
  | cycle =>
    rw [step]
    split
    · exact h
    case isFalse early =>
      refine ⟨⟨?_, ?_, ?_⟩, h.one, h.order, h.none, h.ring⟩
      · intro masked
        have running : b.phase < pace.blackout := by
          simpa only [due, show b.masked = true from masked, if_true, decide_eq_true_eq,
            Nat.not_le] using early
        exact running
      · intro some masked
        have waiting := off some masked
        dsimp only
        omega
      · intro some masked
        have some : b.fifo ≠ [] := some
        have masked : b.masked = false := masked
        obtain ⟨late, waiting⟩ := on some masked
        have running : b.late < pace.latency := by
          simpa [due, masked, some] using early
        dsimp only
        rw [masked, decide_eq_false some, Bool.or_self, if_neg Bool.false_ne_true]
        omega
  | byte c =>
    rcases step_byte c h.timely with same | ⟨_, free, came⟩
    · rwa [same]
    · have order := h.order
      rw [free, List.append_nil] at order
      rw [came]
      refine ⟨⟨frame, ?_, ?_⟩, Nat.le_refl 1, ?_, h.none, h.ring⟩
      · intro _ masked
        exact Nat.zero_le _
      · intro _ _
        exact ⟨Nat.zero_le _, .inl rfl⟩
      · show b.fetched ++ [c] = b.arrived ++ [c]
        rw [order]
  | irq =>
    rcases step_irq h.one with ⟨_, same⟩ | ⟨c, _, waiting, taken⟩
    · rwa [same]
    · have order := h.order
      rw [waiting] at order
      rw [taken]
      refine ⟨⟨frame, fun some => absurd rfl some, fun some => absurd rfl some⟩, Nat.zero_le 1, ?_,
        h.none, ?_⟩
      · rw [List.append_nil]
        exact order
      · rw [List.foldl_append, ← h.ring]
        rfl
  | mask =>
    rw [step]
    split
    · exact h
    case isFalse switches =>
      rw [Bool.or_eq_true, not_or, Bool.not_eq_true, decide_eq_true_eq, Nat.not_lt] at switches
      obtain ⟨masked, long⟩ := switches
      have served := pace.served
      refine ⟨⟨fun _ => Nat.zero_le _, fun some _ => ?_, nofun⟩, h.one, h.order, h.none, h.ring⟩
      obtain ⟨late, waiting⟩ := on some masked
      dsimp only
      omega
  | unmask =>
    rw [step]
    split
    case isTrue masked =>
      refine ⟨⟨nofun, nofun, fun some _ => ⟨Nat.zero_le _, .inr ⟨rfl, ?_⟩⟩⟩, h.one, h.order, h.none,
        h.ring⟩
      have waiting := off some masked
      have ended := frame masked
      dsimp only
      omega
    case isFalse => exact h

theorem sound_run (events : List Event) : Sound pace ((reset pace).after pace events) :=
  run_invariant (Sound pace) sound_step (reset pace) sound_reset events

end Inbox

/-- The pace of the sketch, with `N` LEDs: bytes of ten bits at 2400 baud, and frames of 160 cycles
for each of the three bytes of an LED, with what `show` does `around` them. `canShow` lets 75
ticks of the timer pass between two frames (`Driver.pauses_long_enough`), so at least 74 whole
ones, of 64 cycles. The few cycles for which `millis` and `micros` keep interrupts off are part of
the latency. -/
def sketchPace (N around latency : Nat) (fits : 480 * N + around + 2 * latency < 66640)
    (served : latency < 4736) : Pace :=
  { gap := 10 * (Usart.begin 2400 0x06).val.bitCycles
    blackout := 160 * (3 * N) + around
    pause := 74 * 64
    latency
    fits := by
      have bit : (Usart.begin 2400 0x06).val.bitCycles = 6664 := by decide
      rw [bit]
      omega
    served }

namespace Inbox

/-- **Nothing is lost while a frame goes out.** A sender that keeps to 2400 baud, a strip of `N`
LEDs and interrupts that come within `latency`: as long as a frame and twice that take less
than a byte, and that less than the pause between two frames, every byte is fetched into the
ring's handler, in order and before the next one is complete, whatever the order of bytes,
frames and interrupts. -/
theorem nothing_overrun (N around latency : Nat) (fits : 480 * N + around + 2 * latency < 66640)
    (served : latency < 4736) (events : List Event) :
    let pace := sketchPace N around latency fits served
    let b := (reset pace).after pace events
    b.lost = 0 ∧ b.fetched ++ b.fifo = b.arrived ∧ b.fifo.length ≤ 1 ∧
      b.serial = b.fetched.foldl (fun s c => s.rxCompleteIrq false c) HardwareSerial.reset := by
  intro pace b
  have sound : Sound pace b := sound_run events
  exact ⟨sound.none, sound.order, sound.one, sound.ring⟩

/-- A byte that comes while a frame of the sketch's strip goes out. -/
theorem nothing_overrun_coffer :
    let pace := sketchPace 98 100 4700 (by decide) (by decide)
    let begun := (reset pace).after pace [.mask, .cycle, .byte 0xf1, .cycle]
    let b := begun.after pace [.unmask, .irq]
    begun.masked = true ∧ begun.fifo = [0xf1] ∧ b.lost = 0 ∧ b.fetched ++ b.fifo = [0xf1] := by
  intro pace begun b
  obtain ⟨lost, order, -⟩ := nothing_overrun 98 100 4700 (by decide) (by decide)
    [.mask, .cycle, .byte 0xf1, .cycle, .unmask, .irq]
  exact ⟨rfl, rfl, lost, order⟩

end Inbox

end CofferLed.Core
