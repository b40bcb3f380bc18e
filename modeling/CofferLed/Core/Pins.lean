import CofferLed.Core.Chain

/-! The pins, behind the registers of the ports.

A pin is a bit of three ports' registers, and some pins are a bit of a timer's as well, next
to the bits that keep the clock running. `pinMode`, `digitalWrite` and `digitalRead` change
whole registers, with tables for which bit is meant. Seen from outside there are only pins:
each is where the calls for it have left it, whatever was called for the others
(`pins_apart`). -/
namespace CofferLed.Core
open Library

inductive Port where
  | pb | pc | pd
  deriving DecidableEq

inductive Timer where
  | notOnTimer | timer0A | timer0B | timer1A | timer1B | timer2A | timer2B
  deriving DecidableEq

/-- The digital pins of the standard variant, with the analog inputs as 14 to 19. -/
abbrev Pin := Fin 20

def digitalPinToPort (pin : Pin) : Port :=
  #v[.pd, .pd, .pd, .pd, .pd, .pd, .pd, .pd,
    .pb, .pb, .pb, .pb, .pb, .pb,
    .pc, .pc, .pc, .pc, .pc, .pc].get pin

def bv (bit : Nat) : BitVec 8 := 1 <<< bit

def digitalPinToBitMask (pin : Pin) : BitVec 8 :=
  #v[bv 0, bv 1, bv 2, bv 3, bv 4, bv 5, bv 6, bv 7,
    bv 0, bv 1, bv 2, bv 3, bv 4, bv 5,
    bv 0, bv 1, bv 2, bv 3, bv 4, bv 5].get pin

def digitalPinToTimer (pin : Pin) : Timer :=
  #v[.notOnTimer, .notOnTimer, .notOnTimer, .timer2B, .notOnTimer, .timer0B, .timer0A,
    .notOnTimer,
    .notOnTimer, .timer1A, .timer1B, .timer2A, .notOnTimer, .notOnTimer,
    .notOnTimer, .notOnTimer, .notOnTimer, .notOnTimer, .notOnTimer, .notOnTimer].get pin

def Level.low : BitVec 8 := 0
def Level.high : BitVec 8 := 1

def Mode.input : BitVec 8 := 0
def Mode.output : BitVec 8 := 1
def Mode.inputPullup : BitVec 8 := 2

def com0a1 : Nat := 7
def com0b1 : Nat := 5
def com1a1 : Nat := 7
def com1b1 : Nat := 5
def com2a1 : Nat := 7
def com2b1 : Nat := 5

structure Registers where
  /-- `DDRB` to `DDRD` and `PORTB` to `PORTD`. -/
  mode : Port → BitVec 8
  output : Port → BitVec 8
  tccr0a : BitVec 8
  tccr1a : BitVec 8
  tccr2a : BitVec 8

namespace Registers

/-- After reset and `init`, which sets the waveform bits of the timers. -/
def reset : Registers := ⟨fun _ => 0, fun _ => 0, bv 1 ||| bv 0, bv 0, bv 0⟩

def cbi (sfr : BitVec 8) (bit : Nat) : BitVec 8 := sfr &&& ~~~(bv bit)

/-- `digitalPinToPort` is never `NOT_A_PIN` here. The status register is saved and restored
around each of the three writes. -/
def pinMode (pin : Pin) (mode : BitVec 8) (r : Registers) : Registers :=
  let bit := digitalPinToBitMask pin
  let port := digitalPinToPort pin
  if mode = Mode.input then
    {r with
      mode := Function.update r.mode port (r.mode port &&& ~~~bit)
      output := Function.update r.output port (r.output port &&& ~~~bit)}
  else if mode = Mode.inputPullup then
    {r with
      mode := Function.update r.mode port (r.mode port &&& ~~~bit)
      output := Function.update r.output port (r.output port ||| bit)}
  else {r with mode := Function.update r.mode port (r.mode port ||| bit)}

def turnOffPWM (timer : Timer) (r : Registers) : Registers :=
  match timer with
  | .timer1A => {r with tccr1a := cbi r.tccr1a com1a1}
  | .timer1B => {r with tccr1a := cbi r.tccr1a com1b1}
  | .timer0A => {r with tccr0a := cbi r.tccr0a com0a1}
  | .timer0B => {r with tccr0a := cbi r.tccr0a com0b1}
  | .timer2A => {r with tccr2a := cbi r.tccr2a com2a1}
  | .timer2B => {r with tccr2a := cbi r.tccr2a com2b1}
  | .notOnTimer => r

def digitalWrite (pin : Pin) (val : BitVec 8) (r : Registers) : Registers :=
  let timer := digitalPinToTimer pin
  let bit := digitalPinToBitMask pin
  let port := digitalPinToPort pin
  let r := if timer ≠ .notOnTimer then turnOffPWM timer r else r
  if val = Level.low then {r with output := Function.update r.output port (r.output port &&& ~~~bit)}
  else {r with output := Function.update r.output port (r.output port ||| bit)}

/-- `input` is what the port's input register shows. -/
def digitalRead (pin : Pin) (input : Port → BitVec 8) (r : Registers) : BitVec 8 × Registers :=
  let timer := digitalPinToTimer pin
  let r := if timer ≠ .notOnTimer then turnOffPWM timer r else r
  (if input (digitalPinToPort pin) &&& digitalPinToBitMask pin ≠ 0 then Level.high else Level.low, r)

inductive Call where
  | pinMode (pin : Pin) (mode : BitVec 8)
  | digitalWrite (pin : Pin) (val : BitVec 8)
  | digitalRead (pin : Pin) (input : Port → BitVec 8)

def Call.pin : Call → Pin
  | .pinMode pin _ | .digitalWrite pin _ | .digitalRead pin _ => pin

def step : Call → Registers → Registers
  | .pinMode pin mode, r => pinMode pin mode r
  | .digitalWrite pin val, r => digitalWrite pin val r
  | .digitalRead pin input, r => (digitalRead pin input r).2

def after (r : Registers) (calls : List Call) : Registers := run step r calls

end Registers

/-! ### A pin on its own -/

/-- A pin is driven or not, to a level (as an input, pulled up or not), by its port or by its
timer. -/
structure PinState where
  driven : Bool
  level : Bool
  pwm : Bool
  deriving DecidableEq

namespace PinState
open Registers

def step : Call → PinState → PinState
  | .pinMode _ mode, s =>
    if mode = Mode.input then {s with driven := false, level := false}
    else if mode = Mode.inputPullup then {s with driven := false, level := true}
    else {s with driven := true}
  | .digitalWrite _ val, s => {s with level := val != Level.low, pwm := false}
  | .digitalRead _ _, s => {s with pwm := false}

def after (s : PinState) (calls : List Call) : PinState := run step s calls

end PinState

namespace Registers

/-- Whether the timer drives its pin. -/
def compareOutput (r : Registers) : Timer → Bool
  | .timer1A => r.tccr1a.getLsbD com1a1
  | .timer1B => r.tccr1a.getLsbD com1b1
  | .timer0A => r.tccr0a.getLsbD com0a1
  | .timer0B => r.tccr0a.getLsbD com0b1
  | .timer2A => r.tccr2a.getLsbD com2a1
  | .timer2B => r.tccr2a.getLsbD com2b1
  | .notOnTimer => false

def pin (r : Registers) (pin : Pin) : PinState :=
  { driven := pinLevel (digitalPinToBitMask pin) (r.mode (digitalPinToPort pin))
    level := pinLevel (digitalPinToBitMask pin) (r.output (digitalPinToPort pin))
    pwm := r.compareOutput (digitalPinToTimer pin) }

/-! ### The tables -/

theorem bitMask_ne_zero : ∀ pin, digitalPinToBitMask pin ≠ 0 := by decide

/-- No two pins share a bit. -/
theorem bitMask_apart : ∀ pin other, pin ≠ other → digitalPinToPort pin = digitalPinToPort other →
    digitalPinToBitMask pin &&& digitalPinToBitMask other = 0 := by decide

/-- No two pins share a timer's output. -/
theorem timer_apart : ∀ pin other, pin ≠ other → digitalPinToTimer pin = digitalPinToTimer other →
    digitalPinToTimer pin = .notOnTimer := by decide

/-! ### One bit of a register -/

theorem pinLevel_set_other {bit other : BitVec 8} (apart : bit &&& other = 0) (sfr : BitVec 8) :
    pinLevel other (sfr ||| bit) = pinLevel other sfr := by
  have same : (sfr ||| bit) &&& other = sfr &&& other := by
    ext i hi
    have here := congrArg (·[i]) apart
    simp only [BitVec.getElem_and, BitVec.getElem_or] at here ⊢
    cases h : bit[i] <;> simp_all
  rw [pinLevel, pinLevel, same]

theorem pinLevel_clear_other {bit other : BitVec 8} (apart : bit &&& other = 0) (sfr : BitVec 8) :
    pinLevel other (sfr &&& ~~~bit) = pinLevel other sfr := by
  have same : (sfr &&& ~~~bit) &&& other = sfr &&& other := by
    ext i hi
    have here := congrArg (·[i]) apart
    simp only [BitVec.getElem_and, BitVec.getElem_not] at here ⊢
    cases h : bit[i] <;> simp_all
  rw [pinLevel, pinLevel, same]

theorem pinLevel_clear (bit sfr : BitVec 8) : pinLevel bit (sfr &&& ~~~bit) = false := by
  apply pinLevel_off
  rw [BitVec.and_assoc, BitVec.and_comm _ bit, BitVec.and_not_self]
  exact BitVec.and_zero

section
variable (sfrs : Port → BitVec 8) (pin other : Pin)

/-- The registers of the ports with the bit of a pin set. -/
theorem level_set :
    pinLevel (digitalPinToBitMask other)
        (Function.update sfrs (digitalPinToPort pin)
          (sfrs (digitalPinToPort pin) ||| digitalPinToBitMask pin) (digitalPinToPort other)) =
      if pin = other then true
      else pinLevel (digitalPinToBitMask other) (sfrs (digitalPinToPort other)) := by
  split
  case isTrue same =>
    subst same
    rw [Function.update_self]
    exact pinLevel_on _ (bitMask_ne_zero pin)
  case isFalse differ =>
    by_cases port : digitalPinToPort pin = digitalPinToPort other
    · rw [← port, Function.update_self, pinLevel_set_other (bitMask_apart pin other differ port)]
    · rw [Function.update_of_ne (Ne.symm port)]

theorem level_clear :
    pinLevel (digitalPinToBitMask other)
        (Function.update sfrs (digitalPinToPort pin)
          (sfrs (digitalPinToPort pin) &&& ~~~digitalPinToBitMask pin) (digitalPinToPort other)) =
      if pin = other then false
      else pinLevel (digitalPinToBitMask other) (sfrs (digitalPinToPort other)) := by
  split
  case isTrue same =>
    subst same
    rw [Function.update_self]
    exact pinLevel_clear _ _
  case isFalse differ =>
    by_cases port : digitalPinToPort pin = digitalPinToPort other
    · rw [← port, Function.update_self, pinLevel_clear_other (bitMask_apart pin other differ port)]
    · rw [Function.update_of_ne (Ne.symm port)]

end

/-! ### A timer's outputs -/

theorem cbi_bit (sfr : BitVec 8) (bit other : Nat) (byte : bit < 8) :
    (cbi sfr bit).getLsbD other = (sfr.getLsbD other && decide (other ≠ bit)) := by
  have one : (bv bit).getLsbD other = decide (other = bit) := by
    have power : bv bit = BitVec.twoPow 8 bit := rfl
    rw [power, BitVec.getLsbD_twoPow]
    simp [byte, eq_comm]
  by_cases inside : other < 8
  · simp only [cbi, BitVec.getLsbD_and, BitVec.getLsbD_not, one, inside, decide_true,
      Bool.true_and, decide_not]
  · simp [cbi, BitVec.getLsbD_of_ge sfr other (by omega)]

theorem compareOutput_turnOffPWM (r : Registers) (timer other : Timer) :
    (turnOffPWM timer r).compareOutput other = (r.compareOutput other && decide (other ≠ timer)) := by
  cases timer <;> cases other <;>
    simp [-BitVec.getLsbD_eq_getElem, turnOffPWM, compareOutput, cbi_bit, com0a1, com0b1, com1a1,
      com1b1, com2a1, com2b1]

/-- The timer is turned off for its own pin and for no other. -/
theorem pwm_turnOffPWM (r : Registers) (pin other : Pin) :
    (turnOffPWM (digitalPinToTimer pin) r).compareOutput (digitalPinToTimer other) =
      if pin = other then false else r.compareOutput (digitalPinToTimer other) := by
  rw [compareOutput_turnOffPWM]
  split
  case isTrue same =>
    subst same
    simp
  case isFalse differ =>
    by_cases timer : digitalPinToTimer other = digitalPinToTimer pin
    · have off := timer_apart other pin (Ne.symm differ) timer
      rw [off]
      rfl
    · simp [timer]

/-! ### The calls -/

theorem turnOffPWM_not_on (r : Registers) (timer : Timer) :
    (if timer ≠ .notOnTimer then turnOffPWM timer r else r) = turnOffPWM timer r := by
  split
  · rfl
  case isFalse off =>
    rw [not_not.mp off]
    rfl

@[simp] theorem turnOffPWM_mode (r : Registers) (timer : Timer) :
    (turnOffPWM timer r).mode = r.mode := by
  cases timer <;> rfl

@[simp] theorem turnOffPWM_output (r : Registers) (timer : Timer) :
    (turnOffPWM timer r).output = r.output := by
  cases timer <;> rfl

theorem digitalWrite_eq (pin : Pin) (val : BitVec 8) (r : Registers) :
    digitalWrite pin val r =
      {turnOffPWM (digitalPinToTimer pin) r with
        output := Function.update r.output (digitalPinToPort pin)
          (if val = Level.low then r.output (digitalPinToPort pin) &&& ~~~digitalPinToBitMask pin
          else r.output (digitalPinToPort pin) ||| digitalPinToBitMask pin)} := by
  rw [digitalWrite]
  dsimp only
  rw [turnOffPWM_not_on, turnOffPWM_output]
  split <;> rfl

section
variable (pin other : Pin) (val : BitVec 8) (r : Registers)

theorem digitalWrite_mode : (digitalWrite pin val r).mode = r.mode := by
  rw [digitalWrite_eq]
  exact turnOffPWM_mode r _

theorem digitalWrite_level :
    pinLevel (digitalPinToBitMask other) ((digitalWrite pin val r).output (digitalPinToPort other)) =
      if pin = other then val != Level.low
      else pinLevel (digitalPinToBitMask other) (r.output (digitalPinToPort other)) := by
  rw [digitalWrite_eq]
  dsimp only
  by_cases low : val = Level.low
  · rw [if_pos low, level_clear, low]
    rfl
  · rw [if_neg low, level_set, bne_iff_ne.mpr low]

theorem digitalWrite_pwm :
    (digitalWrite pin val r).compareOutput (digitalPinToTimer other) =
      if pin = other then false else r.compareOutput (digitalPinToTimer other) := by
  rw [← pwm_turnOffPWM, digitalWrite_eq]
  cases digitalPinToTimer other <;> rfl

end

/-- A call is about its pin, and for the others nothing has happened. -/
theorem pin_step (c : Call) (r : Registers) (other : Pin) :
    (step c r).pin other = if c.pin = other then (r.pin other).step c else r.pin other := by
  cases c with
  | pinMode pin mode =>
    rw [step, pinMode, PinState.step, Call.pin]
    split
    · simp only [Registers.pin, level_clear, compareOutput]
      split <;> rfl
    split
    · simp only [Registers.pin, level_clear, level_set]
      split <;> rfl
    · simp only [Registers.pin, level_set]
      split <;> rfl
  | digitalWrite pin val =>
    rw [step, Registers.pin, digitalWrite_mode, digitalWrite_level, digitalWrite_pwm, Call.pin]
    split <;> rfl
  | digitalRead pin input =>
    rw [step, digitalRead, turnOffPWM_not_on, PinState.step, Call.pin]
    simp only [Registers.pin, turnOffPWM_mode, turnOffPWM_output, pwm_turnOffPWM]
    split <;> rfl

/-- The bits of the timers that belong to no pin. -/
def clock (r : Registers) : BitVec 8 × BitVec 8 × BitVec 8 :=
  (r.tccr0a &&& 0x5f, r.tccr1a &&& 0x5f, r.tccr2a &&& 0x5f)

theorem cbi_clock (sfr : BitVec 8) {bit : Nat} (compare : bit = 7 ∨ bit = 5) :
    cbi sfr bit &&& 0x5f = sfr &&& 0x5f := by
  have kept : ~~~(bv bit) &&& 0x5f = 0x5f := by
    rcases compare with rfl | rfl <;> decide
  rw [cbi, BitVec.and_assoc, kept]

theorem clock_turnOffPWM (r : Registers) (timer : Timer) : (turnOffPWM timer r).clock = r.clock := by
  cases timer
  all_goals
    simp only [turnOffPWM, clock]
    repeat rw [cbi_clock]
  all_goals decide

theorem clock_step (c : Call) (r : Registers) : (step c r).clock = r.clock := by
  cases c with
  | pinMode pin mode =>
    rw [step, pinMode]
    split
    · rfl
    · split <;> rfl
  | digitalWrite pin val =>
    rw [step, digitalWrite_eq]
    exact clock_turnOffPWM r _
  | digitalRead pin input =>
    rw [step, digitalRead, turnOffPWM_not_on]
    exact clock_turnOffPWM r _

theorem pin_after (calls : List Call) (r : Registers) (pin : Pin) :
    (r.after calls).pin pin = (r.pin pin).after (calls.filter (·.pin = pin)) := by
  induction calls generalizing r with
  | nil => rfl
  | cons c rest ih =>
    rw [after, run]
    refine (ih (step c r)).trans ?_
    rw [pin_step]
    by_cases own : c.pin = pin
    · rw [if_pos own, List.filter_cons_of_pos (by simpa using own)]
      rfl
    · rw [if_neg own, List.filter_cons_of_neg (by simpa using own)]

theorem clock_after (calls : List Call) (r : Registers) : (r.after calls).clock = r.clock :=
  run_invariant (fun s => s.clock = r.clock) (fun c s same => (clock_step c s).trans same) r rfl calls

/-- **The pins.** After any calls, from any state of the registers, a pin is what the calls for
it, in their order, have made of it; those for the other pins have not touched it. And no
call has touched the bits that keep the timers, and the clock, running. -/
theorem pins_apart (calls : List Call) (r : Registers) :
    (∀ pin, (r.after calls).pin pin = (r.pin pin).after (calls.filter (·.pin = pin))) ∧
      (r.after calls).clock = r.clock :=
  ⟨pin_after calls r, clock_after calls r⟩

end Registers

end CofferLed.Core
