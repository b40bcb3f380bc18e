import CofferLed.Library.Runs
import Mathlib.Algebra.Group.Nat.Defs

/-! The clock of `wiring.c`: `millis` and `micros`.

Timer 0 counts up every 64 cycles, which is four microseconds at 16 MHz, and sets a flag
when it wraps. The overflow interrupt clears the flag and moves the program's counters on. It
comes when interrupts are enabled, so the flag may stay up for some time, and a second wrap
in that time is lost. `clock_of_ticks` says what the two functions make of it. -/
namespace CofferLed.Core
open Library

def microsecondsPerTimer0Overflow : Nat := 64 * 256 / 16
def millisInc : Nat := microsecondsPerTimer0Overflow / 1000
def fractInc : Nat := (microsecondsPerTimer0Overflow % 1000) >>> 3
def fractMax : Nat := 1000 >>> 3

structure Timer0 where
  tcnt0 : BitVec 8
  tov0 : Bool
  timer0OverflowCount : BitVec 32
  timer0Millis : BitVec 32
  timer0Fract : BitVec 8
  /-- What has happened so far, which nothing in the program holds: all the ticks, the
  overflows served, and those that found the flag still up. -/
  ticks : Nat
  served : Nat
  lost : Nat

namespace Timer0

/-- When `init` starts the timer. -/
def reset : Timer0 := ⟨0, false, 0, 0, 0, 0, 0, 0⟩

/-- The timer counts up. -/
def tick (s : Timer0) : Timer0 :=
  let wraps := s.tcnt0 == 255
  {s with
    tcnt0 := s.tcnt0 + 1
    tov0 := s.tov0 || wraps
    ticks := s.ticks + 1
    lost := if s.tov0 && wraps then s.lost + 1 else s.lost}

/-- `ISR(TIMER0_OVF_vect)`, which the flag calls and which clears it. -/
def ovfIsr (s : Timer0) : Timer0 :=
  if s.tov0 then
    let m := s.timer0Millis + BitVec.ofNat 32 millisInc
    let f := s.timer0Fract + BitVec.ofNat 8 fractInc
    let carries := BitVec.ofNat 8 fractMax ≤ f
    {s with
      tov0 := false
      timer0Fract := if carries then f - BitVec.ofNat 8 fractMax else f
      timer0Millis := if carries then m + 1 else m
      timer0OverflowCount := s.timer0OverflowCount + 1
      served := s.served + 1}
  else s

def millis (s : Timer0) : BitVec 32 := s.timer0Millis

/-- Interrupts are off from the first read to the last, but the timer goes on: it may count
up between the reading of `TCNT0` and that of the flag. -/
def micros (between : Bool) (s : Timer0) : BitVec 32 :=
  let m := s.timer0OverflowCount
  let t := s.tcnt0
  let flag := (if between then s.tick else s).tov0
  let m := if flag && t < 255 then m + 1 else m
  ((m <<< 8) + t.setWidth 32) * (64 / 16)

inductive Event where
  | tick
  | ovf

def step : Event → Timer0 → Timer0
  | .tick, s => s.tick
  | .ovf, s => s.ovfIsr

def after (s : Timer0) (events : List Event) : Timer0 := run step s events

/-! ### What the variables hold -/

/-- The overflow that the flag stands for. -/
def pending (s : Timer0) : Nat := if s.tov0 then 1 else 0

structure Counts (s : Timer0) : Prop where
  ticks : s.ticks = 256 * (s.served + s.pending + s.lost) + s.tcnt0.toNat
  overflows : s.timer0OverflowCount = BitVec.ofNat 32 s.served
  millis : s.timer0Millis = BitVec.ofNat 32 (128 * s.served / 125)
  fract : s.timer0Fract.toNat = 128 * s.served % 125

theorem counts_reset : Counts reset := ⟨rfl, rfl, rfl, rfl⟩

theorem counts_tick {s : Timer0} (h : Counts s) : Counts s.tick := by
  refine ⟨?_, h.overflows, h.millis, h.fract⟩
  have ticks := h.ticks
  unfold tick pending at *
  by_cases wraps : s.tcnt0 = 255
  · cases flag : s.tov0 with
    | false =>
      simp [flag, wraps] at ticks ⊢
      omega
    | true =>
      simp [flag, wraps] at ticks ⊢
      omega
  · have inside : (s.tcnt0 == 255) = false := beq_eq_false_iff_ne.mpr wraps
    have next : (s.tcnt0 + 1).toNat = s.tcnt0.toNat + 1 := by bv_omega
    simp only [inside, Bool.or_false, Bool.and_false, Bool.false_eq_true, if_false, next]
    omega

/-- The fraction and the milliseconds after one more overflow. -/
theorem carry (n : Nat) (f : BitVec 8) (h : f.toNat = 128 * n % 125) :
    let f' := f + BitVec.ofNat 8 fractInc
    (BitVec.ofNat 8 fractMax ≤ f' ↔ 128 * (n + 1) / 125 = 128 * n / 125 + 2) ∧
      (¬ BitVec.ofNat 8 fractMax ≤ f' → 128 * (n + 1) / 125 = 128 * n / 125 + 1) ∧
      (if BitVec.ofNat 8 fractMax ≤ f' then f' - BitVec.ofNat 8 fractMax else f').toNat =
        128 * (n + 1) % 125 := by
  have inc : BitVec.ofNat 8 fractInc = 3 := rfl
  have max : BitVec.ofNat 8 fractMax = 125 := rfl
  rw [inc, max]
  have sum : (f + 3).toNat = f.toNat + 3 := by bv_omega
  have carries : (125 : BitVec 8) ≤ f + 3 ↔ 125 ≤ f.toNat + 3 := by
    rw [BitVec.le_def, sum]
    rfl
  refine ⟨by rw [carries]; omega, by rw [carries]; omega, ?_⟩
  split
  case isTrue full =>
    have enough := carries.mp full
    have rest : (f + 3 - 125).toNat = (f + 3).toNat - 125 := BitVec.toNat_sub_of_le full
    rw [rest, sum]
    omega
  case isFalse =>
    rw [carries] at *
    omega

theorem counts_ovfIsr {s : Timer0} (h : Counts s) : Counts s.ovfIsr := by
  unfold ovfIsr
  split
  case isFalse => exact h
  case isTrue flag =>
    obtain ⟨two, one, fract⟩ := carry s.served s.timer0Fract h.fract
    refine ⟨?_, ?_, ?_, fract⟩
    · have ticks := h.ticks
      rw [pending, if_pos flag] at ticks
      show s.ticks = 256 * (s.served + 1 + 0 + s.lost) + _
      omega
    · show s.timer0OverflowCount + 1 = _
      rw [h.overflows, BitVec.ofNat_add]
      rfl
    · dsimp only
      rw [h.millis]
      split
      case isTrue full =>
        rw [two.mp full, BitVec.ofNat_add, BitVec.add_assoc]
        rfl
      case isFalse short =>
        rw [one short, BitVec.ofNat_add]
        rfl

theorem counts_run (events : List Event) : Counts (reset.after events) := by
  refine run_invariant Counts ?_ reset counts_reset events
  intro e s h
  cases e with
  | tick => exact counts_tick h
  | ovf => exact counts_ovfIsr h

/-! ### What the functions return -/

/-- At the last tick before the next overflow `micros` takes no notice of the flag. -/
def unnoticed (s : Timer0) : Bool := s.tov0 && s.tcnt0 == 255

def noticed (s : Timer0) : Bool := s.tov0 && s.tcnt0 != 255

/-- The microseconds that `micros` knows of. -/
def seen (s : Timer0) : Nat := 4 * (256 * (s.served + s.noticed.toNat) + s.tcnt0.toNat)

/-- The overflows that `micros` does not know of. -/
def missed (s : Timer0) : Nat := s.lost + s.unnoticed.toNat

theorem pending_eq (s : Timer0) : s.pending = s.noticed.toNat + s.unnoticed.toNat := by
  unfold pending noticed unnoticed bne
  cases s.tov0 <;> cases s.tcnt0 == 255 <;> rfl

theorem seen_missed {s : Timer0} (h : Counts s) : 4 * s.ticks = s.seen + 1024 * s.missed := by
  rw [h.ticks, seen, missed, pending_eq]
  omega

/-- A wrap between the two reads of `micros` makes no difference. -/
theorem flag_read (s : Timer0) (between : Bool) :
    ((if between then s.tick else s).tov0 && decide (s.tcnt0 < 255)) = s.noticed := by
  by_cases last : s.tcnt0 = 255
  · simp [noticed, last]
  · have inside : (s.tcnt0 == 255) = false := beq_eq_false_iff_ne.mpr last
    have below : s.tcnt0 < 255 := by bv_omega
    have stays : (if between then s.tick else s).tov0 = s.tov0 := by
      cases between with
      | false => rfl
      | true => simp only [tick, inside, Bool.or_false, if_true]
    rw [stays, decide_eq_true below, noticed, bne, inside, Bool.not_false]

theorem micros_eq {s : Timer0} (h : Counts s) (between : Bool) :
    s.micros between = BitVec.ofNat 32 s.seen := by
  have count : (if s.noticed then s.timer0OverflowCount + 1 else s.timer0OverflowCount) =
      BitVec.ofNat 32 (s.served + s.noticed.toNat) := by
    rw [h.overflows, BitVec.ofNat_add]
    cases s.noticed <;> simp
  rw [micros, flag_read, count, seen]
  generalize s.served + s.noticed.toNat = n
  have byte := s.tcnt0.isLt
  have four : (64 / 16 : BitVec 32).toNat = 4 := rfl
  apply BitVec.eq_of_toNat_eq
  simp only [BitVec.toNat_mul, BitVec.toNat_add, BitVec.toNat_shiftLeft, BitVec.toNat_ofNat,
    BitVec.toNat_setWidth, Nat.shiftLeft_eq, four]
  omega

/-- **The clock.** However the timer and its interrupt fall, `micros` is the time since the
start but for 1024 microseconds for every overflow it has missed, and `millis` the time of
the overflows served, cut to whole milliseconds. So neither ever runs ahead; and with no
overflow lost or waiting `micros` is exact, and `millis` less than 2024 microseconds late. -/
theorem clock_of_ticks (events : List Event) (between : Bool) :
    let s := reset.after events
    (∃ us, s.micros between = BitVec.ofNat 32 us ∧ 4 * s.ticks = us + 1024 * s.missed) ∧
      ∃ ms, s.millis = BitVec.ofNat 32 ms ∧ 1000 * ms ≤ 1024 * s.served ∧
        1024 * s.served < 1000 * (ms + 1) ∧ 1000 * ms ≤ 4 * s.ticks ∧
        (s.lost = 0 → 4 * s.ticks < 1000 * (ms + 1) + 1024 * (s.pending + 1)) := by
  intro s
  have h : Counts s := counts_run events
  refine ⟨⟨s.seen, micros_eq h between, seen_missed h⟩, 128 * s.served / 125, h.millis, ?_⟩
  have ticks := h.ticks
  have byte := s.tcnt0.isLt
  omega

end Timer0

end CofferLed.Core
