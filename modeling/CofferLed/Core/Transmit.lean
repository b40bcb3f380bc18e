import CofferLed.Core.HardwareSerial
import CofferLed.Library.Runs

/-! The transmit side of `HardwareSerial`.

`write` puts a byte into the data register if nothing is ahead of it, and into a ring
otherwise; the interrupt for an empty data register takes it from there, and the hardware
moves it on to the shift register and out. All three run side by side, so the program is
followed here in the steps between which an interrupt can come, with a marker for the place
it has reached. -/
namespace CofferLed.Core
open Library

def serialTxBufferSize : Nat := 64

/-- How far the main program is: outside of `write` and `flush`, or before the part of one of
them that the marker is named after. `c` and `i` are the variables of the source. -/
inductive Place where
  | idle
  | write (c : BitVec 8)
  | empty (c : BitVec 8)
  | ready (c : BitVec 8)
  | direct (c : BitVec 8)
  | full (c : BitVec 8) (i : Fin serialTxBufferSize)
  | store (c : BitVec 8) (i : Fin serialTxBufferSize)
  | publish (c : BitVec 8) (i : Fin serialTxBufferSize)
  | flush
  | queued
  | complete
  | poll
deriving DecidableEq

namespace Place

/-- The byte of a call that has not put it anywhere yet. -/
def pending : Place → List (BitVec 8)
  | .write c | .empty c | .ready c | .direct c | .full c _ | .store c _ | .publish c _ => [c]
  | _ => []

/-- Past the point where `write` has set `_written`, or `flush` has read it. -/
def begun : Place → Bool
  | .idle | .write _ | .flush => false
  | _ => true

/-- What the place tells of the buffer and the data register. -/
def Knows (tx : Ring (BitVec 8) serialTxBufferSize) (udr : Option (BitVec 8)) :
    Place → Prop
  | .ready _ | .complete => tx.head = tx.tail
  | .direct _ => tx.head = tx.tail ∧ udr = none
  | .full _ i => i = Ring.after tx.head
  | .store _ i => i = Ring.after tx.head ∧ i ≠ tx.tail
  | .publish c i => i = Ring.after tx.head ∧ i ≠ tx.tail ∧ tx.buffer[tx.head.val] = c
  | _ => True

end Place

structure Transmitter where
  /-- `_tx_buffer`, `_tx_buffer_head` and `_tx_buffer_tail`. -/
  tx : Ring (BitVec 8) serialTxBufferSize
  written : Bool
  udrie0 : Bool
  txc0 : Bool
  /-- The data register; `UDRE0` says that there is nothing in it. -/
  udr : Option (BitVec 8)
  shifter : Option (BitVec 8)
  /-- The `I` bit of the status register. -/
  interrupts : Bool
  place : Place
  /-- The bytes `write` was called for and those that are out, oldest first; the program
  knows neither. -/
  asked : List (BitVec 8)
  line : List (BitVec 8)

namespace Transmitter

/-- After `begin`. -/
def reset : Transmitter :=
  { tx := Ring.empty (by decide), written := false, udrie0 := false, txc0 := false, udr := none,
    shifter := none, interrupts := true, place := .idle, asked := [], line := [] }

def udre0 (t : Transmitter) : Bool := t.udr.isNone

/-- `*_udr = c`: the hardware ignores what is written to a full register. -/
def putUdr (c : BitVec 8) (t : Transmitter) : Transmitter :=
  if t.udre0 then {t with udr := some c} else t

/-- `_tx_udr_empty_irq`, which trusts that there is something in the buffer. -/
def txUdrEmptyIrq (t : Transmitter) : Transmitter :=
  let c := t.tx.buffer[t.tx.tail.val]
  let t := putUdr c {t with tx := {t.tx with tail := Ring.after t.tx.tail}}
  let t := {t with txc0 := false}
  if t.tx.head = t.tx.tail then {t with udrie0 := false} else t

def availableForWrite (t : Transmitter) : Nat :=
  if t.tx.head.val ≥ t.tx.tail.val then
    serialTxBufferSize - 1 - t.tx.head.val + t.tx.tail.val
  else t.tx.tail.val - t.tx.head.val - 1

/-- The next part of `write` or `flush`. -/
def proceed (t : Transmitter) : Transmitter :=
  match t.place with
  | .idle => t
  | .write c => {t with written := true, place := .empty c}
  | .empty c =>
    {t with place := if t.tx.head = t.tx.tail then .ready c else .full c (Ring.after t.tx.head)}
  | .ready c => {t with place := if t.udre0 then .direct c else .full c (Ring.after t.tx.head)}
  | .direct c => {putUdr c t with txc0 := false, place := .idle}
  | .full c i =>
    if i = t.tx.tail then
      -- With interrupts on, the handler comes by itself.
      if !t.interrupts && t.udre0 then txUdrEmptyIrq t else t
    else {t with place := .store c i}
  | .store c i => {t with tx := t.tx.store c, place := .publish c i}
  | .publish _ i => {t with tx := {t.tx with head := i}, udrie0 := true, place := .idle}
  | .flush => {t with place := if t.written then .queued else .idle}
  | .queued => {t with place := if t.udrie0 then .poll else .complete}
  | .complete => {t with place := if t.txc0 then .idle else .poll}
  | .poll =>
    let t := {t with place := .queued}
    if !t.interrupts && t.udrie0 && t.udre0 then txUdrEmptyIrq t else t

inductive Event where
  /-- Calls, and changes of the `I` bit, by a program that is outside of `write` and `flush`. -/
  | callWrite (c : BitVec 8)
  | callFlush
  | setInterrupts (on : Bool)
  | proceed
  /-- The interrupt for an empty data register, where it is let through. -/
  | irq
  /-- The hardware takes the data register over into the shift register, and has shifted the
  byte there out. -/
  | take
  | shifted
deriving DecidableEq

def step : Event → Transmitter → Transmitter
  | .callWrite c, t => if t.place = .idle then {t with asked := t.asked ++ [c], place := .write c} else t
  | .callFlush, t => if t.place = .idle then {t with place := .flush} else t
  | .setInterrupts on, t => if t.place = .idle then {t with interrupts := on} else t
  | .proceed, t => t.proceed
  | .irq, t => if t.interrupts && t.udrie0 && t.udre0 then txUdrEmptyIrq t else t
  | .take, t => if t.shifter = none then {t with shifter := t.udr, udr := none} else t
  | .shifted, t =>
    match t.shifter with
    | none => t
    | some x => {t with line := t.line ++ [x], shifter := none, txc0 := t.txc0 || t.udre0}

def after (t : Transmitter) (events : List Event) : Transmitter := run step t events

/-- There is room for one byte less than the buffer has slots. -/
theorem availableForWrite_eq (t : Transmitter) :
    t.availableForWrite + t.tx.contents.length = serialTxBufferSize - 1 := by
  have head := t.tx.head.isLt
  have tail := t.tx.tail.isLt
  rw [Ring.contents_length, Ring.available_eq, availableForWrite]
  unfold serialTxBufferSize at *
  split <;> omega

/-- The handler, where there is something to send and room for it. -/
theorem txUdrEmptyIrq_eq {t : Transmitter} (free : t.udr = none) :
    t.txUdrEmptyIrq =
      {t with
        tx := {t.tx with tail := Ring.after t.tx.tail}
        udr := some t.tx.buffer[t.tx.tail.val]
        txc0 := false
        udrie0 := t.udrie0 && t.tx.head != Ring.after t.tx.tail} := by
  have ready : t.udre0 = true := by rw [udre0, free, Option.isNone_none]
  simp only [txUdrEmptyIrq, putUdr, udre0, free, Option.isNone_none, if_true]
  split
  case isTrue last => simp [last]
  case isFalse more => simp [bne_iff_ne.mpr more]

end Transmitter

end CofferLed.Core
