import CofferLed.Core.Arithmetic
import CofferLed.Core.HardwareSerial
import CofferLed.Library.Runs

/-! `receiveMsg`, one evaluation of its loop condition at a time.

The receive interrupt may fill the ring between any two evaluations of
`Serial.available() && s_rcvIdx < 16`, also in the middle of a call. So a run is a list
of events: a byte that the interrupt receives, or one evaluation of the condition
together with what the program does next. If the condition holds that is the body of
the loop; if not, the evaluation is the end point of the call, which returns, and
`loop` goes through the rest of its iteration up to its next call. -/
namespace CofferLed.Sketch
open Library CofferLed.Core

/-- `enum class ModeBits`. A received mode is cast to it unchecked, so there are values
besides the named ones. -/
structure ModeBits where
  val : BitVec 8
  deriving DecidableEq, Repr

namespace ModeBits
def none : ModeBits := ⟨0b00000000⟩
def boot : ModeBits := ⟨0b00000001⟩
def load : ModeBits := ⟨0b00000010⟩
def magicNumber : ModeBits := ⟨0b11110000⟩
end ModeBits

/-- What `millis()` returns in an iteration of `loop`: when a message was received, and
at the flash check. -/
structure Clock where
  received : BitVec 32
  check : BitVec 32

inductive Event where
  /-- The UART receives a byte. -/
  | rx (c : BitVec 8)
  /-- The loop condition of `receiveMsg` is evaluated. -/
  | poll (clock : Clock)

/-- A message as `receiveMsg` hands it over. -/
structure Delivery where
  mode : ModeBits
  data : Vector (BitVec 8) 16
  deriving DecidableEq

/-- An iteration of `loop` as far as it depends on the messages: whether it received one,
and the mode and the data it works with. -/
structure Turn where
  received : Bool
  mode : ModeBits
  data : Vector (BitVec 8) 16
  deriving DecidableEq

def Turn.delivery (t : Turn) : Option Delivery :=
  if t.received then some ⟨t.mode, t.data⟩ else none

/-- `Serial`, the statics of `receiveMsg`, and what its two reference parameters refer
to. -/
structure Receiver where
  serial : HardwareSerial
  rcvBuffer : Vector (BitVec 8) 16
  rcvIdx : Nat
  rcvdMode : BitVec 8
  buffer : Vector (BitVec 8) 16
  modeStatus : ModeBits

namespace Receiver

/-- At power-up. -/
def reset : Receiver :=
  { serial := HardwareSerial.reset
    rcvBuffer := Vector.replicate 16 0
    rcvIdx := 0
    rcvdMode := ModeBits.none.val
    buffer := Vector.replicate 16 0
    modeStatus := ModeBits.none }

/-- `Serial.available() && s_rcvIdx < 16`. -/
def Condition (r : Receiver) : Prop := r.serial.available ≠ 0 ∧ r.rcvIdx < 16

instance (r : Receiver) : Decidable r.Condition := by unfold Condition; infer_instance

/-- `(rcvd & MAGIC_NUMBER) == MAGIC_NUMBER`. -/
def isHeader (rcvd : BitVec 8) : Bool :=
  rcvd &&& ModeBits.magicNumber.val == ModeBits.magicNumber.val

/-- `Serial.read()` as a `uint8_t`. It is only called with a byte available; the -1 it
would return otherwise converts to 255. -/
def rcvd (r : Receiver) : BitVec 8 := r.serial.read.1.getD 255

/-- The body of the loop. -/
def body (r : Receiver) : Exec Receiver :=
  if isHeader r.rcvd then
    pure {r with
      serial := r.serial.read.2
      rcvdMode := r.rcvd &&& ~~~ModeBits.magicNumber.val
      rcvIdx := 0}
  else do
    let written ← Checked.writeAt .index r.rcvBuffer r.rcvIdx r.rcvd
    pure {r with
      serial := r.serial.read.2
      rcvBuffer := written
      rcvIdx := r.rcvIdx + 1}

/-- After the loop: the value returned, and the state on return. -/
def finish (r : Receiver) : Bool × Receiver :=
  if r.rcvIdx ≥ 16 then
    (true, {r with rcvIdx := 0, modeStatus := ⟨r.rcvdMode⟩, buffer := r.rcvBuffer})
  else (false, r)

/-- The serial port is set to 8N1, so no byte comes with a parity error. -/
def step : Event → Receiver → Exec Receiver
  | .rx c, r => pure {r with serial := r.serial.rxCompleteIrq false c}
  | .poll _, r => if r.Condition then r.body else pure r.finish.2

/-! ### What an event shows -/

/-- The byte an event reads from the ring. -/
def consumed : Event → Receiver → List (BitVec 8)
  | .rx _, _ => []
  | .poll _, r => if r.Condition then [r.rcvd] else []

/-- What `receiveMsg` leaves `loop` with when a call ends: the value returned, the mode
and the buffer. -/
def turn : Event → Receiver → List Turn
  | .rx _, _ => []
  | .poll _, r =>
    if r.Condition then []
    else [⟨r.finish.1, r.finish.2.modeStatus, r.finish.2.buffer⟩]

/-- The message handed over by the call that ends with an event. -/
def delivered (e : Event) (r : Receiver) : List Delivery := (turn e r).filterMap Turn.delivery

/-- Whether an event is the end point of a call. -/
def endsCall : Event → Receiver → Bool
  | .rx _, _ => false
  | .poll _, r => !decide r.Condition

/-- The state after a list of events. -/
def after (r : Receiver) (events : List Event) : Receiver :=
  run (fun e r => (step e r).val) r events

/-- The bytes read in a run, in order. -/
def bytesRead (r : Receiver) (events : List Event) : List (BitVec 8) :=
  trace (fun e r => (step e r).val) consumed r events

/-- The iterations of `loop` in a run, in order. -/
def turns (r : Receiver) (events : List Event) : List Turn :=
  trace (fun e r => (step e r).val) turn r events

/-- The messages handed over in a run, in order. -/
def deliveries (r : Receiver) (events : List Event) : List Delivery :=
  trace (fun e r => (step e r).val) delivered r events

theorem after_cons (r : Receiver) (e : Event) (rest : List Event) :
    r.after (e :: rest) = (step e r).val.after rest := rfl

theorem bytesRead_cons (r : Receiver) (e : Event) (rest : List Event) :
    r.bytesRead (e :: rest) = consumed e r ++ (step e r).val.bytesRead rest := rfl

theorem deliveries_cons (r : Receiver) (e : Event) (rest : List Event) :
    r.deliveries (e :: rest) = delivered e r ++ (step e r).val.deliveries rest := rfl

theorem after_append (r : Receiver) (a b : List Event) :
    r.after (a ++ b) = (r.after a).after b := run_append _ _ _ _

theorem bytesRead_append (r : Receiver) (a b : List Event) :
    r.bytesRead (a ++ b) = r.bytesRead a ++ (r.after a).bytesRead b := trace_append _ _ _ _ _

/-! ### Step by step -/

theorem step_rx (c : BitVec 8) (r : Receiver) :
    (step (.rx c) r).val = {r with serial := r.serial.rxCompleteIrq false c} := rfl

theorem step_body (clock : Clock) {r : Receiver} (h : r.Condition) :
    step (.poll clock) r = r.body := if_pos h

theorem step_finish (clock : Clock) {r : Receiver} (h : ¬ r.Condition) :
    (step (.poll clock) r).val = r.finish.2 := by
  rw [step, if_neg h]
  rfl

theorem body_header {r : Receiver} (h : isHeader r.rcvd = true) :
    r.body.val = {r with
      serial := r.serial.read.2
      rcvdMode := r.rcvd &&& ~~~ModeBits.magicNumber.val
      rcvIdx := 0} := by
  rw [body, if_pos h]
  rfl

theorem body_data {r : Receiver} (h : isHeader r.rcvd = false) :
    r.body.val = {r with
      serial := r.serial.read.2
      rcvBuffer := r.rcvBuffer.setIfInBounds r.rcvIdx r.rcvd
      rcvIdx := r.rcvIdx + 1} := by
  rw [body, h]
  rfl

theorem body_safe {r : Receiver} (h : r.rcvIdx < 16) : r.body.Safe := by
  unfold body
  split <;> simp [h]

theorem finish_delivers {r : Receiver} (h : 16 ≤ r.rcvIdx) :
    r.finish =
      (true, {r with rcvIdx := 0, modeStatus := ⟨r.rcvdMode⟩, buffer := r.rcvBuffer}) :=
  if_pos h

theorem finish_waits {r : Receiver} (h : r.rcvIdx < 16) : r.finish = (false, r) :=
  if_neg (Nat.not_le.mpr h)

theorem finish_idx_lt (r : Receiver) : r.finish.2.rcvIdx < 16 := by
  by_cases h : 16 ≤ r.rcvIdx
  · rw [finish_delivers h]
    exact Nat.zero_lt_succ 15
  · rw [finish_waits (Nat.not_le.mp h)]
    exact Nat.not_le.mp h

/-- The index stays within the buffer. -/
theorem step_idx_le (e : Event) (r : Receiver) (h : r.rcvIdx ≤ 16) :
    (step e r).val.rcvIdx ≤ 16 := by
  cases e with
  | rx c => exact h
  | poll clock =>
    by_cases hc : r.Condition
    · rw [step_body clock hc]
      have := hc.2
      cases hh : isHeader r.rcvd with
      | true =>
        rw [body_header hh]
        exact Nat.zero_le 16
      | false =>
        rw [body_data hh]
        show r.rcvIdx + 1 ≤ 16
        omega
    · rw [step_finish clock hc]
      exact Nat.le_of_lt r.finish_idx_lt

theorem consumed_body (clock : Clock) {r : Receiver} (h : r.Condition) :
    consumed (.poll clock) r = [r.rcvd] := if_pos h

theorem consumed_finish (clock : Clock) {r : Receiver} (h : ¬ r.Condition) :
    consumed (.poll clock) r = [] := if_neg h

theorem turn_body (clock : Clock) {r : Receiver} (h : r.Condition) : turn (.poll clock) r = [] :=
  if_pos h

theorem turn_finish (clock : Clock) {r : Receiver} (h : ¬ r.Condition) :
    turn (.poll clock) r = [⟨r.finish.1, r.finish.2.modeStatus, r.finish.2.buffer⟩] := if_neg h

theorem after_idx_le (r : Receiver) (h : r.rcvIdx ≤ 16) (events : List Event) :
    (r.after events).rcvIdx ≤ 16 :=
  run_invariant (fun r => r.rcvIdx ≤ 16) step_idx_le r h events

end Receiver

end CofferLed.Sketch
