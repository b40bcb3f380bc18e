import CofferLed.Library.Ring

/-! The receive side of `HardwareSerial`: a ring of 64 slots filled by the receive
interrupt and emptied by `read`. -/
namespace CofferLed.Core
open Library

def serialRxBufferSize : Nat := 64

/-- `_rx_buffer`, `_rx_buffer_head` and `_rx_buffer_tail`. -/
structure HardwareSerial where
  rx : Ring (BitVec 8) serialRxBufferSize

namespace HardwareSerial

/-- After `begin`. -/
def reset : HardwareSerial := ⟨Ring.empty (by decide)⟩

def available (s : HardwareSerial) : Nat := s.rx.available

/-- The byte read, or nothing where the source returns -1. -/
def read (s : HardwareSerial) : Option (BitVec 8) × HardwareSerial := (s.rx.pop.1, ⟨s.rx.pop.2⟩)

/-- `_rx_complete_irq`, with the parity error flag and the data register: a byte with a
parity error is discarded, a byte that finds the ring full is dropped. -/
def rxCompleteIrq (upe0 : Bool) (udr : BitVec 8) (s : HardwareSerial) : HardwareSerial :=
  if upe0 = false then ⟨s.rx.push udr⟩ else s

/-- The bytes received and not yet read, oldest first. -/
def pending (s : HardwareSerial) : List (BitVec 8) := s.rx.contents

@[simp] theorem pending_reset : reset.pending = [] := Ring.contents_empty _

theorem pending_length (s : HardwareSerial) : s.pending.length = s.available := Ring.contents_length _

theorem available_lt (s : HardwareSerial) : s.available < 64 := Ring.available_lt _

/-- A byte that finds room is appended. -/
theorem pending_rxCompleteIrq (s : HardwareSerial) (c : BitVec 8) (room : s.available < 63) :
    (s.rxCompleteIrq false c).pending = s.pending ++ [c] := Ring.contents_push s.rx c room

/-- A byte that finds the ring full changes nothing. -/
theorem rxCompleteIrq_full (s : HardwareSerial) (c : BitVec 8) (full : s.available = 63) :
    s.rxCompleteIrq false c = s := by
  have : s.rx.push c = s.rx := Ring.push_full s.rx c full
  rw [rxCompleteIrq, if_pos rfl, this]

/-- What a byte does to the pending ones, in any case. -/
theorem pending_rxCompleteIrq_eq (s : HardwareSerial) (c : BitVec 8) :
    (s.rxCompleteIrq false c).pending =
      if s.pending.length < 63 then s.pending ++ [c] else s.pending := by
  have := s.available_lt
  rw [pending_length]
  split
  case isTrue room => exact pending_rxCompleteIrq s c room
  case isFalse full => rw [rxCompleteIrq_full s c (by omega)]

/-- Reading takes the oldest pending byte. -/
theorem pending_read (s : HardwareSerial) (h : s.available ≠ 0) :
    ∃ c, s.read.1 = some c ∧ s.pending = c :: s.read.2.pending := Ring.contents_pop s.rx h

end HardwareSerial

end CofferLed.Core
