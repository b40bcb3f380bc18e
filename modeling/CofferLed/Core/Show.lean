import CofferLed.Library.Avr
import Mathlib.Algebra.Group.Nat.Defs

/-! What `Adafruit_NeoPixel::show` puts on the pin, clock cycle by clock cycle.

The bytes go out through a hand-timed loop, written for 16 MHz and 800 kHz: twenty cycles
a bit, high for five of them or for thirteen. The loop does so for every byte of the buffer
and every bit of a byte, the most significant one first, without a gap, and leaves the
memory as it was (`waveform`). -/
namespace CofferLed.Core.Show
open Library Avr

/-! ### The loop -/

inductive Reg where
  | hi | lo | next | byte | bit
  deriving DecidableEq

inductive Ptr where
  | port | ptr | count
  deriving DecidableEq

inductive Label where
  | head20 | nextbyte20

def code : Label → List (Instr Reg Ptr Label)
  | .head20 =>
    [.st .port .hi, .sbrc .byte 7, .mov .next .hi, .dec .bit, .st .port .next, .mov .next .lo,
      .breq .nextbyte20,
      .rol .byte, .rjmpNext, .nop, .st .port .lo, .nop, .rjmpNext, .rjmp .head20]
  | .nextbyte20 =>
    [.ldi .bit 8, .ldInc .byte .ptr, .st .port .lo, .nop, .sbiw .count 1, .brne .head20]

/-- The operands of the loop. The flags are whatever the code before has left. -/
def start (port pixels : BitVec 16) (pinMask : BitVec 8) (numBytes : BitVec 16)
    (mem : BitVec 16 → BitVec 8) (zero carry : Bool) : State Reg Ptr Label where
  rest := code .head20
  core :=
    { reg := fun
        | .hi => mem port ||| pinMask
        | .lo => mem port &&& ~~~pinMask
        | .next => mem port &&& ~~~pinMask
        | .byte => mem pixels
        | .bit => 8
      ptr := fun
        | .port => port
        | .ptr => pixels + 1
        | .count => numBytes
      mem, zero, carry }

/-! ### One bit -/

/-- Twenty cycles: the `st` of the high level ends after two of them, that of the bit five
later and that of the low level eight later. -/
def pulse (on off : BitVec 8) (b : Bool) : List (BitVec 8) :=
  List.replicate 2 off ++ List.replicate 5 on ++ List.replicate 8 (if b then on else off) ++
    List.replicate 5 off

section
variable {address : BitVec 16} {on off : BitVec 8} {m : Machine Reg Ptr}

/-- Between two bits: the pin is low, and `next` as well. -/
structure Ready (address : BitVec 16) (on off : BitVec 8) (m : Machine Reg Ptr) : Prop where
  hi : m.reg .hi = on
  lo : m.reg .lo = off
  next : m.reg .next = off
  port : m.ptr .port = address
  level : m.mem address = off

/-- The machine where the loop branches on `bit`. -/
def issued (address : BitVec 16) (level : BitVec 8) (m : Machine Reg Ptr) : Machine Reg Ptr :=
  {m with
    reg := Function.update m.reg .bit (m.reg .bit - 1)
    mem := Function.update m.mem address level
    zero := m.reg .bit - 1 == 0}

/-- From `head20` to the branch: the skip takes as long as the `mov` it skips. -/
theorem issue (h : Ready address on off m) :
    let level := if (m.reg .byte).getLsbD 7 then on else off
    Reaches code address ⟨code .head20, m⟩
      (List.replicate 2 off ++ List.replicate 5 on ++ [level])
      ⟨(code .head20).drop 6, issued address level m⟩ := by
  cases hb : (m.reg .byte).getLsbD 7 with
  | true =>
    have restored : Function.update (Function.update (Function.update m.reg .next on) .bit
        (m.reg .bit - 1)) .next off = Function.update m.reg .bit (m.reg .bit - 1) := by
      rw [Function.update_comm (by decide), Function.update_idem, ← h.next,
        Function.update_eq_self]
    refine ⟨6, ?_, ?_⟩
    · simp [-BitVec.getLsbD_eq_getElem, after, run, State.next, code, hb, issued, h.port, h.hi,
        h.lo]
      simpa using restored
    · simp [-BitVec.getLsbD_eq_getElem, wave, trace, State.next, State.shows, State.cycles, code,
        hb, h.port, h.level, h.hi]
  | false =>
    refine ⟨5, ?_, ?_⟩
    · simp [-BitVec.getLsbD_eq_getElem, after, run, State.next, code, hb, issued, h.port, h.lo,
        h.next]
    · simp [-BitVec.getLsbD_eq_getElem, wave, trace, State.next, State.shows, State.cycles, code,
        hb, h.port, h.level, h.hi, h.next]

/-- Between two bits the memory is as it was before the first. -/
theorem Ready.low (h : Ready address on off m) (level : BitVec 8) :
    Function.update (Function.update m.mem address level) address off = m.mem := by
  rw [Function.update_idem, ← h.level, Function.update_eq_self]

/-- The machine after a bit that is not the last of its byte. -/
def shifted (m : Machine Reg Ptr) : Machine Reg Ptr :=
  let rolled := m.reg .byte <<< 1 ||| (BitVec.ofBool m.carry).setWidth 8
  {m with
    reg := Function.update (Function.update m.reg .bit (m.reg .bit - 1)) .byte rolled
    zero := rolled == 0
    carry := (m.reg .byte).getLsbD 7}

theorem shift (h : Ready address on off m) (level : BitVec 8) (more : m.reg .bit - 1 ≠ 0) :
    Reaches code address ⟨(code .head20).drop 6, issued address level m⟩
      (List.replicate 7 level ++ List.replicate 5 off) ⟨code .head20, shifted m⟩ := by
  have branch : (issued address level m).zero = false := by simpa [issued] using more
  refine ⟨8, ?_, ?_⟩
  · simp [after, run, State.next, code, branch]
    simp [issued, shifted, h.port, h.lo, h.low]
  · simp [wave, trace, State.next, State.shows, State.cycles, code, branch]
    simp [issued, h.port, h.lo]

/-- The machine after the last bit of a byte. -/
def loaded (byte : BitVec 8) (m : Machine Reg Ptr) : Machine Reg Ptr :=
  {m with
    reg := Function.update (Function.update m.reg .bit 8) .byte byte
    ptr := Function.update (Function.update m.ptr .ptr (m.ptr .ptr + 1)) .count (m.ptr .count - 1)
    zero := m.ptr .count - 1 == 0
    carry := (m.ptr .count).ult 1}

theorem load (h : Ready address on off m) (level : BitVec 8) (done : m.reg .bit = 1) :
    Reaches code address ⟨(code .head20).drop 6, issued address level m⟩
      (List.replicate 7 level ++ List.replicate 3 off)
      ⟨[.brne .head20], loaded ((issued address level m).mem (m.ptr .ptr)) m⟩ := by
  have branch : (issued address level m).zero = true := by simp [issued, done]
  refine ⟨6, ?_, ?_⟩
  · simp [after, run, State.next, code, branch]
    simp [issued, loaded, h.port, h.lo, h.low]
  · simp [wave, trace, State.next, State.shows, State.cycles, code, branch]
    simp [issued, h.port, h.lo]

theorem pulse_eq (b : Bool) :
    pulse on off b =
      (List.replicate 2 off ++ List.replicate 5 on ++ [if b then on else off]) ++
        (List.replicate 7 (if b then on else off) ++ List.replicate 5 off) := by
  cases b <;> rfl

theorem Ready.bit (h : Ready address on off m) (more : m.reg .bit - 1 ≠ 0) :
    Reaches code address ⟨code .head20, m⟩ (pulse on off ((m.reg .byte).getLsbD 7))
      ⟨code .head20, shifted m⟩ := by
  rw [pulse_eq]
  exact (issue h).trans (shift h _ more)

/-! ### One byte -/

/-- The bits of a byte as they go out. -/
def bits (b : BitVec 8) : List Bool := (List.range 8).map fun j => b.getLsbD (7 - j)

theorem rolled_bit (byte : BitVec 8) (carry : Bool) {i : Nat} (h : i < 7) :
    (byte <<< 1 ||| (BitVec.ofBool carry).setWidth 8).getLsbD (i + 1) = byte.getLsbD i := by
  rw [BitVec.getLsbD_or, BitVec.getLsbD_shiftLeft, BitVec.getLsbD_setWidth]
  simp [-BitVec.getLsbD_eq_getElem, show i + 1 < 8 by omega]

/-- In the middle of a byte: the bits still to send are the top ones of the register. -/
structure Sending (m₀ : Machine Reg Ptr) (address : BitVec 16) (on off : BitVec 8)
    (bs : List Bool) (m : Machine Reg Ptr) : Prop where
  ready : Ready address on off m
  few : bs.length ≤ 8
  bit : m.reg .bit = BitVec.ofNat 8 bs.length
  top : ∀ j < bs.length, bs[j]? = some ((m.reg .byte).getLsbD (7 - j))
  ptr : m.ptr = m₀.ptr
  mem : m.mem = m₀.mem

theorem Sending.first {m₀ : Machine Reg Ptr} {b : Bool} {bs : List Bool}
    (h : Sending m₀ address on off (b :: bs) m) : (m.reg .byte).getLsbD 7 = b := by
  simpa [eq_comm] using h.top 0 (by simp)

theorem Sending.next {m₀ : Machine Reg Ptr} {b b' : Bool} {bs : List Bool}
    (h : Sending m₀ address on off (b :: b' :: bs) m) :
    Reaches code address ⟨code .head20, m⟩ (pulse on off b) ⟨code .head20, shifted m⟩ ∧
      Sending m₀ address on off (b' :: bs) (shifted m) := by
  have few := h.few
  have bit := h.bit
  simp only [List.length_cons] at few bit
  have more : m.reg .bit - 1 ≠ 0 := by
    rw [bit]
    bv_omega
  have ready := h.ready
  refine ⟨h.first ▸ ready.bit more, ⟨ready.hi, ready.lo, ready.next, ready.port, ready.level⟩,
    ?_, ?_, fun j hj => ?_, h.ptr, h.mem⟩
  · simp only [List.length_cons]
    omega
  · change m.reg .bit - 1 = _
    rw [bit, List.length_cons]
    bv_omega
  · simp only [List.length_cons] at hj
    change _ = some ((m.reg .byte <<< 1 ||| (BitVec.ofBool m.carry).setWidth 8).getLsbD (7 - j))
    have next := h.top (j + 1) (by simp; omega)
    rw [List.getElem?_cons_succ] at next
    rw [next, show 7 - j = 7 - (j + 1) + 1 by omega, rolled_bit _ _ (by omega)]

theorem bits_eq (b : BitVec 8) :
    bits b = (List.range 7).map (fun j => b.getLsbD (7 - j)) ++ [b.getLsbD 0] := by
  rw [bits, List.range_succ, List.map_append]
  rfl

/-- What a whole byte does to the machine: it is gone and the next one is there. The byte
behind the end of the buffer is read as well. -/
structure Sent (address : BitVec 16) (on off : BitVec 8) (m m' : Machine Reg Ptr) : Prop where
  ready : Ready address on off m'
  bit : m'.reg .bit = 8
  byte : m.ptr .ptr ≠ address → m'.reg .byte = m.mem (m.ptr .ptr)
  ptr : m'.ptr .ptr = m.ptr .ptr + 1
  count : m'.ptr .count = m.ptr .count - 1
  zero : m'.zero = (m.ptr .count - 1 == 0)
  mem : m'.mem = m.mem

theorem Ready.byte (h : Ready address on off m) (eight : m.reg .bit = 8) :
    ∃ m' w, Reaches code address ⟨code .head20, m⟩ w ⟨[.brne .head20], m'⟩ ∧
      w ++ List.replicate 2 off = (bits (m.reg .byte)).flatMap (pulse on off) ∧
      Sent address on off m m' := by
  have start : Sending m address on off (bits (m.reg .byte)) m := by
    refine ⟨h, by simp [bits], by simpa [bits] using eight, fun j hj => ?_, rfl, rfl⟩
    simp only [bits, List.length_map, List.length_range] at hj
    simp only [bits, List.getElem?_map, List.getElem?_range hj, Option.map_some]
  rw [bits_eq] at start
  obtain ⟨⟨_, m₇⟩, seven, rfl, last⟩ := Reaches.each
    (fun bs s => s.rest = code .head20 ∧ Sending m address on off bs s.core) (pulse on off)
    (fun b b' bs s ⟨here, sending⟩ => by
      obtain ⟨_, m⟩ := s
      cases here
      obtain ⟨once, next⟩ := sending.next
      exact ⟨_, once, rfl, next⟩) _ _ ⟨code .head20, m⟩ ⟨rfl, start⟩
  have eighth := (issue last.ready).trans (load last.ready _ (by simpa using last.bit))
  refine ⟨_, _, seven.trans eighth, ?_, ?_⟩
  · rw [bits_eq, List.flatMap_append, List.flatMap_singleton, pulse_eq, last.first]
    simp only [List.append_assoc, List.replicate_append_replicate]
  · have ready := last.ready
    refine ⟨⟨ready.hi, ready.lo, ready.next, ready.port, ready.level⟩, rfl, fun apart => ?_, ?_,
      ?_, ?_, last.mem⟩
    · change Function.update m₇.mem address _ (m₇.ptr .ptr) = _
      rw [last.ptr, Function.update_of_ne apart, last.mem]
    · change m₇.ptr .ptr + 1 = _
      rw [last.ptr]
    · change m₇.ptr .count - 1 = _
      rw [last.ptr]
    · change (m₇.ptr .count - 1 == 0) = _
      rw [last.ptr]

/-! ### The whole buffer -/

/-- The bytes lie in memory from an address on, and none of them at the port. -/
def Buffer (mem : BitVec 16 → BitVec 8) (port : BitVec 16) : BitVec 16 → List (BitVec 8) → Prop
  | _, [] => True
  | a, x :: xs => mem a = x ∧ a ≠ port ∧ Buffer mem port (a + 1) xs

/-- A memory with the port and the buffer in it, and nothing else. -/
def memory (port : BitVec 16) (level : BitVec 8) (pixels : BitVec 16) (bytes : List (BitVec 8))
    (address : BitVec 16) : BitVec 8 :=
  if address = port then level else bytes[(address - pixels).toNat]?.getD 0

theorem buffer_memory (port : BitVec 16) (level : BitVec 8) (pixels : BitVec 16)
    (bytes : List (BitVec 8)) (beside : bytes.length ≤ (port - pixels).toNat) :
    Buffer (memory port level pixels bytes) port pixels bytes := by
  suffices from_here : ∀ rest before, before ++ rest = bytes →
      Buffer (memory port level pixels bytes) port (pixels + BitVec.ofNat 16 before.length) rest by
    simpa using from_here bytes [] rfl
  intro rest
  induction rest with
  | nil => exact fun _ _ => trivial
  | cons x rest ih =>
    intro before whole
    have inside : before.length < bytes.length := by
      rw [← whole, List.length_append, List.length_cons]
      omega
    have small := (port - pixels).isLt
    have offset : (pixels + BitVec.ofNat 16 before.length - pixels).toNat = before.length := by
      rw [BitVec.add_comm, BitVec.add_sub_cancel, BitVec.toNat_ofNat]
      omega
    have apart : pixels + BitVec.ofNat 16 before.length ≠ port := fun same => by
      rw [same] at offset
      omega
    refine ⟨?_, apart, ?_⟩
    · rw [memory, if_neg apart, offset, ← whole]
      simp
    · have next := ih (before ++ [x]) (by rw [← whole, List.append_assoc]; rfl)
      rw [List.length_append, List.length_singleton, BitVec.ofNat_add, ← BitVec.add_assoc] at next
      exact next

/-- At the start of a byte: it is in its register and those after it are in memory. -/
structure Streaming (mem : BitVec 16 → BitVec 8) (address : BitVec 16) (on off : BitVec 8)
    (bytes : List (BitVec 8)) (m : Machine Reg Ptr) : Prop where
  ready : Ready address on off m
  bit : m.reg .bit = 8
  byte : bytes.head? = some (m.reg .byte)
  later : Buffer mem address (m.ptr .ptr) bytes.tail
  fits : bytes.length < 2 ^ 16
  count : m.ptr .count = BitVec.ofNat 16 bytes.length
  mem : m.mem = mem

/-- What a byte looks like on the port. -/
def pulses (on off byte : BitVec 8) : List (BitVec 8) := (bits byte).flatMap (pulse on off)

variable {mem : BitVec 16 → BitVec 8}

theorem Streaming.next {x y : BitVec 8} {xs : List (BitVec 8)}
    (h : Streaming mem address on off (x :: y :: xs) m) :
    ∃ m', Reaches code address ⟨code .head20, m⟩ (pulses on off x) ⟨code .head20, m'⟩ ∧
      Streaming mem address on off (y :: xs) m' := by
  obtain ⟨m', w, byte, whole, sent⟩ := h.ready.byte h.bit
  obtain ⟨present, apart, later⟩ := h.later
  have fits := h.fits
  have count := h.count
  simp only [List.length_cons] at fits count
  have again : m'.zero = false := by
    rw [sent.zero, count, beq_eq_false_iff_ne]
    bv_omega
  have branch : Reaches code address ⟨[.brne .head20], m'⟩ (List.replicate 2 off)
      ⟨code .head20, m'⟩ := by
    refine ⟨1, ?_, ?_⟩
    · simp [after, run, State.next, again]
    · simp [wave, trace, State.shows, State.cycles, again, sent.ready.level]
  refine ⟨m', ?_, sent.ready, sent.bit, ?_, sent.ptr ▸ later, ?_, ?_, sent.mem.trans h.mem⟩
  · have first : m.reg .byte = x := by simpa [eq_comm] using h.byte
    rw [pulses, ← first, ← whole]
    exact byte.trans branch
  · rw [sent.byte apart, h.mem, present, List.head?_cons]
  · simp only [List.length_cons]
    omega
  · rw [sent.count, count, List.length_cons]
    bv_omega

theorem Streaming.last {x : BitVec 8} (h : Streaming mem address on off [x] m) :
    ∃ m' w, Reaches code address ⟨code .head20, m⟩ w ⟨[], m'⟩ ∧ w ++ [off] = pulses on off x ∧
      m'.mem = mem := by
  obtain ⟨m', w, byte, whole, sent⟩ := h.ready.byte h.bit
  have last : m'.zero = true := by
    rw [sent.zero, h.count]
    simp
  have branch : Reaches code address ⟨[.brne .head20], m'⟩ [off] ⟨[], m'⟩ := by
    refine ⟨1, ?_, ?_⟩
    · simp [after, run, State.next, last]
    · simp [wave, trace, State.shows, State.cycles, last, sent.ready.level]
  refine ⟨m', w ++ [off], byte.trans branch, ?_, sent.mem.trans h.mem⟩
  have first : m.reg .byte = x := by simpa [eq_comm] using h.byte
  rw [pulses, ← first, ← whole, List.append_assoc]
  rfl

theorem Streaming.all {x : BitVec 8} {xs : List (BitVec 8)}
    (h : Streaming mem address on off (xs ++ [x]) m) :
    ∃ m' w, Reaches code address ⟨code .head20, m⟩ w ⟨[], m'⟩ ∧
      w ++ [off] = (xs ++ [x]).flatMap (pulses on off) ∧ m'.mem = mem := by
  obtain ⟨⟨_, m₁⟩, most, rfl, one⟩ := Reaches.each
    (fun bytes s => s.rest = code .head20 ∧ Streaming mem address on off bytes s.core)
    (pulses on off)
    (fun x y xs s ⟨here, streaming⟩ => by
      obtain ⟨_, m⟩ := s
      cases here
      obtain ⟨m', once, next⟩ := streaming.next
      exact ⟨_, once, rfl, next⟩) xs x ⟨code .head20, m⟩ ⟨rfl, h⟩
  obtain ⟨m', w, final, whole, same⟩ := one.last
  refine ⟨m', _, most.trans final, ?_, same⟩
  rw [List.append_assoc, whole, List.flatMap_append, List.flatMap_singleton]


/-- Clearing a pin that is low changes nothing. -/
theorem cleared (level pinMask : BitVec 8) (low : level &&& pinMask = 0) :
    level &&& ~~~pinMask = level := by
  have whole : level &&& (pinMask ||| ~~~pinMask) = level := by
    rw [BitVec.or_not_self, BitVec.and_allOnes]
  rw [BitVec.and_or_distrib_left, low] at whole
  exact (BitVec.zero_or).symm.trans whole

theorem start_streaming (port pixels : BitVec 16) (pinMask : BitVec 8) (zero carry : Bool)
    (bytes : List (BitVec 8)) (some_bytes : bytes ≠ []) (fits : bytes.length < 2 ^ 16)
    (buffer : Buffer mem port pixels bytes) (low : mem port &&& pinMask = 0) :
    Streaming mem port (mem port ||| pinMask) (mem port) bytes
      (start port pixels pinMask (BitVec.ofNat 16 bytes.length) mem zero carry).core := by
  obtain ⟨x, xs, rfl⟩ := List.exists_cons_of_ne_nil some_bytes
  obtain ⟨first, -, later⟩ := buffer
  have off := cleared (mem port) pinMask low
  exact ⟨⟨rfl, off, off, rfl, rfl⟩, rfl, congrArg some first.symm, later, fits, rfl, rfl⟩

/-- With the pin low at the start the loop comes to its end, and the bits of the buffer go
out back to back. Only the last one is a cycle short, as nothing branches back behind it. -/
theorem bytes_sent (port pixels : BitVec 16) (pinMask : BitVec 8) (zero carry : Bool)
    (bytes : List (BitVec 8)) (some_bytes : bytes ≠ []) (fits : bytes.length < 2 ^ 16)
    (buffer : Buffer mem port pixels bytes) (low : mem port &&& pinMask = 0) :
    let begun := start port pixels pinMask (BitVec.ofNat 16 bytes.length) mem zero carry
    ∃ enough, ∀ n, enough ≤ n →
      (after code n begun).rest = [] ∧ (after code n begun).core.mem = mem ∧
        wave code port n begun ++ [mem port] =
          bytes.flatMap (pulses (mem port ||| pinMask) (mem port)) := by
  intro begun
  have streaming := start_streaming port pixels pinMask zero carry bytes some_bytes fits buffer low
  rw [← List.dropLast_concat_getLast some_bytes] at streaming
  obtain ⟨m', w, sent, whole, same⟩ := streaming.all
  rw [List.dropLast_concat_getLast] at sent whole
  obtain ⟨enough, stable⟩ := sent.stable rfl
  refine ⟨enough, fun n le => ?_⟩
  obtain ⟨ended, shown⟩ := stable n le
  refine ⟨congrArg State.rest ended, ?_, ?_⟩
  · exact (congrArg (fun s => s.core.mem) ended).trans same
  · exact shown ▸ whole

end

/-! ### Cycle by cycle -/

section
variable {β γ : Type} (f : β → List γ) {w : Nat} (width : ∀ x, (f x).length = w)
include width

/-- Blocks of one length, back to back. -/
theorem length_flatMap (xs : List β) : (xs.flatMap f).length = w * xs.length := by
  induction xs with
  | nil => rfl
  | cons x rest ih =>
    rw [List.flatMap_cons, List.length_append, ih, width, List.length_cons, Nat.mul_succ,
      Nat.add_comm]

theorem getElem?_flatMap (xs : List β) (k t : Nat) (h : t < w) :
    (xs.flatMap f)[w * k + t]? = xs[k]?.bind fun x => (f x)[t]? := by
  induction xs generalizing k with
  | nil => rfl
  | cons x rest ih =>
    rw [List.flatMap_cons]
    cases k with
    | zero =>
      rw [List.getElem?_append_left (by rw [width]; omega), Nat.mul_zero, Nat.zero_add]
      rfl
    | succ k =>
      rw [List.getElem?_append_right (by rw [width, Nat.mul_succ]; omega), width,
        show w * (k + 1) + t - w = w * k + t by rw [Nat.mul_succ]; omega, ih,
        List.getElem?_cons_succ]

end

@[simp] theorem bits_length (b : BitVec 8) : (bits b).length = 8 := by simp [bits]

theorem bits_get (byte : BitVec 8) (b : Nat) (h : b < 8) :
    (bits byte)[b]? = some (byte.getLsbD (7 - b)) := by
  rw [bits, List.getElem?_map, List.getElem?_range h, Option.map_some]

theorem pulse_length (on off : BitVec 8) (b : Bool) : (pulse on off b).length = 20 := by
  simp [pulse]

theorem pulses_length (on off byte : BitVec 8) : (pulses on off byte).length = 160 := by
  rw [pulses, length_flatMap _ (pulse_length on off), bits_length]

/-- High from the third cycle on, for five cycles or for thirteen. -/
theorem pulse_cycle (on off : BitVec 8) (b : Bool) (t : Nat) (h : t < 20) :
    (pulse on off b)[t]? = some (if 2 ≤ t ∧ (t < 7 ∨ b ∧ t < 15) then on else off) := by
  simp only [pulse, List.getElem?_append, List.length_append, List.length_replicate,
    List.getElem?_replicate]
  cases b <;> grind

/-- **The waveform of a frame.** With the pin low at the start the loop ends, and leaves the
memory as it was, after twenty cycles for each bit of the buffer less one. In the twenty
cycles of a bit, most significant first, the pin is high from the third on: for five
cycles, or thirteen if the bit is set. -/
theorem waveform (port pixels : BitVec 16) (pinMask : BitVec 8) (mem : BitVec 16 → BitVec 8)
    (zero carry : Bool) (bytes : List (BitVec 8)) (some_bytes : bytes ≠ [])
    (fits : bytes.length < 2 ^ 16) (buffer : Buffer mem port pixels bytes)
    (low : mem port &&& pinMask = 0) :
    let begun := start port pixels pinMask (BitVec.ofNat 16 bytes.length) mem zero carry
    ∃ enough, ∀ n, enough ≤ n →
      (after code n begun).rest = [] ∧ (after code n begun).core.mem = mem ∧
        (wave code port n begun).length + 1 = 160 * bytes.length ∧
        ∀ j b t, j < bytes.length → b < 8 → t < 20 → 160 * j + 20 * b + t + 1 < 160 * bytes.length →
          (wave code port n begun)[160 * j + 20 * b + t]? =
            some (if 2 ≤ t ∧ (t < 7 ∨ ((bytes[j]?.getD 0).getLsbD (7 - b) ∧ t < 15))
              then mem port ||| pinMask else mem port) := by
  dsimp only
  obtain ⟨enough, stable⟩ := bytes_sent port pixels pinMask zero carry bytes some_bytes fits buffer low
  refine ⟨enough, fun n le => ?_⟩
  obtain ⟨ended, same, shown⟩ := stable n le
  refine ⟨ended, same, ?_, ?_⟩
  · have size := congrArg List.length shown
    rwa [length_flatMap _ (pulses_length _ _), List.length_append, List.length_singleton] at size
  · intro j b t hj hb ht before
    have size := congrArg List.length shown
    rw [length_flatMap _ (pulses_length _ _), List.length_append, List.length_singleton] at size
    have byte : bytes[j]? = some (bytes[j]?.getD 0) := by simp [hj]
    have inside (sent : List (BitVec 8)) (k : Nat) (hk : k < sent.length) :
        sent[k]? = (sent ++ [mem port])[k]? := (List.getElem?_append_left hk).symm
    rw [inside _ _ (by omega), shown, Nat.add_assoc,
      getElem?_flatMap _ (pulses_length _ _) _ _ _ (by omega), byte, Option.bind_some, pulses,
      getElem?_flatMap _ (pulse_length _ _) _ _ _ ht, bits_get _ _ hb, Option.bind_some,
      pulse_cycle _ _ _ _ ht, Option.getD_some]

/-- Two bytes, on a port with another pin high. -/
theorem waveform_two_bytes :
    let begun := start 0x2b 0x200 0x40 2 (memory 0x2b 0x80 0x200 [0xa5, 0x3c]) false false
    ∃ enough, ∀ n, enough ≤ n → (wave code 0x2b n begun).length + 1 = 320 := by
  intro begun
  obtain ⟨enough, stable⟩ := waveform 0x2b 0x200 0x40 (memory 0x2b 0x80 0x200 [0xa5, 0x3c]) false
    false [0xa5, 0x3c] (by decide) (by decide) (buffer_memory _ _ _ _ (by decide)) (by decide)
  exact ⟨enough, fun n le => (stable n le).2.2.1⟩

end CofferLed.Core.Show
