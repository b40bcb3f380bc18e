import CofferLed.Core.Overrun
import CofferLed.Protocol.CutOff

/-! From the line to `loop`, in time.

The receiver of the hardware, its interrupt, the ring and the program are one machine here, on
the clock of the processor. It needs what `Pace` says of bytes, frames and interrupts, and that
16 bytes take longer than an iteration of `loop` (`Tempo`). Then no byte is lost on its way,
whatever the bytes are (`nothing_lost`), and of the messages that have come in whole `loop` has
been given all but at most the last one (`one_behind`). -/
namespace CofferLed.Protocol
open Library CofferLed.Core Sketch Framing

/-- With the most cycles from one end point of `receiveMsg` to the next. -/
structure Tempo extends Pace where
  period : Nat
  often : period < 16 * gap

/-- The ring that is read is the one of the firmware's receiver. That of the inbox, which nobody
reads, plays no part. -/
structure Link (N : Nat) where
  inbox : Inbox
  firmware : Firmware N
  /-- The cycles since the last end point. -/
  iteration : Nat

inductive Moment where
  /-- The clock, the line, the interrupt, and the switch of all interrupts. -/
  | line (e : Inbox.Event)
  /-- The loop condition of `receiveMsg` is evaluated. -/
  | poll (clock : Clock)

namespace Link
variable {N : Nat}

def reset (tempo : Tempo) (N : Nat) (millis : BitVec 32) : Link N :=
  ⟨Inbox.reset tempo.toPace, Firmware.powerUp N millis, 0⟩

/-- What a moment is to the firmware. While interrupts are off the program is in `show`. -/
def moves : Moment → Link N → List Event
  | .line .irq, l => if l.inbox.masked then [] else (l.inbox.fifo.take 1).map Event.rx
  | .line _, _ => []
  | .poll clock, l => if l.inbox.masked then [] else [.poll clock]

/-- The clock waits for the interrupt, for the end of the frame, or for the end point. -/
def overdue (tempo : Tempo) (l : Link N) : Bool :=
  l.inbox.due tempo.toPace || tempo.period ≤ l.iteration

def step (tempo : Tempo) : Moment → Link N → Link N
  | .line .cycle, l =>
    if l.overdue tempo then l
    else {l with inbox := l.inbox.step tempo.toPace .cycle, iteration := l.iteration + 1}
  | .line e, l =>
    {l with
      inbox := l.inbox.step tempo.toPace e
      firmware := l.firmware.after (moves (.line e) l)}
  | .poll clock, l =>
    {l with
      firmware := l.firmware.after (moves (.poll clock) l)
      iteration :=
        if !l.inbox.masked && l.firmware.receiver.endsCall (.poll clock) then 0 else l.iteration}

def after (tempo : Tempo) (l : Link N) (moments : List Moment) : Link N :=
  run (step tempo) l moments

/-- The events of the firmware in a run. -/
def events (tempo : Tempo) (l : Link N) (moments : List Moment) : List Event :=
  trace (step tempo) moves l moments

/-! ### What waits -/

/-- The bytes of the message being read, those in the ring, and those in the hardware. -/
def waiting (l : Link N) : Nat :=
  l.firmware.receiver.rcvIdx + l.firmware.receiver.serial.pending.length + l.inbox.fifo.length

/-- `n` bytes since the last end point, the last of them `since` cycles ago. -/
def Within (tempo : Tempo) (l : Link N) (n : Nat) : Prop :=
  n = 0 ∨ n * tempo.gap + l.inbox.since ≤ l.iteration + tempo.gap

structure Sound (tempo : Tempo) (millis : BitVec 32) (past : List Event) (l : Link N) : Prop where
  inbox : Inbox.Sound tempo.toPace l.inbox
  moved : l.firmware = (Firmware.powerUp N millis).after past
  order : (Firmware.powerUp N millis).bytesRead past ++ l.firmware.receiver.serial.pending ++
    l.inbox.fifo = l.inbox.arrived
  index : l.firmware.receiver.rcvIdx ≤ 16
  period : l.iteration ≤ tempo.period
  backlog : ∃ n, l.Within tempo n ∧ l.waiting ≤ 16 + n

variable {tempo : Tempo} {millis : BitVec 32} {past : List Event} {l : Link N}

/-- An iteration is too short for a 17th byte. -/
theorem Within.few {n : Nat} (h : l.Within tempo n) (inside : l.iteration ≤ tempo.period) :
    n ≤ 16 := by
  rcases h with rfl | h
  · exact Nat.zero_le 16
  · have often := tempo.often
    by_contra many
    have := Nat.mul_le_mul_right tempo.gap (Nat.succ_le_of_lt (Nat.not_le.mp many))
    omega

theorem Sound.few (h : Sound tempo millis past l) : l.waiting ≤ 32 := by
  obtain ⟨n, within, bound⟩ := h.backlog
  have := within.few h.period
  omega

theorem sound_reset : Sound tempo millis [] (reset tempo N millis) := by
  refine ⟨Inbox.sound_reset, rfl, ?_, Nat.zero_le 16, Nat.zero_le _, 0, .inl rfl, ?_⟩
  · show [] ++ HardwareSerial.reset.pending ++ [] = []
    rw [HardwareSerial.pending_reset]
    rfl
  · show 0 + HardwareSerial.reset.pending.length + 0 ≤ 16
    rw [HardwareSerial.pending_reset]
    decide

/-- A step in which the firmware does nothing and no byte goes anywhere. -/
theorem Sound.quiet (h : Sound tempo millis past l) (b : Inbox) (sound : Inbox.Sound tempo.toPace b)
    (fifo : b.fifo = l.inbox.fifo) (arrived : b.arrived = l.inbox.arrived)
    (since : b.since = l.inbox.since) : Sound tempo millis past {l with inbox := b} := by
  refine ⟨sound, h.moved, ?_, h.index, h.period, ?_⟩
  · show _ ++ b.fifo = b.arrived
    rw [fifo, arrived]
    exact h.order
  · obtain ⟨n, within, bound⟩ := h.backlog
    refine ⟨n, ?_, ?_⟩
    · unfold Within at within ⊢
      rwa [since]
    · unfold waiting at bound ⊢
      rwa [fifo]

theorem sound_cycle (h : Sound tempo millis past l) :
    Sound tempo millis past (step tempo (.line .cycle) l) := by
  rw [step]
  split
  case isTrue => exact h
  case isFalse running =>
    rw [overdue, Bool.or_eq_true, not_or, Bool.not_eq_true, decide_eq_true_eq,
      Nat.not_le] at running
    obtain ⟨early, within⟩ := running
    have sound := Inbox.sound_step .cycle _ h.inbox
    rw [Inbox.step_cycle early] at sound ⊢
    refine ⟨sound, h.moved, h.order, h.index, within, ?_⟩
    obtain ⟨n, within, bound⟩ := h.backlog
    refine ⟨n, ?_, bound⟩
    rcases within with none | within
    · exact .inl none
    · right
      show n * tempo.gap + (l.inbox.since + 1) ≤ l.iteration + 1 + tempo.gap
      omega

theorem sound_byte (c : BitVec 8) (h : Sound tempo millis past l) :
    Sound tempo millis past (step tempo (.line (.byte c)) l) := by
  have sound := Inbox.sound_step (.byte c) _ h.inbox
  show Sound tempo millis past {l with inbox := l.inbox.step tempo.toPace (.byte c)}
  rcases Inbox.step_byte c h.inbox.timely with same | ⟨complete, free, came⟩
  · rw [same]
    exact h
  · have order := h.order
    rw [free, List.append_nil] at order
    rw [came] at sound ⊢
    refine ⟨sound, h.moved, ?_, h.index, h.period, ?_⟩
    · show _ ++ [c] = l.inbox.arrived ++ [c]
      rw [order]
    · obtain ⟨n, within, bound⟩ := h.backlog
      refine ⟨n + 1, .inr ?_, ?_⟩
      · show (n + 1) * tempo.gap + 0 ≤ l.iteration + tempo.gap
        rw [Nat.succ_mul]
        rcases within with rfl | within <;> omega
      · unfold waiting at bound ⊢
        rw [free, List.length_nil] at bound
        rw [List.length_singleton]
        dsimp only
        omega

/-! ### What the firmware does -/

theorem Sound.moved_on (h : Sound tempo millis past l) (es : List Event) :
    l.firmware.after es = (Firmware.powerUp N millis).after (past ++ es) := by
  rw [h.moved]
  exact (run_append _ _ _ _).symm

theorem Sound.read_on (h : Sound tempo millis past l) (es : List Event) :
    (Firmware.powerUp N millis).bytesRead (past ++ es) =
      (Firmware.powerUp N millis).bytesRead past ++ l.firmware.receiver.bytesRead es := by
  rw [← Firmware.bytesRead_receiver, h.moved]
  exact trace_append _ _ _ _ _

/-- The byte that the interrupt fetches finds room in the ring. -/
theorem sound_irq (h : Sound tempo millis past l) :
    Sound tempo millis (past ++ moves (.line .irq) l) (step tempo (.line .irq) l) := by
  have sound := Inbox.sound_step .irq _ h.inbox
  show Sound tempo millis _ {l with
    inbox := l.inbox.step tempo.toPace .irq
    firmware := l.firmware.after (moves (.line .irq) l)}
  rcases Inbox.step_irq h.inbox.one with ⟨idle, same⟩ | ⟨c, unmasked, waits, taken⟩
  · have still : moves (.line .irq) l = [] := by
      rcases idle with masked | none
      · rw [moves, if_pos masked]
      · rw [moves, none, List.take_nil, List.map_nil, ite_self]
    rw [still, same, List.append_nil]
    exact h
  · have moves_rx : moves (.line .irq) l = [.rx c] := by
      rw [moves, unmasked, if_neg Bool.false_ne_true, waits]
      rfl
    have few := h.few
    have order := h.order
    obtain ⟨n, within, bound⟩ := h.backlog
    unfold waiting at few bound
    rw [waits, List.length_singleton] at few bound
    have room : l.firmware.receiver.serial.available < 63 := by
      rw [← HardwareSerial.pending_length]
      omega
    have pending := l.firmware.receiver.serial.pending_rxCompleteIrq c room
    rw [taken] at sound
    rw [moves_rx, taken]
    refine ⟨sound, h.moved_on _, ?_, h.index, h.period, n, within, ?_⟩
    · rw [h.read_on]
      show _ ++ [] ++ (l.firmware.receiver.serial.rxCompleteIrq false c).pending ++ [] = _
      rw [pending, List.append_nil, List.append_nil, ← List.append_assoc, ← waits]
      exact order
    · show l.firmware.receiver.rcvIdx +
        (l.firmware.receiver.serial.rxCompleteIrq false c).pending.length + 0 ≤ 16 + n
      rw [pending, List.length_append, List.length_singleton]
      omega

/-- Reading moves a byte from the ring to the message. -/
theorem sound_read (clock : Clock) (reads : l.firmware.receiver.Condition)
    (h : Sound tempo millis past l) :
    Sound tempo millis (past ++ [.poll clock])
      {l with firmware := l.firmware.after [.poll clock]} := by
  obtain ⟨taken, moved⟩ := body_pending reads
  have order := h.order
  have receiver : (l.firmware.after [.poll clock]).receiver = l.firmware.receiver.body.val := by
    rw [Firmware.after_receiver, ← Receiver.step_body clock reads]
    rfl
  have read : l.firmware.receiver.bytesRead [.poll clock] = [l.firmware.receiver.rcvd] := by
    rw [Receiver.bytesRead_cons, Receiver.consumed_body clock reads]
    rfl
  refine ⟨h.inbox, h.moved_on _, ?_, ?_, h.period, ?_⟩
  · rw [h.read_on, read]
    show _ ++ (l.firmware.after [.poll clock]).receiver.serial.pending ++ _ = _
    rw [receiver, List.append_assoc _ [_], List.singleton_append, ← taken]
    exact order
  · show (l.firmware.after [.poll clock]).receiver.rcvIdx ≤ 16
    rw [Firmware.after_receiver]
    exact Receiver.after_idx_le _ h.index _
  · obtain ⟨n, within, bound⟩ := h.backlog
    refine ⟨n, within, ?_⟩
    unfold waiting at bound ⊢
    rw [taken, List.length_cons] at bound
    rw [receiver]
    dsimp only
    omega

/-- At an end point the ring is empty, or a whole message leaves. -/
theorem sound_end (clock : Clock) (ends : ¬ l.firmware.receiver.Condition)
    (h : Sound tempo millis past l) :
    Sound tempo millis (past ++ [.poll clock])
      {l with firmware := l.firmware.after [.poll clock], iteration := 0} := by
  have order := h.order
  have few := h.few
  have one := h.inbox.one
  have pending := finish_pending l.firmware.receiver
  have receiver : (l.firmware.after [.poll clock]).receiver = l.firmware.receiver.finish.2 := by
    rw [Firmware.after_receiver, ← Receiver.step_finish clock ends]
    rfl
  have read : l.firmware.receiver.bytesRead [.poll clock] = [] := by
    rw [Receiver.bytesRead_cons, Receiver.consumed_finish clock ends]
    rfl
  refine ⟨h.inbox, h.moved_on _, ?_, ?_, Nat.zero_le _, 0, .inl rfl, ?_⟩
  · rw [h.read_on, read, List.append_nil]
    show _ ++ (l.firmware.after [.poll clock]).receiver.serial.pending ++ _ = _
    rw [receiver, pending]
    exact order
  · show (l.firmware.after [.poll clock]).receiver.rcvIdx ≤ 16
    rw [receiver]
    exact Nat.le_of_lt (Receiver.finish_idx_lt _)
  · unfold waiting at few ⊢
    rw [receiver, pending]
    by_cases full : 16 ≤ l.firmware.receiver.rcvIdx
    · rw [Receiver.finish_delivers full]
      dsimp only
      omega
    · have empty : l.firmware.receiver.serial.available = 0 := by
        by_contra left
        exact ends ⟨left, Nat.not_le.mp full⟩
      rw [Receiver.finish_waits (Nat.not_le.mp full), HardwareSerial.pending_length, empty]
      dsimp only
      omega

theorem sound_step (m : Moment) (past : List Event) (l : Link N) (h : Sound tempo millis past l) :
    Sound tempo millis (past ++ moves m l) (step tempo m l) := by
  cases m with
  | line e =>
    have sound := Inbox.sound_step e _ h.inbox
    cases e with
    | cycle =>
      show Sound tempo millis (past ++ []) _
      rw [List.append_nil]
      exact sound_cycle h
    | byte c =>
      show Sound tempo millis (past ++ []) _
      rw [List.append_nil]
      exact sound_byte c h
    | irq => exact sound_irq h
    | mask =>
      show Sound tempo millis (past ++ []) _
      rw [List.append_nil]
      obtain ⟨fifo, arrived, since⟩ := Inbox.switch_keeps tempo.toPace (.inl rfl) l.inbox
      exact h.quiet _ sound fifo arrived since
    | unmask =>
      show Sound tempo millis (past ++ []) _
      rw [List.append_nil]
      obtain ⟨fifo, arrived, since⟩ := Inbox.switch_keeps tempo.toPace (.inr rfl) l.inbox
      exact h.quiet _ sound fifo arrived since
  | poll clock =>
    rw [step, moves]
    cases masked : l.inbox.masked with
    | true =>
      rw [if_pos rfl, List.append_nil]
      exact h
    | false =>
      rw [if_neg Bool.false_ne_true]
      by_cases reads : l.firmware.receiver.Condition
      · have goes_on : l.firmware.receiver.endsCall (.poll clock) = false := by
          simp [Receiver.endsCall, reads]
        rw [goes_on]
        exact sound_read clock reads h
      · have ends : l.firmware.receiver.endsCall (.poll clock) = true := by
          simp [Receiver.endsCall, reads]
        rw [ends]
        exact sound_end clock reads h

theorem sound_run (moments : List Moment) :
    Sound tempo millis ((reset tempo N millis).events tempo moments)
      ((reset tempo N millis).after tempo moments) :=
  run_history (Sound tempo millis) (fun past m l h => sound_step m past l h) _ sound_reset moments

/-! ### From power-up -/

/-- **Nothing is lost.** In every order of clock, bytes, interrupts, frames and polls: the program
is in a run from power-up, what it has read, what the ring holds and what the hardware holds
is what came in, in its order, and no more than 32 bytes ever wait. -/
theorem nothing_lost (tempo : Tempo) (N : Nat) (millis : BitVec 32) (moments : List Moment) :
    let l := (reset tempo N millis).after tempo moments
    let events := (reset tempo N millis).events tempo moments
    l.firmware = (Firmware.powerUp N millis).after events ∧ l.inbox.lost = 0 ∧
      (Firmware.powerUp N millis).bytesRead events ++ l.firmware.receiver.serial.pending ++
        l.inbox.fifo = l.inbox.arrived ∧
      l.firmware.receiver.rcvIdx + l.firmware.receiver.serial.available + l.inbox.fifo.length ≤
        32 := by
  intro l events
  have sound : Sound tempo millis events l := sound_run moments
  refine ⟨sound.moved, sound.inbox.none, sound.order, ?_⟩
  rw [← HardwareSerial.pending_length]
  exact sound.few

/-- **One behind.** While messages come in, `loop` has been given all of them that have come in
whole, or all but the last, and works with the last that it has been given. -/
theorem one_behind (tempo : Tempo) (N : Nat) (millis : BitVec 32) (moments : List Moment)
    (ms : List Message)
    (sent : ((reset tempo N millis).after tempo moments).inbox.arrived <+:
      ms.flatMap Message.wire) :
    let l := (reset tempo N millis).after tempo moments
    let events := (reset tempo N millis).events tempo moments
    let whole := l.inbox.arrived.length / 17
    ∃ given, (given = whole ∨ given + 1 = whole) ∧
      (Firmware.powerUp N millis).deliveries events = (ms.take given).map Message.delivery ∧
      (⟨l.firmware.modeState, l.firmware.rcvBuffer⟩ : Delivery) =
        lastOf ((ms.take given).map Message.delivery) := by
  intro l events whole
  have sound : Sound tempo millis events l := sound_run moments
  have few := sound.few
  have order := sound.order
  have read : (Firmware.powerUp N millis).bytesRead events <+: ms.flatMap Message.wire := by
    refine List.IsPrefix.trans ?_ sent
    show _ <+: l.inbox.arrived
    rw [← order, List.append_assoc]
    exact List.prefix_append _ _
  obtain ⟨given, deliveries, least, most⟩ := cut_messages millis events ms read
  rw [← sound.moved] at most
  have length := congrArg List.length order
  rw [List.length_append, List.length_append] at length
  unfold waiting at few
  refine ⟨given, ?_, deliveries, ?_⟩
  · have enough : given ≤ whole := by omega
    have near : whole ≤ given + 1 := by omega
    omega
  · rw [sound.moved, handed_over, deliveries]

/-- A line on which a byte takes ten cycles. -/
def quick : Tempo := ⟨⟨10, 3, 2, 1, by decide, by decide⟩, 100, by decide⟩

/-- A byte that comes while a frame goes out. -/
def framed (c : BitVec 8) : List Moment :=
  [.line .mask, .line (.byte c), .line .cycle, .line .unmask, .line .irq, .poll ⟨7, 7⟩,
    .poll ⟨7, 7⟩] ++ List.replicate 9 (.line .cycle)

/-- A whole message, each byte of it behind a frame. -/
theorem one_behind_quick :
    let moments := allBooted.wire.flatMap framed
    ((reset quick 98 0).after quick moments).inbox.arrived = allBooted.wire ∧
      ∃ given, (given = 1 ∨ given + 1 = 1) ∧
        (Firmware.powerUp 98 0).deliveries ((reset quick 98 0).events quick moments) =
          ([allBooted].take given).map Message.delivery := by
  intro moments
  have arrived : ((reset quick 98 0).after quick moments).inbox.arrived = allBooted.wire := by
    decide +kernel
  have sent : ((reset quick 98 0).after quick moments).inbox.arrived <+:
      [allBooted].flatMap Message.wire :=
    ⟨[], by rw [arrived, List.append_nil, List.flatMap_singleton]⟩
  obtain ⟨given, count, deliveries, -⟩ := one_behind quick 98 0 moments [allBooted] sent
  rw [arrived, allBooted.wire_length] at count
  exact ⟨arrived, given, count, deliveries⟩

end Link

end CofferLed.Protocol
