import CofferLed.Protocol.Refinement

/-! Runs of the receiver that read the same bytes.

How the bytes of a stream are spread over the calls of `receiveMsg`, and when they
arrive, makes no difference to what is handed over nor to what is kept for the next
call. What `loop` works with is always one message as a whole: the last one. -/
namespace CofferLed.Protocol
open Library CofferLed.Core Sketch Framing

/-! ### One byte at a time -/

/-- Every byte arrives on its own, and is read before the next one. -/
def oneByOne (clock : Clock) (xs : List (BitVec 8)) : List Event :=
  xs.flatMap fun b => [.rx b, .poll clock, .poll clock]

/-- Nothing is left to read, and nothing to hand over. -/
structure Idle (r : Receiver) : Prop where
  empty : r.serial.pending = []
  between : r.rcvIdx < 16

theorem idle_reset : Idle Receiver.reset := ⟨HardwareSerial.pending_reset, by decide⟩

theorem not_condition_of_empty {r : Receiver} (h : r.serial.pending = []) : ¬ r.Condition := by
  intro hc
  have := r.serial.pending_length
  rw [h] at this
  exact hc.1 this.symm

/-- Reading takes the oldest byte and moves the index by at most one. -/
theorem body_pending {r : Receiver} (h : r.Condition) :
    r.serial.pending = r.rcvd :: r.body.val.serial.pending ∧
      r.body.val.rcvIdx ≤ r.rcvIdx + 1 := by
  obtain ⟨b, read, pending⟩ := r.serial.pending_read h.1
  have rcvd : r.rcvd = b := by rw [Receiver.rcvd, read, Option.getD_some]
  cases hh : Receiver.isHeader r.rcvd with
  | true =>
    rw [Receiver.body_header hh, rcvd]
    exact ⟨pending, Nat.zero_le _⟩
  | false =>
    rw [Receiver.body_data hh, rcvd]
    exact ⟨pending, Nat.le_refl _⟩

theorem finish_pending (r : Receiver) : r.finish.2.serial.pending = r.serial.pending := by
  unfold Receiver.finish
  split <;> rfl

/-- A byte on its own is read, and leaves the receiver idle again. -/
theorem oneByOne_step (clock : Clock) (b : BitVec 8) {r : Receiver} (h : Idle r) :
    r.bytesRead [.rx b, .poll clock, .poll clock] = [b] ∧
      Idle (r.after [.rx b, .poll clock, .poll clock]) := by
  let arrived : Receiver := {r with serial := r.serial.rxCompleteIrq false b}
  have room : r.serial.available < 63 := by
    rw [← r.serial.pending_length, h.empty]
    decide
  have pending : arrived.serial.pending = [b] := by
    rw [r.serial.pending_rxCompleteIrq b room, h.empty, List.nil_append]
  have reads : arrived.Condition := by
    refine ⟨?_, h.between⟩
    rw [← arrived.serial.pending_length, pending]
    exact Nat.one_ne_zero
  obtain ⟨taken, _⟩ := body_pending reads
  rw [pending, List.cons.injEq] at taken
  have ends := not_condition_of_empty taken.2.symm
  rw [Receiver.bytesRead_cons, Receiver.bytesRead_cons, Receiver.bytesRead_cons,
    Receiver.after_cons, Receiver.after_cons, Receiver.after_cons]
  show [] ++ (Receiver.consumed (.poll clock) arrived ++ (_ ++ [])) = [b] ∧ _
  rw [Receiver.consumed_body clock reads, Receiver.step_rx]
  show _ ++ ([arrived.rcvd] ++ ((Receiver.step (.poll clock) arrived).val.consumed _ ++ [])) = _ ∧
    Idle (Receiver.step (.poll clock) (Receiver.step (.poll clock) arrived).val).val
  rw [Receiver.step_body clock reads, Receiver.consumed_finish clock ends,
    Receiver.step_finish clock ends, ← taken.1]
  exact ⟨rfl, (finish_pending _).trans taken.2.symm, Receiver.finish_idx_lt _⟩

theorem oneByOne_reads (clock : Clock) (xs : List (BitVec 8)) {r : Receiver} (h : Idle r) :
    r.bytesRead (oneByOne clock xs) = xs ∧ Idle (r.after (oneByOne clock xs)) := by
  induction xs generalizing r with
  | nil => exact ⟨rfl, h⟩
  | cons b rest ih =>
    obtain ⟨read, idle⟩ := oneByOne_step clock b h
    obtain ⟨later, last⟩ := ih idle
    have events : oneByOne clock (b :: rest) =
        [.rx b, .poll clock, .poll clock] ++ oneByOne clock rest := rfl
    rw [events, Receiver.bytesRead_append, Receiver.after_append, read, later]
    exact ⟨rfl, last⟩

/-! ### What a run leaves behind -/

/-- The variables that a message goes through, with the bytes that count. -/
structure Statics where
  rcvIdx : Nat
  rcvdMode : BitVec 8
  received : List (BitVec 8)
  modeState : ModeBits
  rcvBuffer : Vector (BitVec 8) 16

def statics {N : Nat} (f : Firmware N) : Statics :=
  { rcvIdx := f.receiver.rcvIdx
    rcvdMode := f.receiver.rcvdMode
    received := f.receiver.rcvBuffer.toList.take f.receiver.rcvIdx
    modeState := f.modeState
    rcvBuffer := f.rcvBuffer }

/-- The mode and the data of the last message, or those of power-up. -/
def lastOf (ds : List Delivery) : Delivery :=
  ds.getLast?.getD ⟨ModeBits.none, Vector.replicate 16 0⟩

theorem lastOf_append (past : List Delivery) (d : Delivery) : lastOf (past ++ [d]) = d := by
  simp [lastOf]

theorem body_keeps (r : Receiver) :
    r.body.val.modeStatus = r.modeStatus ∧ r.body.val.buffer = r.buffer := by
  cases hh : Receiver.isHeader r.rcvd with
  | true =>
    rw [Receiver.body_header hh]
    exact ⟨rfl, rfl⟩
  | false =>
    rw [Receiver.body_data hh]
    exact ⟨rfl, rfl⟩

/-- The mode and the data change only together, to those of a message handed over. -/
theorem delivered_last (r : Receiver) (events : List Event)
    (start : (⟨r.modeStatus, r.buffer⟩ : Delivery) = lastOf []) :
    (⟨(r.after events).modeStatus, (r.after events).buffer⟩ : Delivery) =
      lastOf (r.deliveries events) := by
  refine run_history
    (fun past (r : Receiver) => (⟨r.modeStatus, r.buffer⟩ : Delivery) = lastOf past) ?_ r start events
  intro past e r h
  cases e with
  | rx c =>
    show _ = lastOf (past ++ [])
    rw [List.append_nil]
    exact h
  | poll clock =>
    by_cases hc : r.Condition
    · obtain ⟨mode, data⟩ := body_keeps r
      rw [Receiver.delivered, Receiver.turn_body clock hc, Receiver.step_body clock hc, mode, data,
        List.filterMap_nil, List.append_nil, h]
    · rw [Receiver.delivered, Receiver.turn_finish clock hc, Receiver.step_finish clock hc]
      by_cases full : 16 ≤ r.rcvIdx
      · rw [Receiver.finish_delivers full]
        exact (lastOf_append past _).symm
      · rw [Receiver.finish_waits (Nat.not_le.mp full)]
        simpa [Turn.delivery] using h

/-! ### Two runs -/

variable {N : Nat}

/-- A run from power-up that reads the stream, to a point where no complete message is
left to hand over. -/
structure Consumes (millis : BitVec 32) (events : List Event) (stream : List (BitVec 8)) : Prop where
  reads : (Firmware.powerUp N millis).bytesRead events = stream
  between : ((Firmware.powerUp N millis).after events).receiver.rcvIdx < 16

theorem handed_over (millis : BitVec 32) (events : List Event) :
    (⟨((Firmware.powerUp N millis).after events).modeState,
        ((Firmware.powerUp N millis).after events).rcvBuffer⟩ : Delivery) =
      lastOf ((Firmware.powerUp N millis).deliveries events) := by
  unfold Firmware.modeState Firmware.rcvBuffer
  rw [Firmware.deliveries_receiver, Firmware.after_receiver]
  exact delivered_last Receiver.reset events rfl

/-- Two runs over one stream hand over the same and keep the same. -/
theorem Consumes.agree {millis millis' : BitVec 32} {events events' : List Event}
    {stream : List (BitVec 8)} (h : Consumes (N := N) millis events stream)
    (h' : Consumes (N := N) millis' events' stream) :
    (Firmware.powerUp N millis).deliveries events =
        (Firmware.powerUp N millis').deliveries events' ∧
      statics ((Firmware.powerUp N millis).after events) =
        statics ((Firmware.powerUp N millis').after events') := by
  have out : (Firmware.powerUp N millis).deliveries events =
      (Firmware.powerUp N millis').deliveries events' := by
    apply List.map_injective_iff.mpr frameOf_injective
    rw [deliveries_between _ _ idle_reset.between h.between,
      deliveries_between _ _ idle_reset.between h'.between, h.reads, h'.reads]
    rfl
  refine ⟨out, ?_⟩
  have kept : view ((Firmware.powerUp N millis).after events).receiver =
      view ((Firmware.powerUp N millis').after events').receiver := by
    rw [(run_refines _ _).2, (run_refines _ _).2, h.reads, h'.reads]
    rfl
  rw [view_between h.between, view_between h'.between, State.mk.injEq] at kept
  obtain ⟨mode, received⟩ := kept
  have idx := congrArg List.length received
  have lt := h.between
  have lt' := h'.between
  simp only [List.length_take, Vector.length_toList] at idx
  rw [Nat.min_eq_left (Nat.le_of_lt lt), Nat.min_eq_left (Nat.le_of_lt lt')] at idx
  have last := handed_over (N := N) millis events
  rw [out, ← handed_over (N := N) millis' events', Delivery.mk.injEq] at last
  rw [statics, statics, Statics.mk.injEq]
  exact ⟨idx, mode, received, last.1, last.2⟩

theorem oneByOne_firmware (f : Firmware N) (idle : Idle f.receiver) (clock : Clock)
    (stream : List (BitVec 8)) :
    f.bytesRead (oneByOne clock stream) = stream ∧
      Idle (f.after (oneByOne clock stream)).receiver := by
  rw [Firmware.bytesRead_receiver, Firmware.after_receiver]
  exact oneByOne_reads clock stream idle

theorem oneByOne_consumes (millis : BitVec 32) (clock : Clock) (stream : List (BitVec 8)) :
    Consumes (N := N) millis (oneByOne clock stream) stream := by
  obtain ⟨reads, idle⟩ := oneByOne_firmware (Firmware.powerUp N millis) idle_reset clock stream
  exact ⟨reads, idle.between⟩

/-- **Schedules.** Runs from power-up that read the same stream hand over the same
messages and keep the same for the next call, as if every byte had come on its own. In
each of them, at every moment, mode and data are those of the last message. -/
theorem schedule_independence (clock : Clock) (millis millis' : BitVec 32)
    (events events' : List Event) (stream : List (BitVec 8))
    (h : Consumes (N := N) millis events stream)
    (h' : Consumes (N := N) millis' events' stream) :
    let f := Firmware.powerUp N millis
    let f' := Firmware.powerUp N millis'
    let alone := oneByOne clock stream
    (f.deliveries events = f'.deliveries events' ∧
        statics (f.after events) = statics (f'.after events')) ∧
      (Consumes (N := N) millis alone stream ∧ f.deliveries events = f.deliveries alone ∧
        statics (f.after events) = statics (f.after alone)) ∧
      ∀ before, before <+: events →
        (⟨(f.after before).modeState, (f.after before).rcvBuffer⟩ : Delivery) =
          lastOf (f.deliveries before) := by
  have alone := oneByOne_consumes (N := N) millis clock stream
  exact ⟨h.agree h', ⟨alone, h.agree alone⟩, fun before _ => handed_over millis before⟩

/-- A message that arrives while the strip is being shown, and its bytes one by one. -/
theorem schedule_independence_burst :
    let clock : Clock := ⟨7, 7⟩
    let stream : List (BitVec 8) := 0xF1 :: List.replicate 16 1
    let burst := stream.map Event.rx ++ List.replicate 18 (Event.poll clock)
    (Firmware.powerUp 98 0).deliveries burst =
      (Firmware.powerUp 98 5).deliveries (oneByOne clock stream) := by
  intro clock stream burst
  have h : Consumes (N := 98) 0 burst stream := by
    constructor
    · rw [Firmware.bytesRead_receiver]
      decide +kernel
    · rw [Firmware.after_receiver]
      decide +kernel
  exact (schedule_independence clock 0 5 burst _ stream h
    (oneByOne_consumes 5 clock stream)).1.1

end CofferLed.Protocol
