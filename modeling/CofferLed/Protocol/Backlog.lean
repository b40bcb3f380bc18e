import CofferLed.Protocol.Schedule

/-! The receive ring never overflows.

A call may read as little as one byte, so what is left in the ring cannot be bounded
from the calls one by one. What is bounded is the backlog together with the index: with
`n` bytes since the last end point of a call they come to at most `15 + n` (`Backlog`).
Reading moves a byte from the one to the other, and at an end point either the ring is
empty or 16 bytes leave at once. -/
namespace CofferLed.Protocol
open Library CofferLed.Core Sketch

/-- What counts for the pace of a run: bytes that arrive, and end points of calls. -/
inductive Mark where
  | arrival
  | endPoint
  deriving DecidableEq

def mark : Event → Receiver → List Mark
  | .rx _, _ => [.arrival]
  | .poll clock, r => if r.endsCall (.poll clock) then [.endPoint] else []

def marks {N : Nat} (f : Firmware N) (events : List Event) : List Mark :=
  trace (fun e f => (Firmware.step e f).val) (fun e f => mark e f.receiver) f events

/-- No more than 16 bytes arrive in a stretch without an end point: before the first,
between two, and since the last, when the next is still to come. -/
def Paced (ms : List Mark) : Prop :=
  ∀ stretch, stretch <:+: ms → (∀ m ∈ stretch, m = .arrival) → stretch.length ≤ 16

theorem Paced.of_append {past later : List Mark} (h : Paced (past ++ later)) : Paced past :=
  fun stretch inside => h stretch (inside.trans (List.infix_append_left))

/-- A run in which no more than 16 bytes arrive at all. -/
theorem paced_of_few {ms : List Mark} (h : (ms.filter (· = .arrival)).length ≤ 16) : Paced ms := by
  intro stretch inside arrivals
  have all : stretch.filter (· = .arrival) = stretch :=
    List.filter_eq_self.mpr fun m hm => decide_eq_true (arrivals m hm)
  have part := (inside.sublist.filter (· = .arrival)).length_le
  rw [all] at part
  exact part.trans h

/-- After `past`: the index and the backlog against the arrivals since the last end
point. -/
structure Backlog (past : List Mark) (r : Receiver) : Prop where
  index : r.rcvIdx ≤ 16
  bound : ∃ stretch, stretch <:+ past ∧ (∀ m ∈ stretch, m = .arrival) ∧
    r.rcvIdx + r.serial.pending.length ≤ 15 + stretch.length

/-- At an end point nothing is left to read or 16 bytes are handed over. -/
theorem Backlog.at_end {past : List Mark} {r : Receiver} (h : Backlog past r) (paced : Paced past)
    (ends : ¬ r.Condition) : r.finish.2.rcvIdx + r.serial.pending.length ≤ 15 := by
  obtain ⟨stretch, last, arrivals, bound⟩ := h.bound
  have few := paced stretch last.isInfix arrivals
  by_cases full : 16 ≤ r.rcvIdx
  · rw [Receiver.finish_delivers full]
    show 0 + r.serial.pending.length ≤ 15
    omega
  · have empty : r.serial.available = 0 := by
      by_contra left
      exact ends ⟨left, Nat.not_le.mp full⟩
    rw [Receiver.finish_waits (Nat.not_le.mp full), r.serial.pending_length, empty]
    show r.rcvIdx + 0 ≤ 15
    omega

theorem backlog_step (past : List Mark) (e : Event) (r : Receiver) (h : Backlog past r)
    (paced : Paced past) : Backlog (past ++ mark e r) (Receiver.step e r).val := by
  have index := Receiver.step_idx_le e r h.index
  obtain ⟨stretch, last, arrivals, bound⟩ := h.bound
  cases e with
  | rx b =>
    refine ⟨index, stretch ++ [.arrival], ?_, ?_, ?_⟩
    · exact List.suffix_append_self_iff.mpr last
    · intro m hm
      rcases List.mem_append.mp hm with hm | hm
      · exact arrivals m hm
      · exact List.mem_singleton.mp hm
    · have grown := r.serial.pending_rxCompleteIrq_eq b
      show r.rcvIdx + (r.serial.rxCompleteIrq false b).pending.length ≤ _
      rw [grown, List.length_append, List.length_singleton]
      split
      · rw [List.length_append, List.length_singleton]
        omega
      · omega
  | poll clock =>
    by_cases hc : r.Condition
    · obtain ⟨taken, moved⟩ := body_pending hc
      have ends : r.endsCall (.poll clock) = false := by simp [Receiver.endsCall, hc]
      rw [mark, ends, Receiver.step_body clock hc] at *
      refine ⟨index, stretch, by simpa using last, arrivals, ?_⟩
      rw [taken, List.length_cons] at bound
      omega
    · have ends : r.endsCall (.poll clock) = true := by simp [Receiver.endsCall, hc]
      have within := h.at_end paced hc
      rw [mark, ends, Receiver.step_finish clock hc] at *
      refine ⟨index, [], List.nil_suffix, fun m hm => absurd hm List.not_mem_nil, ?_⟩
      rw [finish_pending]
      exact within

theorem backlog_run (r : Receiver) (start : Backlog [] r) (events : List Event)
    (paced : Paced (trace (fun e r => (Receiver.step e r).val) mark r events)) :
    Backlog (trace (fun e r => (Receiver.step e r).val) mark r events) (r.after events) := by
  refine run_history (fun past r => Paced past → Backlog past r) ?_ r (fun _ => start) events paced
  intro past e r h paced
  exact backlog_step past e r (h paced.of_append) paced.of_append

/-! ### The firmware -/

variable {N : Nat}

theorem marks_receiver (f : Firmware N) (events : List Event) :
    marks f events = trace (fun e r => (Receiver.step e r).val) mark f.receiver events :=
  trace_project (fun f : Firmware N => f.receiver) Firmware.step_receiver (fun _ _ => rfl) f events

theorem marks_append (f : Firmware N) (before rest : List Event) :
    marks f (before ++ rest) = marks f before ++ marks (f.after before) rest :=
  trace_append _ _ _ _ _

private theorem backlog_before (millis : BitVec 32) {before events : List Event}
    (paced : Paced (marks (Firmware.powerUp N millis) events)) (part : before <+: events) :
    Paced (marks (Firmware.powerUp N millis) before) ∧
      Backlog (marks (Firmware.powerUp N millis) before)
        ((Firmware.powerUp N millis).after before).receiver := by
  obtain ⟨rest, rfl⟩ := part
  rw [marks_append] at paced
  have here := paced.of_append
  have start : Backlog [] Receiver.reset :=
    ⟨by decide, [], List.nil_suffix, nofun, by rw [Receiver.reset, HardwareSerial.pending_reset]; decide⟩
  rw [marks_receiver] at here ⊢
  rw [Firmware.after_receiver]
  exact ⟨here, backlog_run _ start before here⟩

/-- **No byte is dropped.** In a run from power-up with at most 16 bytes between end
points, at every end point the index on return and the bytes pending come to 15 at most;
the ring never holds more than 31 bytes, and every byte that arrives finds room. -/
theorem nothing_dropped (millis : BitVec 32) (events : List Event)
    (paced : Paced (marks (Firmware.powerUp N millis) events)) :
    let f := Firmware.powerUp N millis
    (∀ before clock rest, events = before ++ Event.poll clock :: rest →
        let r := (f.after before).receiver
        r.endsCall (.poll clock) = true →
          r.finish.2.rcvIdx + r.serial.pending.length ≤ 15) ∧
      (∀ before, before <+: events → (f.after before).receiver.serial.available ≤ 31) ∧
      ∀ before b rest, events = before ++ Event.rx b :: rest →
        let serial := (f.after before).receiver.serial
        (serial.rxCompleteIrq false b).pending = serial.pending ++ [b] := by
  intro f
  have ring : ∀ before, before <+: events → (f.after before).receiver.serial.available ≤ 31 := by
    intro before part
    obtain ⟨here, backlog⟩ := backlog_before millis paced part
    obtain ⟨stretch, last, arrivals, bound⟩ := backlog.bound
    have few := here stretch last.isInfix arrivals
    rw [← HardwareSerial.pending_length]
    show ((Firmware.powerUp N millis).after before).receiver.serial.pending.length ≤ 31
    omega
  refine ⟨?_, ring, ?_⟩
  · intro before clock rest split_run r ends
    obtain ⟨here, backlog⟩ := backlog_before millis paced ⟨_, split_run.symm⟩
    exact backlog.at_end here (by simpa [Receiver.endsCall] using ends)
  · intro before b rest split_run serial
    have room := ring before ⟨_, split_run.symm⟩
    exact serial.pending_rxCompleteIrq b (Nat.lt_of_le_of_lt room (by decide))

/-- A message that arrives all at once but for its last byte. -/
theorem nothing_dropped_burst :
    let events := (0xF1 :: List.replicate 15 1).map Event.rx ++ List.replicate 17 (Event.poll ⟨7, 7⟩)
    ∀ before, before <+: events →
      ((Firmware.powerUp 98 0).after before).receiver.serial.available ≤ 31 := by
  intro events
  have few : Paced (marks (Firmware.powerUp 98 0) events) := by
    apply paced_of_few
    rw [marks_receiver]
    decide +kernel
  exact (nothing_dropped 0 events few).2.1

end CofferLed.Protocol
