import CofferLed.Protocol.RoundTrip

/-! Messages that are still coming in.

Of a stream of messages that has been read up to any byte, those that came whole are handed
over, in order; only the last of them may still be held by the call that read it
(`cut_messages`). -/
namespace CofferLed.Protocol
open Library CofferLed.Core Sketch Framing

def Message.wire (m : Message) : List (BitVec 8) := m.header :: m.data.toList

/-- A message on a line that damages nothing. -/
def Message.sent (m : Message) : Sent protocol := Transmission.sent ⟨m, fun _ => .intact⟩

theorem Message.sent_intact (m : Message) : Intact m.sent.data :=
  (Transmission.sent_intact _).mpr fun _ => rfl

theorem Message.sent_wire (m : Message) : m.sent.wire = m.wire := by
  have data : ((List.finRange 16).flatMap fun i => Fate.intact.arrives (m.data.get i)) =
      m.data.toList := by
    show ((List.finRange 16).flatMap fun i => [m.data.get i]) = _
    rw [← List.map_eq_flatMap]
    apply List.ext_getElem
    · simp
    · intro i _ _
      simp [Vector.get]
  rw [Message.sent, Transmission.sent_wire, Transmission.wire, data, Message.wire]

theorem Message.wire_length (m : Message) : m.wire.length = 17 := by
  rw [Message.wire, List.length_cons, Vector.length_toList]

/-- A message is complete with a data byte. -/
theorem complete_with_data (r : Receiver) (between : r.rcvIdx < 16) (events : List Event)
    (full : 16 ≤ (r.after events).rcvIdx) :
    ∃ b, (r.bytesRead events).getLast? = some b ∧ protocol.header b = none := by
  refine run_history (fun past (r : Receiver) => 16 ≤ r.rcvIdx →
    ∃ b, past.getLast? = some b ∧ protocol.header b = none) ?_ r
    (fun full => absurd full (Nat.not_le.mpr between)) events full
  intro past e r h
  cases e with
  | rx c =>
    rw [Receiver.consumed, List.append_nil]
    exact h
  | poll clock =>
    by_cases hc : r.Condition
    · rw [Receiver.consumed_body clock hc, Receiver.step_body clock hc]
      cases hh : Receiver.isHeader r.rcvd with
      | true =>
        rw [Receiver.body_header hh]
        exact fun full => absurd full (Nat.not_succ_le_zero 15)
      | false =>
        intro _
        exact ⟨r.rcvd, by simp, data_of_isHeader hh⟩
    · rw [Receiver.step_finish clock hc]
      exact fun full => absurd full (Nat.not_le.mpr (Receiver.finish_idx_lt r))

/-- What has been handed over and what the call still holds are the first messages; what came
after them is a header and the data since. -/
theorem cut_held {N : Nat} (millis : BitVec 32) (events : List Event) (ms : List Message)
    (part : (Firmware.powerUp N millis).bytesRead events <+: ms.flatMap Message.wire) :
    let f := Firmware.powerUp N millis
    let r := (f.after events).receiver
    ∃ k before, f.deliveries events ++ held r = (ms.take k).map Message.delivery ∧
      before.length = 17 * k ∧ k ≤ ms.length ∧
      (f.bytesRead events = before ∨ ∃ a, protocol.header a ≠ none ∧
        f.bytesRead events = before ++ a :: (view r).received ∧
        (view r).received.length < 16) := by
  intro f r
  obtain ⟨out, kept⟩ := run_refines f events
  have stream : f.bytesRead events <+: (ms.map Message.sent).flatMap Sent.wire := by
    rw [List.flatMap_map]
    simpa only [Message.sent_wire] using part
  have clean : ∀ m ∈ ms.map Message.sent, Intact m.data := by
    intro m among
    obtain ⟨m, _, rfl⟩ := List.mem_map.mp among
    exact m.sent_intact
  obtain ⟨k, before, frames, length, le, cut⟩ := cut_stream _ clean _ (view f.receiver) stream
  rw [← kept] at cut
  refine ⟨k, before, ?_, ?_, List.length_map (f := Message.sent) ▸ le, cut⟩
  · apply List.map_injective_iff.mpr frameOf_injective
    have frame (m : Message) : m.sent.frame = frameOf m.delivery := Transmission.sent_frame _
    rw [out, frames, ← List.map_take, List.map_map, List.map_map]
    simp only [Function.comp_def, frame]
    rfl
  · rw [length, Nat.mul_comm]
    rfl

/-- **Cut off.** A run from power-up that has read a part of a stream of messages has handed over
the first of them, all but the one being read. -/
theorem cut_messages {N : Nat} (millis : BitVec 32) (events : List Event) (ms : List Message)
    (part : (Firmware.powerUp N millis).bytesRead events <+: ms.flatMap Message.wire) :
    let f := Firmware.powerUp N millis
    ∃ d, f.deliveries events = (ms.take d).map Message.delivery ∧
      17 * d ≤ (f.bytesRead events).length ∧
      (f.bytesRead events).length ≤ 17 * d + 1 + (f.after events).receiver.rcvIdx := by
  intro f
  have idx : (f.after events).receiver.rcvIdx ≤ 16 := by
    rw [Firmware.after_receiver]
    exact Receiver.after_idx_le _ (Nat.zero_le 16) events
  obtain ⟨k, before, all, length, le, cut⟩ := cut_held millis events ms part
  rcases Nat.lt_or_eq_of_le idx with between | full
  · rw [held_between between, List.append_nil] at all
    rw [view_between between] at cut
    refine ⟨k, all, ?_⟩
    rcases cut with same | ⟨a, _, split, _⟩
    · rw [same]
      omega
    · rw [split, List.length_append, List.length_cons, List.length_take, Vector.length_toList,
        length]
      omega
  · -- The call holds the last message, which is not handed over yet.
    have whole : f.bytesRead events = before := by
      rcases cut with same | ⟨a, header, split, _⟩
      · exact same
      · obtain ⟨b, last, data⟩ := complete_with_data f.receiver (Nat.zero_lt_succ 15) events (by
          rw [← Firmware.after_receiver]
          exact Nat.le_of_eq full.symm)
        rw [view, full, if_pos (Nat.le_refl 16)] at split
        rw [← Firmware.bytesRead_receiver, split, List.getLast?_append_of_ne_nil _ (by simp),
          List.getLast?_singleton, Option.some.injEq] at last
        exact absurd (last ▸ data) header
    rw [held, full, if_pos (Nat.le_refl 16)] at all
    have count := congrArg List.length all
    have short := congrArg List.dropLast all
    rw [List.length_append, List.length_singleton, List.length_map, List.length_take,
      Nat.min_eq_left le] at count
    rw [List.dropLast_concat, ← List.map_dropLast, List.dropLast_eq_take, List.length_take,
      Nat.min_eq_left le, List.take_take, Nat.min_eq_left (Nat.sub_le k 1)] at short
    refine ⟨k - 1, short, ?_⟩
    rw [whole, length, full]
    omega

end CofferLed.Protocol
