import CofferLed.Library.Framing
import CofferLed.Sketch.Loop

/-! `receiveMsg` refines the receiver of fixed-length frames.

The source reads a message out of three statics in steps of one byte, may stop at any
byte, and hands a complete message over in a step of its own. Seen as a receiver of
frames (`view`) it has the mode of the last header and the bytes since then; a message
that is complete and not yet handed over is `held`. One event of the source is the
symbols it reads, or nothing (`step_refines`), so a run hands over the frames of the
bytes it reads (`run_refines`). -/
namespace CofferLed.Protocol
open Library CofferLed.Core Sketch Framing

/-- The protocol: a header byte with a mode, and 16 data bytes. -/
def protocol : Format (BitVec 8) (BitVec 8) where
  header b := if Receiver.isHeader b then some (b &&& ~~~ModeBits.magicNumber.val) else none
  length := 16
  positive := by decide

def frameOf (d : Delivery) : Frame (BitVec 8) (BitVec 8) := ⟨d.mode.val, d.data.toList⟩

theorem frameOf_injective : Function.Injective frameOf := by
  intro a b h
  obtain ⟨⟨_⟩, _⟩ := a
  obtain ⟨⟨_⟩, _⟩ := b
  simp only [frameOf, Frame.mk.injEq, Vector.toList_inj] at h
  rw [h.1, h.2]

/-- A complete message that `receiveMsg` will hand over when the call ends. -/
def held (r : Receiver) : List Delivery :=
  if 16 ≤ r.rcvIdx then [⟨⟨r.rcvdMode⟩, r.rcvBuffer⟩] else []

def view (r : Receiver) : State (BitVec 8) (BitVec 8) :=
  ⟨r.rcvdMode, if 16 ≤ r.rcvIdx then [] else r.rcvBuffer.toList.take r.rcvIdx⟩

theorem held_between {r : Receiver} (h : r.rcvIdx < 16) : held r = [] :=
  if_neg (Nat.not_le.mpr h)

theorem view_between {r : Receiver} (h : r.rcvIdx < 16) :
    view r = ⟨r.rcvdMode, r.rcvBuffer.toList.take r.rcvIdx⟩ := by
  rw [view, if_neg (Nat.not_le.mpr h)]

theorem header_of_isHeader {b : BitVec 8} (h : Receiver.isHeader b = true) :
    protocol.header b = some (b &&& ~~~ModeBits.magicNumber.val) := if_pos h

theorem data_of_isHeader {b : BitVec 8} (h : Receiver.isHeader b = false) :
    protocol.header b = none := by
  show (if Receiver.isHeader b then _ else none) = none
  rw [h]
  rfl

/-! ### One event -/

private theorem take_written (v : Vector (BitVec 8) 16) (i : Nat) (h : i < 16) (b : BitVec 8) :
    (v.setIfInBounds i b).toList.take (i + 1) = v.toList.take i ++ [b] := by
  rw [Vector.toList_setIfInBounds, List.take_add_one, List.take_set_of_le (Nat.le_refl i),
    List.getElem?_set_self]
  · rfl
  · simpa using h

theorem body_refines {r : Receiver} (h : r.rcvIdx < 16) :
    (held r.body.val).map frameOf = emitted protocol r.rcvd (view r) ∧
      view r.body.val = feed protocol r.rcvd (view r) := by
  cases hh : Receiver.isHeader r.rcvd with
  | true =>
    have header := header_of_isHeader hh
    rw [Receiver.body_header hh, emitted_header header, feed_header header]
    exact ⟨rfl, rfl⟩
  | false =>
    have data := data_of_isHeader hh
    have received : (view r).received.length = r.rcvIdx := by
      rw [view_between h]
      simp [Nat.le_of_lt h]
    have written := take_written r.rcvBuffer r.rcvIdx h r.rcvd
    rw [Receiver.body_data hh]
    by_cases last : r.rcvIdx + 1 < 16
    · rw [emitted_data data _ (by rw [received]; exact last),
        feed_data data _ (by rw [received]; exact last), held_between last, view_between last,
        view_between h, written]
      exact ⟨rfl, rfl⟩
    · have full : r.rcvIdx + 1 = 16 := by omega
      have whole : (r.rcvBuffer.setIfInBounds r.rcvIdx r.rcvd).toList =
          r.rcvBuffer.toList.take r.rcvIdx ++ [r.rcvd] := by
        rw [← written, full, List.take_of_length_le (by simp)]
      rw [emitted_last data _ (by rw [received, full]; exact Nat.le_refl 16),
        feed_last data _ (by rw [received, full]; exact Nat.le_refl 16), view_between h]
      simp only [held, view, full, Nat.le_refl, if_true, List.map_cons, List.map_nil, frameOf, whole]
      exact ⟨trivial, trivial⟩

theorem step_refines (e : Event) (r : Receiver) :
    (r.delivered e ++ held (Receiver.step e r).val).map frameOf =
        (held r).map frameOf ++ frames protocol (view r) (r.consumed e) ∧
      view (Receiver.step e r).val = fed protocol (view r) (r.consumed e) := by
  cases e with
  | rx c =>
    refine ⟨?_, rfl⟩
    show (held r).map frameOf = (held r).map frameOf ++ []
    rw [List.append_nil]
  | poll clock =>
    by_cases h : r.Condition
    · have waits : r.delivered (.poll clock) = [] := by
        rw [Receiver.delivered, Receiver.turn_body clock h, List.filterMap_nil]
      obtain ⟨out, next⟩ := body_refines h.2
      rw [Receiver.consumed_body clock h, waits, Receiver.step_body clock h, held_between h.2,
        List.nil_append, out, next, frames_cons, fed_cons]
      exact ⟨by simp, rfl⟩
    · rw [Receiver.consumed_finish clock h, Receiver.step_finish clock h, Receiver.delivered,
        Receiver.turn_finish clock h]
      by_cases full : 16 ≤ r.rcvIdx
      · rw [Receiver.finish_delivers full]
        simp [held, view, full, Turn.delivery]
      · rw [Receiver.finish_waits (Nat.not_le.mp full)]
        simp [held, full, Turn.delivery]

/-! ### Runs -/

/-- From any state, a run hands over what was held and the frames of the bytes it reads,
except for one that it holds at its end. -/
theorem receiver_refines (r : Receiver) (events : List Event) :
    (r.deliveries events ++ held (r.after events)).map frameOf =
        (held r).map frameOf ++ frames protocol (view r) (r.bytesRead events) ∧
      view (r.after events) = fed protocol (view r) (r.bytesRead events) := by
  induction events generalizing r with
  | nil => exact ⟨by simp [Receiver.deliveries, Receiver.after, Receiver.bytesRead, trace, run], rfl⟩
  | cons e rest ih =>
    obtain ⟨out, next⟩ := step_refines e r
    obtain ⟨later, last⟩ := ih (Receiver.step e r).val
    rw [Receiver.deliveries_cons, Receiver.bytesRead_cons, Receiver.after_cons, frames_append,
      fed_append, ← next]
    refine ⟨?_, last⟩
    rw [List.append_assoc, List.map_append, later, ← List.append_assoc, ← List.map_append, out,
      List.append_assoc]

/-- **Refinement**, for the firmware as a whole. -/
theorem run_refines {N : Nat} (f : Firmware N) (events : List Event) :
    (f.deliveries events ++ held (f.after events).receiver).map frameOf =
        (held f.receiver).map frameOf ++ frames protocol (view f.receiver) (f.bytesRead events) ∧
      view (f.after events).receiver = fed protocol (view f.receiver) (f.bytesRead events) := by
  rw [Firmware.deliveries_receiver, Firmware.bytesRead_receiver, Firmware.after_receiver]
  exact receiver_refines f.receiver events

/-- Between calls nothing is held. -/
theorem deliveries_between {N : Nat} (f : Firmware N) (events : List Event)
    (begins : f.receiver.rcvIdx < 16) (ends : (f.after events).receiver.rcvIdx < 16) :
    (f.deliveries events).map frameOf =
      frames protocol (view f.receiver) (f.bytesRead events) := by
  have out := (run_refines f events).1
  rwa [held_between begins, held_between ends, List.append_nil, List.map_nil,
    List.nil_append] at out

end CofferLed.Protocol
