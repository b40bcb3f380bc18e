import CofferLed.Library.FramePlaces
import CofferLed.Protocol.RoundTrip

/-! Where in the stream the messages come from.

Every message handed over should be one of the stream: a header and the 16 data bytes
behind it. It is not when headers are missing. After a message, and before the first
header, `receiveMsg` counts data bytes like those of a message: 16 of them are handed
over under the last mode, or under none. The stream decides when that happens
(`header_sound_iff`). -/
namespace CofferLed.Protocol
open Library CofferLed.Core Sketch Framing

/-- The message `d` is sent at position `k` of the stream. -/
structure MessageAt (stream : List (BitVec 8)) (k : Nat) (d : Delivery) : Prop where
  header : ∃ h, stream[k]? = some h ∧ h >>> 4 = 0xF ∧ d.mode.val = h &&& 0x0F
  data : (stream.drop (k + 1)).take 16 = d.data.toList
  below : ∀ b ∈ d.data.toList, b < 0xF0

/-- Every message handed over is one of the stream, no two are the same one. -/
def HeaderSound (stream : List (BitVec 8)) (ds : List Delivery) : Prop :=
  ∃ places : List Nat, places.Nodup ∧ List.Forall₂ (MessageAt stream) places ds

def HeaderFree (bs : List (BitVec 8)) : Prop := ∀ b ∈ bs, b < 0xF0

/-- The first header comes among the first 16 bytes, and headers keep coming: nowhere is
there a stretch of 32 bytes without one. -/
structure HeadersInTime (stream : List (BitVec 8)) : Prop where
  first : ∀ bs, bs <+: stream → HeaderFree bs → bs.length < 16
  next : ∀ bs, bs <:+: stream → HeaderFree bs → bs.length < 32

/-! ### In terms of frames -/

theorem protocol_header_iff (b mode : BitVec 8) :
    protocol.header b = some mode ↔ b >>> 4 = 0xF ∧ mode = b &&& 0x0F := by
  have bits : ∀ b : BitVec 8, (Receiver.isHeader b = true ↔ b >>> 4 = 0xF) ∧
      b &&& ~~~ModeBits.magicNumber.val = b &&& 0x0F := by decide +kernel
  obtain ⟨nibble, low⟩ := bits b
  cases hb : Receiver.isHeader b with
  | true =>
    rw [header_of_isHeader hb, low, Option.some.injEq, and_iff_right (nibble.mp hb)]
    exact eq_comm
  | false =>
    have other : ¬ b >>> 4 = 0xF := fun h => Bool.false_ne_true (hb.symm.trans (nibble.mpr h))
    rw [data_of_isHeader hb]
    exact ⟨nofun, fun h => absurd h.1 other⟩

theorem protocol_data_iff (b : BitVec 8) : protocol.header b = none ↔ b < 0xF0 := by
  constructor
  · intro h
    rw [← BitVec.not_le, ← isHeader_iff]
    intro hb
    rw [header_of_isHeader hb] at h
    cases h
  · exact protocol_data

theorem headerFree_iff (bs : List (BitVec 8)) : HeaderFree bs ↔ Free protocol bs := by
  simp only [HeaderFree, Free, protocol_data_iff]

theorem messageAt_iff (stream : List (BitVec 8)) (k : Nat) (d : Delivery) :
    MessageAt stream k d ↔ FrameAt protocol stream k (frameOf d) := by
  have header : (∃ h, stream[k]? = some h ∧ h >>> 4 = 0xF ∧ d.mode.val = h &&& 0x0F) ↔
      ∃ h, stream[k]? = some h ∧ protocol.header h = some (frameOf d).mode := by
    simp only [protocol_header_iff, frameOf]
  constructor
  · intro m
    exact ⟨header.mp m.header, m.data, d.data.length_toList, (headerFree_iff _).mp m.below⟩
  · intro f
    exact ⟨header.mpr f.header, f.data, (headerFree_iff _).mpr f.free⟩

theorem headerSound_iff (stream : List (BitVec 8)) (ds : List Delivery) :
    HeaderSound stream ds ↔ Sound protocol stream (ds.map frameOf) := by
  have same : MessageAt stream = fun k d => FrameAt protocol stream k (frameOf d) := by
    funext k d
    exact propext (messageAt_iff stream k d)
  simp only [HeaderSound, Sound, List.forall₂_map_right_iff, same]

/-! ### The firmware -/

variable {N : Nat}

/-- **Headers.** In a run from power-up whose stream has its headers in time every
message handed over is one of the stream; and between calls this holds of no other
stream. -/
theorem header_sound_iff (millis : BitVec 32) (events : List Event) :
    let f := Firmware.powerUp N millis
    let stream := f.bytesRead events
    (HeadersInTime stream → HeaderSound stream (f.deliveries events)) ∧
      ((f.after events).receiver.rcvIdx < 16 →
        (HeaderSound stream (f.deliveries events) ↔ HeadersInTime stream)) := by
  intro f stream
  have places := sound_iff stream (view Receiver.reset) (F := protocol) rfl
  have in_time : HeadersInTime stream ↔
      Sound protocol stream (frames protocol (view Receiver.reset) stream) := by
    rw [places]
    simp only [← headerFree_iff]
    exact ⟨fun h => ⟨h.first, h.next⟩, fun h => ⟨h.1, h.2⟩⟩
  have out := (run_refines f events).1
  constructor
  · intro h
    have all : Sound protocol stream ((f.deliveries events).map frameOf ++
        (held (f.after events).receiver).map frameOf) := by
      rw [← List.map_append, out]
      exact in_time.mp h
    exact (headerSound_iff _ _).mpr all.of_append
  · intro between
    rw [headerSound_iff, deliveries_between f events idle_reset.between between, in_time]
    rfl

/-- A board that is switched on in the middle of a message receives 16 bytes before the
first header, and takes them for a message of mode NONE. -/
theorem message_without_header :
    let f := Firmware.powerUp 98 0
    let events := oneByOne ⟨7, 7⟩ (List.replicate 16 50)
    f.deliveries events = [⟨ModeBits.none, Vector.replicate 16 50⟩] ∧
      ¬ HeaderSound (f.bytesRead events) (f.deliveries events) := by
  intro f events
  have out : f.deliveries events = [⟨ModeBits.none, Vector.replicate 16 50⟩] := by
    rw [Firmware.deliveries_receiver]
    decide +kernel
  have bytes : f.bytesRead events = List.replicate 16 50 :=
    (oneByOne_firmware f idle_reset _ _).1
  refine ⟨out, fun sound => ?_⟩
  obtain ⟨places, _, stand⟩ := sound
  rw [out, bytes] at stand
  obtain ⟨k, _, here, _, _⟩ := List.forall₂_cons_right_iff.mp stand
  obtain ⟨h, at_k, high, _⟩ := here.header
  have data : h = 50 := List.eq_of_mem_replicate (List.mem_of_getElem? at_k)
  rw [data] at high
  revert high
  decide

end CofferLed.Protocol
