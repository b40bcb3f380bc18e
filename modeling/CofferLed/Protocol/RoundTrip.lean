import CofferLed.Protocol.Schedule

/-! Messages over a line that damages data bytes.

Every header arrives; a data byte arrives, is lost, or arrives as a byte that reads as a
header. Whatever the receiver was in the middle of, it hands over the messages no byte
of which was damaged, and nothing else. -/
namespace CofferLed.Protocol
open Library CofferLed.Core Sketch Framing

/-- A message as a host may send it. -/
structure Message where
  mode : BitVec 4
  data : Vector (BitVec 8) 16
  below : ∀ i : Fin 16, data.get i < 0xF0

def Message.header (m : Message) : BitVec 8 := 0xF0 ||| m.mode.setWidth 8

/-- What a message is to the firmware. -/
def Message.delivery (m : Message) : Delivery := ⟨⟨m.mode.setWidth 8⟩, m.data⟩

/-- What becomes of a data byte. -/
inductive Fate where
  | intact
  | lost
  | noise (b : BitVec 8) (high : 0xF0 ≤ b)
  deriving DecidableEq

def Fate.arrives (d : Fate) (b : BitVec 8) : List (BitVec 8) :=
  match d with
  | .intact => [b]
  | .lost => []
  | .noise c _ => [c]

/-- A message on its way. -/
structure Transmission where
  message : Message
  fate : Fin 16 → Fate

namespace Transmission

/-- The bytes that arrive. -/
def wire (t : Transmission) : List (BitVec 8) :=
  t.message.header :: (List.finRange 16).flatMap fun i => (t.fate i).arrives (t.message.data.get i)

def Undamaged (t : Transmission) : Prop := ∀ i, t.fate i = .intact

instance (t : Transmission) : Decidable t.Undamaged :=
  inferInstanceAs (Decidable (∀ i, t.fate i = .intact))

end Transmission

/-- The messages that arrive as they were sent. -/
def undamaged (ts : List Transmission) : List Delivery :=
  (ts.filter fun t => t.Undamaged).map fun t => t.message.delivery

/-! ### Bytes of the protocol -/

/-- A byte reads as a header exactly from 0xF0 on. -/
theorem isHeader_iff (b : BitVec 8) : Receiver.isHeader b = true ↔ 0xF0 ≤ b := by
  revert b
  decide +kernel

theorem protocol_data {b : BitVec 8} (h : b < 0xF0) : protocol.header b = none := by
  apply data_of_isHeader
  rw [Bool.eq_false_iff, Ne, isHeader_iff]
  exact BitVec.not_le.mpr h

theorem protocol_noise {b : BitVec 8} (h : 0xF0 ≤ b) : protocol.header b ≠ none := by
  rw [header_of_isHeader ((isHeader_iff b).mpr h)]
  exact nofun

/-- The header of a message reads as its mode. -/
theorem protocol_header (mode : BitVec 4) :
    protocol.header (0xF0 ||| mode.setWidth 8) = some (mode.setWidth 8) := by
  revert mode
  decide +kernel

/-! ### As frames on a damaging channel -/

def Fate.damage : Fate → Damage (BitVec 8)
  | .intact => .intact
  | .lost => .lost
  | .noise b _ => .replaced b

theorem damage_intact (d : Fate) : d.damage = .intact ↔ d = .intact := by
  cases d <;> simp [Fate.damage]

theorem damage_arrives (d : Fate) (b : BitVec 8) : d.damage.arrives b = d.arrives b := by
  cases d <;> rfl

namespace Transmission

def sent (t : Transmission) : Sent protocol where
  header := t.message.header
  mode := t.message.mode.setWidth 8
  carries := protocol_header t.message.mode
  data := (List.finRange 16).map fun i => (t.message.data.get i, (t.fate i).damage)
  length := by rw [List.length_map, List.length_finRange]; rfl
  free := by
    intro p hp
    obtain ⟨i, _, rfl⟩ := List.mem_map.mp hp
    exact protocol_data (t.message.below i)
  noise := by
    intro p hp b hb
    obtain ⟨i, _, rfl⟩ := List.mem_map.mp hp
    cases hf : t.fate i with
    | intact => simp [hf, Fate.damage] at hb
    | lost => simp [hf, Fate.damage] at hb
    | noise c high =>
      simp only [hf, Fate.damage, Damage.replaced.injEq] at hb
      exact hb ▸ protocol_noise high

theorem sent_wire (t : Transmission) : t.sent.wire = t.wire := by
  simp only [Sent.wire, wire, sent, arrivals, List.flatMap_map, damage_arrives]

theorem sent_frame (t : Transmission) : t.sent.frame = frameOf t.message.delivery := by
  have data : ((List.finRange 16).map fun i => t.message.data.get i) = t.message.data.toList := by
    apply List.ext_getElem
    · simp
    · intro i _ _
      simp [Vector.get]
  simp only [Sent.frame, sent, frameOf, Message.delivery, List.map_map, Function.comp_def, data]

theorem sent_intact (t : Transmission) : Intact t.sent.data ↔ t.Undamaged := by
  simp [Intact, sent, Undamaged, damage_intact]

end Transmission

theorem undamaged_frames (ts : List Transmission) (s : State (BitVec 8) (BitVec 8)) :
    frames protocol s (ts.flatMap Transmission.wire) = (undamaged ts).map frameOf := by
  have wires : ts.flatMap Transmission.wire = (ts.map Transmission.sent).flatMap Sent.wire := by
    simp only [List.flatMap_map, Transmission.sent_wire]
  rw [wires, damaged_stream, List.filter_map, List.map_map, undamaged, List.map_map]
  simp only [Function.comp_def, Transmission.sent_frame, Transmission.sent_intact]

/-! ### The firmware -/

variable {N : Nat}

/-- **Round trip.** From any state, reading messages off a damaging line hands over the
undamaged ones, in order, each once: before them only a message that was complete
already, and the last of them possibly when the call in progress ends. Between calls
there is neither. -/
theorem undamaged_messages (f : Firmware N) (events : List Event) (ts : List Transmission)
    (stream : f.bytesRead events = ts.flatMap Transmission.wire) :
    f.deliveries events ++ held (f.after events).receiver = held f.receiver ++ undamaged ts ∧
      (f.receiver.rcvIdx < 16 → (f.after events).receiver.rcvIdx < 16 →
        f.deliveries events = undamaged ts) := by
  have all : f.deliveries events ++ held (f.after events).receiver =
      held f.receiver ++ undamaged ts := by
    apply List.map_injective_iff.mpr frameOf_injective
    rw [(run_refines f events).1, stream, undamaged_frames, List.map_append]
  refine ⟨all, fun begins ends => ?_⟩
  rwa [held_between begins, held_between ends, List.append_nil, List.nil_append] at all

/-- All nodes have booted. -/
def allBooted : Message := ⟨1, Vector.replicate 16 1, by decide⟩

def noise : Fate := .noise 0xFA (by decide)

/-- The same message with a byte that arrives as a header, and as it was sent. -/
def jammed : Transmission := ⟨allBooted, fun i => if i.val = 3 then noise else .intact⟩
def clean : Transmission := ⟨allBooted, fun _ => .intact⟩

/-- In the middle of another message. -/
theorem undamaged_messages_clean :
    ((Firmware.powerUp 98 0).after (oneByOne ⟨7, 7⟩ [0xF2, 5, 6])).deliveries
      (oneByOne ⟨7, 7⟩ ([jammed, clean].flatMap Transmission.wire)) = [allBooted.delivery] := by
  have start := (oneByOne_firmware (Firmware.powerUp 98 0) idle_reset ⟨7, 7⟩ [0xF2, 5, 6]).2
  generalize (Firmware.powerUp 98 0).after (oneByOne ⟨7, 7⟩ [0xF2, 5, 6]) = f at start ⊢
  obtain ⟨reads, idle⟩ := oneByOne_firmware f start ⟨7, 7⟩ ([jammed, clean].flatMap Transmission.wire)
  have arrived : undamaged [jammed, clean] = [allBooted.delivery] := by decide +kernel
  rw [(undamaged_messages f _ [jammed, clean] reads).2 start.between idle.between, arrived]

end CofferLed.Protocol
