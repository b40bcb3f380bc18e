import CofferLed.Core.PixelRoom
import CofferLed.Library.Bytes

/-! What a pixel keeps of a colour.

On a strip with room for its pixels, each is on its own; and at full brightness it keeps all of
the colour that it is given, unless two colours of its type lie in one byte (`round_trip`). The
types that the library has a name for are not of that kind (`orders_apart`). -/
namespace CofferLed.Core
open Library NeoPixel

namespace AdafruitNeoPixel

/-- No two colours of a pixel share a byte. -/
structure Apart (p : AdafruitNeoPixel) : Prop where
  rg : p.rOffset ≠ p.gOffset
  rb : p.rOffset ≠ p.bOffset
  gb : p.gOffset ≠ p.bOffset
  white : p.wOffset ≠ p.rOffset → p.wOffset ≠ p.gOffset ∧ p.wOffset ≠ p.bOffset

/-- What a strip can keep of a colour. -/
def kept (c : BitVec 32) (p : AdafruitNeoPixel) : BitVec 32 :=
  if p.wOffset = p.rOffset then wordOf (byteOf c 0) (byteOf c 1) (byteOf c 2) 0 else c

theorem byteAt_put {i : Nat} {v : BitVec 8} {p : AdafruitNeoPixel} (inside : i < p.bytes.length)
    (j : Nat) : (p.put i v).byteAt j = if j = i then v else p.byteAt j := by
  rw [byteAt, put_bytes, List.getElem?_set]
  by_cases here : i = j
  · simp [here, here ▸ inside]
  · simp [here, Ne.symm here, byteAt]

theorem byteAt_painted {n : BitVec 16} {p : AdafruitNeoPixel} (inside : Inside n p)
    (r g b w : BitVec 8) (j : Nat) :
    (p.painted n r g b w).byteAt j =
      if j = p.base n + p.bOffset then b
      else if j = p.base n + p.gOffset then g
      else if j = p.base n + p.rOffset then r
      else if p.wOffset ≠ p.rOffset ∧ j = p.base n + p.wOffset then w
      else p.byteAt j := by
  obtain ⟨white, red, green, blue⟩ := inside
  unfold painted
  by_cases three : p.wOffset = p.rOffset
  · simp only [three, if_true, ne_eq, not_true, false_and, if_false]
    rw [byteAt_put (by simpa using blue), byteAt_put (by simpa using green), byteAt_put red]
  · simp only [three, if_false, ne_eq, not_false_eq_true, true_and]
    rw [byteAt_put (by simpa using blue), byteAt_put (by simpa using green),
      byteAt_put (by simpa using red), byteAt_put (white three)]

/-- What a pixel is read as on a strip at full brightness. -/
theorem getPixelColor_bytes {p : AdafruitNeoPixel} (full : p.brightness = 0) {n : BitVec 16}
    (lit : n < p.numLEDs) :
    (p.getPixelColor n).val =
      wordOf (p.byteAt (p.base n + p.bOffset)) (p.byteAt (p.base n + p.gOffset))
        (p.byteAt (p.base n + p.rOffset))
        (if p.wOffset = p.rOffset then 0 else p.byteAt (p.base n + p.wOffset)) := by
  have shown (i : Nat) : (p.channel i).val = (p.byteAt i).setWidth 32 := by
    simp [channel, peek, restored, full]
  have white : (p.whiteChannel n).val =
      (if p.wOffset = p.rOffset then 0 else p.byteAt (p.base n + p.wOffset)).setWidth 32 := by
    unfold whiteChannel
    split
    · rfl
    · exact shown _
  rw [← wordOf_shifted, ← white, ← shown, ← shown, ← shown, getPixelColor,
    if_neg (BitVec.not_le.mpr lit)]
  rfl

theorem setPixelColor_val {p : AdafruitNeoPixel} {n : BitVec 16} (lit : n < p.numLEDs)
    (c : BitVec 32) :
    (p.setPixelColor n c).val =
      p.painted n (dimmed p.brightness ((c >>> 16).setWidth 8)).val
        (dimmed p.brightness ((c >>> 8).setWidth 8)).val (dimmed p.brightness (c.setWidth 8)).val
        (white c p).val := by
  rw [← store_val, setPixelColor, if_pos lit]
  rfl

theorem painted_brightness (n : BitVec 16) (r g b w : BitVec 8) (p : AdafruitNeoPixel) :
    (p.painted n r g b w).brightness = p.brightness := by
  unfold painted
  split <;> rfl

theorem setPixelColor_painted {p : AdafruitNeoPixel} (full : p.brightness = 0) {n : BitVec 16}
    (lit : n < p.numLEDs) (c : BitVec 32) :
    (p.setPixelColor n c).val =
      p.painted n (byteOf c 2) (byteOf c 1) (byteOf c 0)
        (if p.wOffset = p.rOffset then 0 else byteOf c 3) := by
  have blue : c.setWidth 8 = byteOf c 0 := by
    rw [← shifted_byteOf c 0]
    rfl
  have white : (white c p).val = if p.wOffset = p.rOffset then 0 else byteOf c 3 := by
    rw [AdafruitNeoPixel.white, Checked.val_ite, ← shifted_byteOf c 3]
    simp [dimmed, full]
  rw [setPixelColor_val lit, ← white, ← blue, ← shifted_byteOf c 1, ← shifted_byteOf c 2]
  simp [dimmed, full]

/-- Read back, a colour that shares its byte with another is that other. -/
theorem read_painted {p : AdafruitNeoPixel} (full : p.brightness = 0) {n : BitVec 16}
    (lit : n < p.numLEDs) (inside : Inside n p) (c : BitVec 32) :
    ((p.setPixelColor n c).val.getPixelColor n).val =
      wordOf (byteOf c 0) (if p.gOffset = p.bOffset then byteOf c 0 else byteOf c 1)
        (if p.rOffset = p.bOffset then byteOf c 0
          else if p.rOffset = p.gOffset then byteOf c 1
          else byteOf c 2)
        (if p.wOffset = p.rOffset then 0
          else if p.wOffset = p.bOffset then byteOf c 0
          else if p.wOffset = p.gOffset then byteOf c 1
          else byteOf c 3) := by
  have alike := Alike.of_blank (setPixelColor_blank n c p)
  have still : (p.setPixelColor n c).val.brightness = 0 := by
    rw [setPixelColor_painted full lit, painted_brightness, full]
  have place : (p.setPixelColor n c).val.base n = p.base n := by
    rw [base, base, alike.bytesPerPixel]
  rw [getPixelColor_bytes still (alike.numLEDs ▸ lit), place, alike.rOffset, alike.gOffset,
    alike.bOffset, alike.wOffset, setPixelColor_painted full lit]
  simp only [byteAt_painted inside, Nat.add_left_cancel_iff, if_true, ne_eq]
  congr 1
  by_cases three : p.wOffset = p.rOffset
  · simp [three]
  · simp [three]

/-- The places of two pixels have nothing in common. -/
theorem Room.places {p : AdafruitNeoPixel} (room : Room p) {n m : BitVec 16} (lit : n < p.numLEDs)
    (lit' : m < p.numLEDs) (other : m ≠ n) {k l : Nat} (hk : k < p.bytesPerPixel.toNat)
    (hl : l < p.bytesPerPixel.toNat) : p.base m + l ≠ p.base n + k := by
  rw [(room.base lit).1, (room.base lit').1]
  have other : m.toNat ≠ n.toNat := fun same => other (BitVec.eq_of_toNat_eq same)
  generalize p.bytesPerPixel.toNat = size at hk hl
  rcases Nat.lt_or_gt_of_ne other with before | behind
  · have gap : (m.toNat + 1) * size ≤ n.toNat * size := Nat.mul_le_mul_right _ before
    rw [Nat.add_one_mul] at gap
    omega
  · have gap : (n.toNat + 1) * size ≤ m.toNat * size := Nat.mul_le_mul_right _ behind
    rw [Nat.add_one_mul] at gap
    omega

theorem channel_val (i : Nat) (p : AdafruitNeoPixel) :
    (p.channel i).val = (restored p.brightness (p.byteAt i)).val := rfl

/-- The other pixels keep their colours. -/
theorem read_other {p : AdafruitNeoPixel} (h : Sound p) (room : Room p) {n m : BitVec 16}
    (other : m ≠ n) (c : BitVec 32) :
    ((p.setPixelColor n c).val.getPixelColor m).val = (p.getPixelColor m).val := by
  by_cases lit : n < p.numLEDs
  case neg =>
    rw [setPixelColor, if_neg lit]
    rfl
  have alike := Alike.of_blank (setPixelColor_blank n c p)
  have bright : (p.setPixelColor n c).val.brightness = p.brightness := by
    rw [setPixelColor_val lit, painted_brightness]
  have place : (p.setPixelColor n c).val.base m = p.base m := by
    rw [base, base, alike.bytesPerPixel]
  have white := room.white h
  by_cases lit' : m < p.numLEDs
  case neg =>
    have beyond : m ≥ p.numLEDs := BitVec.not_lt.mp lit'
    rw [getPixelColor, getPixelColor, alike.numLEDs, if_pos beyond, if_pos beyond]
  have same (l : Nat) (hl : l < p.bytesPerPixel.toNat) :
      ((p.setPixelColor n c).val.channel (p.base m + l)).val = (p.channel (p.base m + l)).val := by
    have apart {k : Nat} (hk : k < p.bytesPerPixel.toNat) : p.base m + l ≠ p.base n + k :=
      room.places lit lit' other hk hl
    rw [channel_val, channel_val, bright, setPixelColor_val lit, byteAt_painted (room.inside h lit),
      if_neg (apart room.blue), if_neg (apart room.green), if_neg (apart room.red),
      if_neg fun w => apart white w.2]
  have beyond : ¬ m ≥ p.numLEDs := BitVec.not_le.mpr lit'
  rw [getPixelColor, getPixelColor, alike.numLEDs, if_neg beyond, if_neg beyond]
  simp only [Checked.val_bind, Checked.val_pure, whiteChannel, Checked.val_ite, place, alike.rOffset,
    alike.gOffset, alike.bOffset, alike.wOffset, same _ room.red, same _ room.green, same _ room.blue,
    same _ white]

theorem kept_byte (c : BitVec 32) (p : AdafruitNeoPixel) (k : Nat) (h : k < 3) :
    byteOf (p.kept c) k = byteOf c k := by
  unfold kept
  split
  · obtain ⟨b0, b1, b2, _⟩ := byteOf_wordOf (byteOf c 0) (byteOf c 1) (byteOf c 2) 0
    match k with
    | 0 => exact b0
    | 1 => exact b1
    | 2 => exact b2
  · rfl

theorem read_apart {p : AdafruitNeoPixel} (full : p.brightness = 0) {n : BitVec 16}
    (lit : n < p.numLEDs) (inside : Inside n p) (apart : Apart p) (c : BitVec 32) :
    ((p.setPixelColor n c).val.getPixelColor n).val = p.kept c := by
  rw [read_painted full lit inside c, if_neg apart.gb, if_neg apart.rb, if_neg apart.rg, kept]
  split
  · rfl
  case isFalse four =>
    obtain ⟨green, blue⟩ := apart.white four
    rw [if_neg blue, if_neg green]
    exact wordOf_byteOf c

/-- If a pixel keeps its colours, then red alone is not read as something else, nor are green
and white. -/
theorem apart_of_keeps {p : AdafruitNeoPixel} (full : p.brightness = 0) {n : BitVec 16}
    (lit : n < p.numLEDs) (inside : Inside n p)
    (keeps : ∀ c, ((p.setPixelColor n c).val.getPixelColor n).val = p.kept c) : Apart p := by
  have read (c : BitVec 32) := read_painted full lit inside c
  simp only [keeps] at read
  have shown (c : BitVec 32) (k : Nat) := congrArg (byteOf · k) (read c)
  obtain ⟨rb, rg⟩ : p.rOffset ≠ p.bOffset ∧ p.rOffset ≠ p.gOffset := by
    have red := shown 0x00ff0000 2
    rw [kept_byte _ _ _ (by decide), (byteOf_wordOf _ _ _ _).2.2.1] at red
    constructor
    · intro same
      rw [if_pos same] at red
      exact absurd red (by decide)
    · intro same
      rw [if_pos same] at red
      exact absurd red (by split <;> decide)
  have gb : p.gOffset ≠ p.bOffset := by
    have green := shown 0x0000ff00 1
    rw [kept_byte _ _ _ (by decide), (byteOf_wordOf _ _ _ _).2.1] at green
    intro same
    rw [if_pos same] at green
    exact absurd green (by decide)
  refine ⟨rg, rb, gb, fun four => ?_⟩
  have white := shown 0xff000000 3
  rw [kept, if_neg four, if_neg four, (byteOf_wordOf _ _ _ _).2.2.2] at white
  constructor
  · intro same
    rw [if_pos same] at white
    exact absurd white (by split <;> decide)
  · intro same
    rw [if_pos same] at white
    exact absurd white (by decide)

/-- **What a pixel keeps.** On a strip with room a pixel that is set leaves the others as they
were; and at full brightness every pixel keeps all of the colour it is given, exactly if no two
colours of a pixel share a byte, or there are no pixels. -/
theorem round_trip (ops : List Op) (room : Room (empty.after ops)) :
    let p := empty.after ops
    (∀ n m c, m ≠ n →
        ((p.setPixelColor n c).val.getPixelColor m).val = (p.getPixelColor m).val) ∧
      (p.brightness = 0 →
        ((∀ n, n < p.numLEDs → ∀ c,
            ((p.setPixelColor n c).val.getPixelColor n).val = p.kept c) ↔
          p.numLEDs = 0 ∨ Apart p)) := by
  intro p
  have sound : Sound p := sound_run ops
  refine ⟨fun n m c other => read_other sound room other c, fun full => ⟨fun keeps => ?_, ?_⟩⟩
  · by_contra none
    obtain ⟨some_pixel, shared⟩ := not_or.mp none
    have lit : 0 < p.numLEDs := by bv_omega
    exact shared (apart_of_keeps full lit (room.inside sound lit) (keeps 0 lit))
  · rintro (none | apart) n lit c
    · rw [none] at lit
      exact absurd lit BitVec.not_lt_zero
    · exact read_apart full lit (room.inside sound lit) apart c

/-! ### The orders that have a name -/

theorem orders_offsets : ∀ t ∈ orders,
    let w := (t >>> 6 &&& 0b11).toNat
    let r := (t >>> 4 &&& 0b11).toNat
    let g := (t >>> 2 &&& 0b11).toNat
    let b := (t &&& 0b11).toNat
    r ≠ g ∧ r ≠ b ∧ g ≠ b ∧ (w ≠ r → w ≠ g ∧ w ≠ b) ∧ (w = r → r < 3 ∧ g < 3 ∧ b < 3) := by
  -- One by one along the list, not over all the values of the type.
  rw [← List.forall_iff_forall_mem]
  decide

theorem room_of_offsets {p : AdafruitNeoPixel} (h : Sound p) (short : p.numLEDs.toNat * 4 < 2 ^ 16)
    (three : p.wOffset = p.rOffset → p.rOffset < 3 ∧ p.gOffset < 3 ∧ p.bOffset < 3) : Room p := by
  obtain ⟨red, green, blue, -⟩ := h.offsets
  obtain ⟨k, size, inside⟩ : ∃ k, p.bytesPerPixel.toNat = k ∧
      (k ≤ 4 ∧ p.rOffset < k ∧ p.gOffset < k ∧ p.bOffset < k) := by
    obtain ⟨same, size⟩ | ⟨-, size⟩ := pixel_size p
    · exact ⟨3, congrArg BitVec.toNat size, by decide, three same⟩
    · exact ⟨4, congrArg BitVec.toNat size, Nat.le_refl 4, red, green, blue⟩
  obtain ⟨le, red, green, blue⟩ := inside
  refine ⟨?_, ?_, ?_, ?_⟩ <;> rw [size]
  · exact Nat.lt_of_le_of_lt (Nat.mul_le_mul_left _ le) short
  · exact red
  · exact green
  · exact blue

/-- With each of them a strip that is not too long has room, and its pixels keep their colours. -/
theorem orders_apart {t : BitVec 16} (named : t ∈ orders) {n : BitVec 16}
    (short : n.toNat * 4 < 2 ^ 16) (granted : Bool) :
    Apart (create n t granted) ∧ Room (create n t granted) := by
  obtain ⟨rg, rb, gb, white, three⟩ := orders_offsets t named
  have sound : Sound (create n t granted) := by
    rw [create_eq]
    exact sound_run _
  have length : (create n t granted).numLEDs.toNat ≤ n.toNat := by
    cases granted with
    | false => exact Nat.zero_le _
    | true => exact Nat.le_refl _
  have short : (create n t granted).numLEDs.toNat * 4 < 2 ^ 16 :=
    Nat.lt_of_le_of_lt (Nat.mul_le_mul_right 4 length) short
  cases granted with
  | false => exact ⟨⟨rg, rb, gb, white⟩, room_of_offsets sound short three⟩
  | true => exact ⟨⟨rg, rb, gb, white⟩, room_of_offsets sound short three⟩

/-- White, in `NEO_RGBW`. -/
theorem round_trip_white :
    let p := create 8 (order 3 0 1 2) true
    ((p.setPixelColor 5 0x80402010).val.getPixelColor 5).val = p.kept 0x80402010 := by
  intro p
  obtain ⟨apart, room⟩ := orders_apart (t := order 3 0 1 2) (by decide) (n := 8) (by decide) true
  exact ((round_trip [.updateType (order 3 0 1 2) true, .updateLength 8 true] room).2 rfl).mpr
    (.inr apart) 5 (by decide) 0x80402010

end AdafruitNeoPixel

end CofferLed.Core
