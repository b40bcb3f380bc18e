import CofferLed.Core.PixelTypes

/-! The buffer of a strip.

Nothing checks the places that a strip writes to. They are all in its buffer as long as the
length of the buffer can be counted in 16 bits and every colour has a byte of its pixel to lie in
(`Room`); otherwise some pixel lies outside (`in_bounds`). -/
namespace CofferLed.Core
open Library NeoPixel

namespace AdafruitNeoPixel

/-- The bytes of pixel `n` are all in the buffer. -/
def Inside (n : BitVec 16) (p : AdafruitNeoPixel) : Prop :=
  (p.wOffset ≠ p.rOffset → p.base n + p.wOffset < p.bytes.length) ∧
    p.base n + p.rOffset < p.bytes.length ∧ p.base n + p.gOffset < p.bytes.length ∧
      p.base n + p.bOffset < p.bytes.length

theorem Inside.of_blank {n : BitVec 16} {p q : AdafruitNeoPixel} (same : q.blank = p.blank)
    (h : Inside n p) : Inside n q := by
  have alike := Alike.of_blank same
  rw [Inside, base, alike.bytesPerPixel, alike.length, alike.rOffset, alike.gOffset, alike.bOffset,
    alike.wOffset]
  exact h

theorem store_avoids (n : BitVec 16) (r g b w : BitVec 8) (p : AdafruitNeoPixel) :
    (p.store n r g b w).Avoids .index ↔ Inside n p := by
  unfold store storeWhite Inside
  by_cases three : p.wOffset = p.rOffset
  · simp [three, poke]
  · simp [three, poke]

theorem dimmed_avoids (brightness v : BitVec 8) : (dimmed brightness v).Avoids .index := by
  unfold dimmed mulInt
  split <;> simp

theorem restored_avoids (brightness v : BitVec 8) : (restored brightness v).Avoids .index := by
  unfold restored shifted
  split <;> simp

theorem white_avoids (c : BitVec 32) (p : AdafruitNeoPixel) : (white c p).Avoids .index := by
  unfold white
  split
  · exact Checked.avoids_pure _ _
  · exact dimmed_avoids _ _

theorem channel_avoids (i : Nat) (p : AdafruitNeoPixel) :
    (p.channel i).Avoids .index ↔ i < p.bytes.length := by
  simp [channel, peek, restored_avoids]

section
variable (n : BitVec 16) (p : AdafruitNeoPixel)

theorem setPixelColor3_avoids (r g b : BitVec 8) :
    (p.setPixelColor3 n r g b).Avoids .index ↔ (n < p.numLEDs → Inside n p) := by
  unfold setPixelColor3
  split
  case isTrue lit => simp [dimmed_avoids, store_avoids, lit]
  case isFalse unlit => simp [unlit]

theorem setPixelColor4_avoids (r g b w : BitVec 8) :
    (p.setPixelColor4 n r g b w).Avoids .index ↔ (n < p.numLEDs → Inside n p) := by
  unfold setPixelColor4
  split
  case isTrue lit => simp [dimmed_avoids, store_avoids, lit]
  case isFalse unlit => simp [unlit]

theorem setPixelColor_avoids (c : BitVec 32) :
    (p.setPixelColor n c).Avoids .index ↔ (n < p.numLEDs → Inside n p) := by
  unfold setPixelColor
  split
  case isTrue lit => simp [dimmed_avoids, white_avoids, store_avoids, lit]
  case isFalse unlit => simp [unlit]

theorem getPixelColor_avoids :
    (p.getPixelColor n).Avoids .index ↔ (n < p.numLEDs → Inside n p) := by
  unfold getPixelColor whiteChannel Inside
  split
  case isTrue unlit => simp [BitVec.not_lt.mpr unlit]
  case isFalse lit =>
    have lit : n < p.numLEDs := BitVec.not_le.mp lit
    by_cases three : p.wOffset = p.rOffset
    · simp [three, channel_avoids, lit]
    · simp [three, channel_avoids, lit]

theorem sweep_avoids (h : Sound p) (f : BitVec 8 → BitVec 8) : (p.sweep f).Avoids .index := by
  simp [sweep, h.length]

end

/-- The buffer is not too long for its length to be counted in 16 bits, and a pixel has a byte
in it for each of its colours. -/
structure Room (p : AdafruitNeoPixel) : Prop where
  fits : p.numLEDs.toNat * p.bytesPerPixel.toNat < 2 ^ 16
  red : p.rOffset < p.bytesPerPixel.toNat
  green : p.gOffset < p.bytesPerPixel.toNat
  blue : p.bOffset < p.bytesPerPixel.toNat

theorem pixel_size (p : AdafruitNeoPixel) :
    p.wOffset = p.rOffset ∧ p.bytesPerPixel = 3 ∨ p.wOffset ≠ p.rOffset ∧ p.bytesPerPixel = 4 := by
  unfold bytesPerPixel
  split
  case isTrue three => exact .inl ⟨three, rfl⟩
  case isFalse four => exact .inr ⟨four, rfl⟩

theorem Sound.byteCount {p : AdafruitNeoPixel} (h : Sound p) :
    p.bytes.length = p.numLEDs.toNat * p.bytesPerPixel.toNat % 2 ^ 16 := by
  rw [h.length, h.size, BitVec.toNat_mul]

/-- With room no place wraps. -/
theorem Room.base {p : AdafruitNeoPixel} (room : Room p) {n : BitVec 16} (lit : n < p.numLEDs) :
    p.base n = n.toNat * p.bytesPerPixel.toNat ∧
      p.base n + p.bytesPerPixel.toNat ≤ p.numLEDs.toNat * p.bytesPerPixel.toNat := by
  have fits := room.fits
  have before : (n.toNat + 1) * p.bytesPerPixel.toNat ≤ p.numLEDs.toNat * p.bytesPerPixel.toNat :=
    Nat.mul_le_mul_right _ lit
  rw [Nat.add_one_mul] at before
  have place : p.base n = n.toNat * p.bytesPerPixel.toNat := by
    rw [AdafruitNeoPixel.base, BitVec.toNat_mul, Nat.mod_eq_of_lt (by omega)]
  exact ⟨place, place ▸ before⟩

theorem Room.white {p : AdafruitNeoPixel} (room : Room p) (h : Sound p) :
    p.wOffset < p.bytesPerPixel.toNat := by
  obtain ⟨three, -⟩ | ⟨-, size⟩ := pixel_size p
  · exact three ▸ room.red
  · rw [size]
    exact h.offsets.2.2.2

theorem Room.inside {p : AdafruitNeoPixel} (room : Room p) (h : Sound p) {n : BitVec 16}
    (lit : n < p.numLEDs) : Inside n p := by
  obtain ⟨-, before⟩ := room.base lit
  have white := room.white h
  obtain ⟨fits, red, green, blue⟩ := room
  have length : p.bytes.length = p.numLEDs.toNat * p.bytesPerPixel.toNat :=
    h.byteCount.trans (Nat.mod_eq_of_lt fits)
  unfold Inside
  rw [length]
  exact ⟨fun _ => by omega, by omega, by omega, by omega⟩

/-- Without room some pixel is not in the buffer: the last one, if it has too few bytes for its
colours, or the last one whose place does not wrap. -/
theorem outside {p : AdafruitNeoPixel} (h : Sound p) (some_pixel : p.numLEDs ≠ 0)
    (no_room : ¬ Room p) : ∃ n, n < p.numLEDs ∧ ¬ Inside n p := by
  have length := h.byteCount
  have some_pixel : p.numLEDs.toNat ≠ 0 := fun none => some_pixel (BitVec.eq_of_toNat_eq none)
  obtain ⟨k, size, k_cases⟩ : ∃ k, p.bytesPerPixel.toNat = k ∧ (k = 3 ∨ k = 4) := by
    obtain ⟨-, size⟩ | ⟨-, size⟩ := pixel_size p
    · exact ⟨3, congrArg BitVec.toNat size, .inl rfl⟩
    · exact ⟨4, congrArg BitVec.toNat size, .inr rfl⟩
  rw [size] at length
  by_cases fits : p.numLEDs.toNat * k < 2 ^ 16
  · refine ⟨p.numLEDs - 1, by bv_omega, fun inside => no_room ?_⟩
    have last : (p.numLEDs - 1).toNat = p.numLEDs.toNat - 1 := by bv_omega
    have place : p.base (p.numLEDs - 1) + k = p.numLEDs.toNat * k := by
      rw [base, BitVec.toNat_mul, last, size, Nat.mod_eq_of_lt, ← Nat.add_one_mul]
      · congr 1
        omega
      · exact Nat.lt_of_le_of_lt (Nat.mul_le_mul_right k (Nat.sub_le _ 1)) fits
    rw [Nat.mod_eq_of_lt fits] at length
    obtain ⟨-, red, green, blue⟩ := inside
    exact ⟨size ▸ fits, by omega, by omega, by omega⟩
  · have word := p.numLEDs.isLt
    have cut : (65535 / k) * k % 2 ^ 16 ≥ p.numLEDs.toNat * k % 2 ^ 16 := by
      rcases k_cases with rfl | rfl <;> omega
    have far : (BitVec.ofNat 16 (65535 / k)).toNat = 65535 / k := by
      rcases k_cases with rfl | rfl <;> rfl
    refine ⟨BitVec.ofNat 16 (65535 / k), ?_, fun inside => ?_⟩
    · rw [BitVec.lt_def, far]
      rcases k_cases with rfl | rfl <;> omega
    · have red := inside.2.1
      rw [base, BitVec.toNat_mul, far, size, length] at red
      omega

theorem fill_avoids {p : AdafruitNeoPixel} (inside : ∀ n, n < p.numLEDs → Inside n p)
    (c : BitVec 32) (first count : BitVec 16) : (p.fill c first count).Avoids .index := by
  unfold fill
  split
  · exact Checked.avoids_pure _ _
  · refine Checked.forRange_avoids Fault.index (fun _ q => q.blank = p.blank) ?_ p rfl
    intro k _ q same
    refine ⟨(setPixelColor_avoids _ q c).mpr fun lit => ?_, (setPixelColor_blank _ c q).trans same⟩
    exact (inside _ ((Alike.of_blank same).numLEDs ▸ lit)).of_blank same

/-- **The buffer.** Whatever has been done with a strip, whatever the allocator has answered: no
operation reads or writes outside of the buffer, exactly if the strip has no pixels or has room
for their bytes. -/
theorem in_bounds (ops : List Op) :
    let p := empty.after ops
    (∀ op, (step op p).Avoids .index) ↔ p.numLEDs = 0 ∨ Room p := by
  intro p
  have sound : Sound p := sound_run ops
  refine ⟨fun safe => ?_, fun room => ?_⟩
  · by_contra none
    obtain ⟨some_pixel, no_room⟩ := not_or.mp none
    obtain ⟨n, lit, out⟩ := outside sound some_pixel no_room
    exact out ((setPixelColor_avoids n p 0).mp (safe (.setPixelColor n 0)) lit)
  · have inside (n : BitVec 16) (lit : n < p.numLEDs) : Inside n p := by
      rcases room with none | room
      · rw [none] at lit
        exact absurd lit BitVec.not_lt_zero
      · exact room.inside sound lit
    intro op
    cases op with
    | updateLength n granted => exact Checked.avoids_pure _ _
    | updateType t granted => exact Checked.avoids_pure _ _
    | setPixelColor3 n r g b => exact (setPixelColor3_avoids n p r g b).mpr (inside n)
    | setPixelColor4 n r g b w => exact (setPixelColor4_avoids n p r g b w).mpr (inside n)
    | setPixelColor n c => exact (setPixelColor_avoids n p c).mpr (inside n)
    | getPixelColor n =>
      exact (Checked.avoids_bind _ _ _).mpr
        ⟨(getPixelColor_avoids n p).mpr (inside n), Checked.avoids_pure _ _⟩
    | fill c first count => exact fill_avoids inside c first count
    | clear => exact sweep_avoids p sound _
    | setBrightness b =>
      rw [step, setBrightness]
      split
      · exact (Checked.avoids_bind _ _ _).mpr ⟨sweep_avoids p sound _, Checked.avoids_pure _ _⟩
      · exact Checked.avoids_pure _ _

end AdafruitNeoPixel

end CofferLed.Core
