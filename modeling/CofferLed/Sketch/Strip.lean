import CofferLed.Core.NeoPixel
import CofferLed.Sketch.Color

/-! `g_strip`: a strip at full brightness.

`setup` sets the brightness to its maximum, which on a strip just created is the
brightness it has; nothing changes it later. At full brightness the library keeps the
24 bits of a colour (`pixel_setPixelColor`), so the strip is an array of colours with a
clear top byte. -/
namespace CofferLed.Sketch
open Library CofferLed.Core

/-- A strip on which no colour is scaled. -/
def Strip (N : Nat) : Type := {p : NeoPixel N // p.brightness = 0}

namespace Strip
variable {N : Nat}

/-- `g_strip(LED_COUNT, LED_PIN, NEO_GRB + NEO_KHZ800)`, before and after
`setBrightness(255)`, which rescales nothing on a strip at full brightness. -/
def create (N : Nat) : Strip N := ⟨NeoPixel.create N, rfl⟩

abbrev numPixels (_ : Strip N) : Nat := N

def setPixelColor (s : Strip N) (n : Nat) (c : BitVec 32) : Exec (Strip N) :=
  ⟨⟨(s.1.setPixelColor n c).val, (NeoPixel.setPixelColor_brightness s.1 n c).trans s.2⟩,
    (s.1.setPixelColor n c).faults⟩

def getPixelColor (s : Strip N) (n : Nat) : Exec (BitVec 32) := s.1.getPixelColor n

/-- The colour of LED `n`. -/
def pixel (s : Strip N) (n : Nat) : Color := ⟨(s.getPixelColor n).val⟩

end Strip

/-- The 24 bits of a colour that the strip keeps. -/
def Color.kept (c : Color) : Color := Color.ofBytes (c.byte 0) (c.byte 1) (c.byte 2) 0

namespace Strip
variable {N : Nat}

theorem kept_byte (c : Color) (k : Nat) (h : k < 3) : c.kept.byte k = c.byte k := by
  obtain ⟨r, g, b, _⟩ := Color.byte_ofBytes (c.byte 0) (c.byte 1) (c.byte 2) 0
  match k with
  | 0 => exact r
  | 1 => exact g
  | 2 => exact b

theorem pixel_eq (s : Strip N) (n : Nat) (h : n < N) :
    s.pixel n = Color.ofBytes (s.1.stored (n * 3 + 2)) (s.1.stored (n * 3))
      (s.1.stored (n * 3 + 1)) 0 := by
  rw [pixel, getPixelColor, NeoPixel.getPixelColor_val s.1 s.2 n h, wordOf_shifted_three]
  rfl

theorem stored_setPixelColor (s : Strip N) (n : Nat) (h : n < N) (c : BitVec 32) (i : Nat) :
    (s.setPixelColor n c).val.1.stored i =
      if i = n * 3 then (⟨c⟩ : Color).byte 1
      else if i = n * 3 + 1 then (⟨c⟩ : Color).byte 2
      else if i = n * 3 + 2 then (⟨c⟩ : Color).byte 0
      else s.1.stored i := by
  have blue : c.setWidth 8 = byteOf c 0 := by
    rw [← shifted_byteOf c 0]
    rfl
  show (s.1.setPixelColor n c).val.stored i = _
  rw [NeoPixel.setPixelColor_val s.1 s.2 n h, NeoPixel.stored_store _ n h, blue]
  simp only [Color.byte, ← shifted_byteOf c 1, ← shifted_byteOf c 2]

/-- LED `n` takes the colour it is set to. -/
theorem pixel_setPixelColor_self (s : Strip N) (n : Nat) (h : n < N) (c : BitVec 32) :
    (s.setPixelColor n c).val.pixel n = (⟨c⟩ : Color).kept := by
  rw [pixel_eq _ n h]
  simp [stored_setPixelColor s n h, Color.kept]

theorem pixel_beyond (s : Strip N) (n : Nat) (h : N ≤ n) : s.pixel n = ⟨0⟩ := by
  simp [pixel, getPixelColor, NeoPixel.getPixelColor, h]

theorem pixel_create (n : Nat) : (create N).pixel n = ⟨0⟩ := by
  by_cases h : n < N
  · have unlit (i : Nat) : (create N).1.stored i = 0 := by
      simp only [create, NeoPixel.create, NeoPixel.stored, Vector.getElem?_replicate]
      split <;> rfl
    rw [pixel_eq _ n h, unlit, unlit, unlit]
    rfl
  · exact pixel_beyond _ n (Nat.not_lt.mp h)

/-- The other LEDs keep theirs. -/
theorem pixel_setPixelColor_other (s : Strip N) (n : Nat) (h : n < N) (c : BitVec 32) (m : Nat)
    (hm : m ≠ n) : (s.setPixelColor n c).val.pixel m = s.pixel m := by
  by_cases inside : m < N
  · rw [pixel_eq _ m inside, pixel_eq s m inside]
    simp only [stored_setPixelColor s n h]
    simp (disch := omega) only [if_neg]
  · rw [pixel_beyond _ m (by omega), pixel_beyond s m (by omega)]

/-- A loop over the LEDs that sets each one from its own colour before the loop. -/
theorem pixel_forRange (color : Nat → Color → Color) (body : Nat → Strip N → Exec (Strip N))
    (sets : ∀ i, i < N → ∀ s, (body i s).val = (s.setPixelColor i (color i (s.pixel i)).val).val)
    (s : Strip N) (j : Nat) (h : j < N) :
    (Checked.forRange N body s).val.pixel j = (color j (s.pixel j)).kept := by
  have self : ∀ i, i < N → ∀ s, (body i s).val.pixel i = (color i (s.pixel i)).kept :=
    fun i hi s => by
      rw [sets i hi s]
      exact pixel_setPixelColor_self s i hi _
  have other : ∀ i, i < N → ∀ s m, m ≠ i → (body i s).val.pixel m = s.pixel m :=
    fun i hi s m hm => by
      rw [sets i hi s]
      exact pixel_setPixelColor_other s i hi _ m hm
  have cell := Checked.forRange_cell (fun s j => s.pixel j) (fun j c => (color j c).kept)
    self other s j
  rw [cell, if_pos h]

/-- Two strips that show the same colours are the same strip. -/
theorem ext_pixels {s t : Strip N} (h : ∀ n, n < N → s.pixel n = t.pixel n) : s = t := by
  apply Subtype.ext
  have bytes : ∀ i, i < 3 * N → s.1.stored i = t.1.stored i := fun i hi => by
    have here := h (i / 3) (by omega)
    rw [pixel_eq s _ (by omega), pixel_eq t _ (by omega)] at here
    obtain ⟨s0, s1, s2, _⟩ := Color.byte_ofBytes (s.1.stored (i / 3 * 3 + 2))
      (s.1.stored (i / 3 * 3)) (s.1.stored (i / 3 * 3 + 1)) 0
    obtain ⟨t0, t1, t2, _⟩ := Color.byte_ofBytes (t.1.stored (i / 3 * 3 + 2))
      (t.1.stored (i / 3 * 3)) (t.1.stored (i / 3 * 3 + 1)) 0
    rw [here] at s0 s1 s2
    have which : i = i / 3 * 3 ∨ i = i / 3 * 3 + 1 ∨ i = i / 3 * 3 + 2 := by omega
    rcases which with hi | hi | hi <;> rw [hi]
    · exact s1.symm.trans t1
    · exact s2.symm.trans t2
    · exact s0.symm.trans t0
  have same : s.1.pixels = t.1.pixels := by
    apply Vector.ext
    intro i hi
    simpa [NeoPixel.stored, hi] using bytes i hi
  have full := s.2.trans t.2.symm
  obtain ⟨⟨_, _⟩, _⟩ := s
  obtain ⟨⟨_, _⟩, _⟩ := t
  simp_all

theorem setPixelColor_safe (s : Strip N) (n : Nat) (c : BitVec 32) (small : n * 3 < 65536) :
    (s.setPixelColor n c).Safe := NeoPixel.setPixelColor_safe s.1 s.2 n c small

theorem getPixelColor_safe (s : Strip N) (n : Nat) (small : n * 3 < 65536) :
    (s.getPixelColor n).Safe := NeoPixel.getPixelColor_safe s.1 s.2 n small

end Strip

end CofferLed.Sketch
